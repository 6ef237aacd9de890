import Mathlib.Logic.Relation

/-! Runs of a system that executes one labelled step at a time. A step that is not
enabled gives `none`; an execution records every step with the state it was taken in. -/
namespace Blush.Transition
variable {σ α : Type*}

/-- A finite run from `start`: the steps taken, each with its source state, and the last state. -/
inductive Run (step : σ → α → Option σ) (start : σ) : List (σ × α) → σ → Prop
  | refl : Run step start [] start
  | next {steps s a s'} (before : Run step start steps s) (h : step s a = some s') :
      Run step start (steps ++ [(s,a)]) s'

/-- A run together with its trace, so that a value of this type is a run that really happened. -/
structure Execution (step : σ → α → Option σ) (start : σ) where
  steps : List (σ × α)
  final : σ
  run : Run step start steps final

/-- Execute a list of labels and record the steps; `none` when one of them is not enabled. -/
def record (step : σ → α → Option σ) : σ → List α → Option (List (σ × α) × σ)
  | s,[] => some ([],s)
  | s,a::as => (step s a).bind fun s' => (record step s' as).map fun r => ((s,a)::r.1,r.2)

namespace Run
variable {step : σ → α → Option σ} {start s s' : σ} {steps steps' : List (σ × α)}

theorem trans (h : Run step start steps s) (h' : Run step s steps' s') :
    Run step start (steps ++ steps') s' := by
  induction h' with
  | refl => simpa using h
  | next _ hs ih => rw [← List.append_assoc]; exact .next ih hs

/-- An invariant that holds at the start and survives every step holds at the end of a run. -/
theorem invariant {I : σ → Prop} (hstart : I start)
    (hstep : ∀ s a s', I s → step s a = some s' → I s') (h : Run step start steps s) : I s := by
  induction h with
  | refl => exact hstart
  | next _ hs ih => exact hstep _ _ _ ih hs

/-- The same rule for runs all of whose steps meet a condition on the state and the label. -/
theorem invariant_of {I : σ → Prop} {C : σ → α → Prop} (hstart : I start)
    (hstep : ∀ s a s', I s → C s a → step s a = some s' → I s')
    (h : Run step start steps s) (hC : ∀ p ∈ steps, C p.1 p.2) : I s := by
  induction h with
  | refl => exact hstart
  | next _ hs ih =>
    exact hstep _ _ _ (ih fun p hp => hC p (List.mem_append_left _ hp)) (hC (_,_) (by simp)) hs

/-- Every state of a run, the last one included, is reached by a prefix of the run. -/
theorem prefix_of_visited (h : Run step start steps s) (hs : s' ∈ steps.map Prod.fst ++ [s]) :
    ∃ before, before <+: steps ∧ Run step start before s' := by
  induction h with
  | refl =>
    obtain rfl : s' = start := by simpa using hs
    exact ⟨[],List.prefix_refl _,.refl⟩
  | @next steps t a t' before ht ih =>
    rcases List.mem_append.mp hs with hs | hs
    · obtain ⟨xs,hx,hr⟩ := ih (by simpa using hs)
      exact ⟨xs,hx.trans (List.prefix_append _ _),hr⟩
    · obtain rfl : s' = t' := by simpa using hs
      exact ⟨_,List.prefix_refl _,before.next ht⟩

/-- The target of every recorded step is a state of the run. -/
theorem target_visited (h : Run step start steps s) {p : σ × α} (hp : p ∈ steps)
    (hs : step p.1 p.2 = some s') : s' ∈ steps.map Prod.fst ++ [s] := by
  induction h with
  | refl => simp at hp
  | @next steps t a t' before ht ih =>
    rcases List.mem_append.mp hp with hp | hp
    · have hv := ih hp
      simp only [List.map_append,List.map_cons,List.map_nil]
      exact List.mem_append_left _ hv
    · obtain rfl : p = (t,a) := by simpa using hp
      obtain rfl : t' = s' := Option.some.inj (ht.symm.trans hs)
      simp

/-- A preorder that every step follows relates all states of a run to the last one. -/
theorem rel_final {R : σ → σ → Prop} (hrefl : ∀ s, R s s) (htrans : ∀ s t u, R s t → R t u → R s u)
    (hstep : ∀ s a s', step s a = some s' → R s s') (h : Run step start steps s)
    (hs : s' ∈ steps.map Prod.fst ++ [s]) : R s' s := by
  induction h with
  | refl =>
    obtain rfl : s' = start := by simpa using hs
    exact hrefl _
  | @next steps t a t' before ht ih =>
    rcases List.mem_append.mp hs with hs | hs
    · exact htrans _ _ _ (ih (by simpa using hs)) (hstep t a t' ht)
    · obtain rfl : s' = t' := by simpa using hs
      exact hrefl _

/-- Every recorded step was taken. -/
theorem exists_target (h : Run step start steps s) {p : σ × α} (hp : p ∈ steps) :
    ∃ t, step p.1 p.2 = some t := by
  induction h with
  | refl => simp at hp
  | @next steps t a t' before ht ih =>
    rcases List.mem_append.mp hp with hp | hp
    · exact ih hp
    · obtain rfl : p = (t,a) := by simpa using hp
      exact ⟨t',ht⟩

theorem eq_of_nil (h : Run step start [] s) : s = start := by
  generalize hl : ([] : List (σ × α)) = l at h
  cases h with
  | refl => rfl
  | next => simp at hl

/-- A run that starts with a recorded step. -/
theorem of_cons {p : σ × α} (h : Run step start (p::steps) s) :
    p.1 = start ∧ ∃ t, step start p.2 = some t ∧ Run step t steps s := by
  generalize hl : p::steps = l at h
  induction h generalizing steps with
  | refl => simp at hl
  | @next before t a t' hb ht ih =>
    cases before with
    | nil =>
      obtain ⟨rfl,rfl⟩ := List.cons.inj hl
      obtain rfl := hb.eq_of_nil
      exact ⟨rfl,t',ht,.refl⟩
    | cons x before =>
      obtain ⟨rfl,rfl⟩ := List.cons.inj hl
      obtain ⟨hp,u,hu,hr⟩ := ih rfl
      exact ⟨hp,u,hu,hr.next ht⟩

/-- A run splits where its list of steps does. -/
theorem of_append {after : List (σ × α)} (h : Run step start (steps ++ after) s) :
    ∃ t, Run step start steps t ∧ Run step t after s := by
  induction steps generalizing start with
  | nil => exact ⟨start,.refl,h⟩
  | cons p steps ih =>
    obtain ⟨rfl,t,ht,hr⟩ := h.of_cons
    obtain ⟨u,hu,hr⟩ := ih hr
    exact ⟨u,(Run.refl.next ht).trans hu,hr⟩

/-- A relation that every step carries over to a step of another system with the same label carries
over whole runs. -/
theorem simulate {τ : Type*} {high : τ → α → Option τ} {R : σ → τ → Prop}
    (hstep : ∀ s t a s', R s t → step s a = some s' → ∃ t', high t a = some t' ∧ R s' t')
    (h : Run step start steps s) {top : τ} (hR : R start top) :
    ∃ t more, R s t ∧ Run high top more t ∧ more.map Prod.snd = steps.map Prod.snd := by
  induction h with
  | refl => exact ⟨top,[],hR,.refl,rfl⟩
  | @next steps u a u' _ hu ih =>
    obtain ⟨t,more,ht,hr,hlabels⟩ := ih
    obtain ⟨t',ha,ht'⟩ := hstep u t a u' ht hu
    exact ⟨t',more ++ [(t,a)],ht',hr.next ha,by simp [hlabels]⟩

theorem of_record {as : List α} (h : record step start as = some (steps,s)) :
    Run step start steps s := by
  induction as generalizing start steps with
  | nil => cases h; exact .refl
  | cons a as ih =>
    obtain ⟨t,ht,h⟩ := Option.bind_eq_some_iff.mp h
    obtain ⟨r,hr,he⟩ := Option.map_eq_some_iff.mp h
    obtain ⟨rfl,rfl⟩ := Prod.mk.inj he
    exact (Run.refl.next ht).trans (ih hr)

end Run

namespace Execution
variable {step : σ → α → Option σ} {start : σ}

/-- The execution of a list of labels all of which are enabled. -/
def ofLabels (as : List α) (h : (record step start as).isSome) : Execution step start where
  steps := ((record step start as).get h).1
  final := ((record step start as).get h).2
  run := Run.of_record (Option.some_get h).symm

/-- All states an execution goes through, the last one included. -/
def visited (e : Execution step start) : List σ := e.steps.map Prod.fst ++ [e.final]

theorem final_mem_visited (e : Execution step start) : e.final ∈ e.visited := by simp [visited]

/-- What every run establishes at its end holds of every state an execution goes through. -/
theorem forall_visited {I : σ → Prop} (e : Execution step start)
    (h : ∀ steps s, steps <+: e.steps → Run step start steps s → I s) : ∀ s ∈ e.visited, I s := by
  intro s hs
  obtain ⟨before,hp,hr⟩ := e.run.prefix_of_visited hs
  exact h before s hp hr

/-- The source of every recorded step is visited. -/
theorem source_mem_visited (e : Execution step start) {p : σ × α} (hp : p ∈ e.steps) :
    p.1 ∈ e.visited := List.mem_append_left _ (List.mem_map_of_mem hp)

/-- The target of every recorded step is visited. -/
theorem target_mem_visited (e : Execution step start) {p : σ × α} (hp : p ∈ e.steps) {s' : σ}
    (hs : step p.1 p.2 = some s') : s' ∈ e.visited := e.run.target_visited hp hs

/-- The run up to a recorded step. -/
theorem run_before (e : Execution step start) {p : σ × α} {before after : List (σ × α)}
    (he : e.steps = before ++ p::after) : Run step start before p.1 := by
  have hrun := e.run
  rw [he] at hrun
  obtain ⟨t,hbefore,hafter⟩ := hrun.of_append
  obtain ⟨ht,-⟩ := hafter.of_cons
  exact ht ▸ hbefore

/-- A recorded step and the run up to it. -/
theorem split (e : Execution step start) {p : σ × α} (hp : p ∈ e.steps) :
    ∃ before after, e.steps = before ++ p::after ∧ Run step start before p.1 := by
  obtain ⟨before,after,he⟩ := List.append_of_mem hp
  exact ⟨before,after,he,e.run_before he⟩

/-- A property of states and one of steps that hold until the first slip, one of which fails at the
slip, hold throughout a run if and only if the run has no slip. -/
theorem forall_visited_steps_iff {P : σ → Prop} {Q slip : σ → α → Prop}
    (hkeeps : ∀ steps s, Run step start steps s → (∀ p ∈ steps, ¬slip p.1 p.2) → P s)
    (hquiet : ∀ steps s a, Run step start steps s → (∀ p ∈ steps, ¬slip p.1 p.2) →
      ¬slip s a → Q s a)
    (hslip : ∀ steps s a s', Run step start steps s → (∀ p ∈ steps, ¬slip p.1 p.2) →
      step s a = some s' → slip s a → P s' → ¬Q s a) (e : Execution step start) :
    ((∀ s ∈ e.visited, P s) ∧ ∀ p ∈ e.steps, Q p.1 p.2) ↔ ∀ p ∈ e.steps, ¬slip p.1 p.2 := by
  constructor
  · obtain ⟨steps,final,run⟩ := e
    simp only [visited]
    induction run with
    | refl => simp
    | @next steps s a s' before hs ih =>
      rintro ⟨hP,hQ⟩
      have hbefore := ih ⟨fun t ht => hP t (by
        rw [List.map_append]
        exact List.mem_append_left _ ht),fun p hp => hQ p (List.mem_append_left _ hp)⟩
      intro p hp
      rcases List.mem_append.mp hp with hp | hp
      · exact hbefore p hp
      · obtain rfl : p = (s,a) := by simpa using hp
        exact fun hsl => hslip steps s a s' before hbefore hs hsl (hP s' (by simp))
          (hQ (s,a) (by simp))
  · intro hn
    refine ⟨e.forall_visited fun steps s hp hr => hkeeps steps s hr fun p h => hn p (hp.subset h),
      fun p hp => ?_⟩
    obtain ⟨before,after,he,hr⟩ := e.split hp
    exact hquiet before p.1 p.2 hr (fun q hq => hn q (by simp [he,hq])) (hn p hp)

/-- The same rule for a property of states. -/
theorem forall_visited_iff {P : σ → Prop} {slip : σ → α → Prop}
    (hkeeps : ∀ steps s, Run step start steps s → (∀ p ∈ steps, ¬slip p.1 p.2) → P s)
    (hslip : ∀ steps s a s', Run step start steps s → (∀ p ∈ steps, ¬slip p.1 p.2) →
      step s a = some s' → slip s a → ¬P s') (e : Execution step start) :
    (∀ s ∈ e.visited, P s) ↔ ∀ p ∈ e.steps, ¬slip p.1 p.2 := by
  rw [← e.forall_visited_steps_iff (Q:=fun _ _ => True) hkeeps (fun _ _ _ _ _ _ => trivial)
    fun steps s a s' hr hn hs hsl hP => absurd hP (hslip steps s a s' hr hn hs hsl)]
  exact ⟨fun h => ⟨h,fun _ _ => trivial⟩,And.left⟩

end Execution
end Blush.Transition
