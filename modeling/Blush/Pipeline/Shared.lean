import Blush.Pipeline.Stamp

/-! Two callers of the pipeline with one output directory: the one that has run its generators last
prunes what the other one has put there. -/
namespace Blush.Pipeline
open LastWrite Transition

/-- The callers, in the order a configure run calls them in. -/
inductive Caller
  | first
  | second
  deriving DecidableEq

/-- What each caller reads, and the directory both write to. -/
structure SharedState (C H : Type) where
  inputs : Caller → Inputs C
  out : OutputDir C H

/-- The inputs of a caller change, or CMake configures the project. -/
inductive SharedAct (C : Type)
  | edit (c : Caller) (inputs : Inputs C)
  | configure

/-- The files of one directory are in another one. -/
def Covers {C : Type} (dir produced : String → Option C) : Prop :=
  ∀ path content, produced path = some content → dir path = some content

section
variable {C H H' : Type} [DecidableEq H'] (gen : Generators C) (md5 : Md5 C H H')
  (stampName : Caller → String)

/-- One caller runs the pipeline, and the generators succeed. -/
def SharedState.call (s : SharedState C H') (c : Caller) : SharedState C H' :=
  { s with out := (runPipeline gen md5 (stampName c) (s.inputs c) s.out (.found .succeeds)).1 }

def sharedStep (s : SharedState C H') : SharedAct C → Option (SharedState C H')
  | .edit c inputs => some { s with inputs := Function.update s.inputs c inputs }
  | .configure => some ((s.call gen md5 stampName .first).call gen md5 stampName .second)

/-- Nothing has been generated. -/
def sharedStart (inputs : Caller → Inputs C) : SharedState C H' :=
  ⟨inputs,⟨∅,∅,none,fun _ => none⟩⟩

/-- What the generators of a caller produce. -/
def produced (inputs : Inputs C) : String → Option C :=
  files (gen.output inputs.faceFile inputs.templates)

/-- The files of the codegen directory. -/
def SharedState.codegenFiles (s : SharedState C H') : String → Option C :=
  files (s.out.codegenDir.getD ∅)

/-- A caller that does not skip its generators, with its inputs. -/
def SharedState.regenerates (s : SharedState C H') (c : Caller) : Option (Caller × Inputs C) :=
  if needsRegen md5 (stampName c) (s.inputs c) s.out then some (c,s.inputs c) else none

/-- The caller that runs its generators last in a configure run. -/
def lastOf (p : SharedState C H' × SharedAct C) : Option (Caller × Inputs C) :=
  match p.2 with
  | .edit .. => none
  | .configure =>
    ((p.1.call gen md5 stampName .first).regenerates md5 stampName .second).or
      (p.1.regenerates md5 stampName .first)

/-- The caller that has run its generators last in a run. -/
def lastGenerated (steps : List (SharedState C H' × SharedAct C)) : Option (Caller × Inputs C) :=
  (steps.filterMap (lastOf gen md5 stampName)).getLast?

variable {inputs : Caller → Inputs C}
  (e : Execution (sharedStep gen md5 stampName) (sharedStart inputs))

/-- The generators of the two callers never produce files of the same path. -/
def Apart : Prop :=
  ∀ s ∈ e.visited, ∀ s' ∈ e.visited, ∀ path,
    produced gen (s.inputs .first) path = none ∨ produced gen (s'.inputs .second) path = none

/-- After each configure run the directory has all files of both callers. -/
def BothComplete : Prop :=
  ∀ p ∈ e.steps, p.2 = .configure → ∀ s', sharedStep gen md5 stampName p.1 p.2 = some s' →
    ∀ c, Covers s'.codegenFiles (produced gen (s'.inputs c))

/-- After each configure run the caller that has not been the last to run its generators has nothing
to produce, and the other one no more than it produced then. -/
def OneProduces : Prop :=
  ∀ before p after, e.steps = before ++ p::after → p.2 = .configure →
    ∀ last ∈ lastGenerated gen md5 stampName (before ++ [p]),
      (∀ c, c ≠ last.1 → ∀ path, produced gen (p.1.inputs c) path = none) ∧
        Covers (produced gen last.2) (produced gen (p.1.inputs last.1))

end

section
variable {C H H' : Type} [DecidableEq H'] {gen : Generators C} {md5 : Md5 C H H'}
  {stampName : Caller → String} {inputs : Caller → Inputs C} {s s' : SharedState C H'}
  {a : SharedAct C} {steps : List (SharedState C H' × SharedAct C)}

/-- A caller leaves what its generators produce, or the directory as it is. -/
theorem codegenFiles_call (c : Caller) :
    some (s.call gen md5 stampName c).codegenFiles =
      ((s.regenerates md5 stampName c).map fun last => produced gen last.2).or
        (some s.codegenFiles) := by
  by_cases hregen : needsRegen md5 (stampName c) (s.inputs c) s.out = true
  · simp only [SharedState.call,SharedState.regenerates,runPipeline,if_pos hregen,
      SharedState.codegenFiles]
    exact congrArg some (files_syncDir _)
  · simp only [SharedState.call,SharedState.regenerates,runPipeline,if_neg hregen]
    rfl

theorem codegenFiles_step (h : sharedStep gen md5 stampName s a = some s') :
    some s'.codegenFiles =
      ((lastOf gen md5 stampName (s,a)).map fun last => produced gen last.2).or
        (some s.codegenFiles) := by
  cases a with
  | edit c inputs => cases h; rfl
  | configure =>
    cases h
    rw [codegenFiles_call,codegenFiles_call,lastOf,← Option.or_assoc,Option.map_or]

/-- The directory has what was produced last. -/
theorem codegenFiles_eq (h : Run (sharedStep gen md5 stampName) (sharedStart inputs) steps s) :
    some s.codegenFiles =
      ((lastGenerated gen md5 stampName steps).map fun last => produced gen last.2).or
        (some fun _ => none) := by
  have hrun := get_run (fun s : SharedState C H' => some s.codegenFiles)
    (fun p => (lastOf gen md5 stampName p).map fun last => produced gen last.2)
    (fun _ _ _ => codegenFiles_step) h
  rw [← List.map_filterMap,List.getLast?_map] at hrun
  exact hrun

theorem lastGenerated_concat (p : SharedState C H' × SharedAct C) :
    lastGenerated gen md5 stampName (steps ++ [p]) =
      (lastOf gen md5 stampName p).or (lastGenerated gen md5 stampName steps) := by
  rw [lastGenerated,List.filterMap_append]
  cases h : lastOf gen md5 stampName p <;> simp [h,lastGenerated]

/-- In a directory without stamps the first caller runs its generators. -/
theorem lastOf_configure_of_fresh (h : s.out.stamps (stampName .first) = none) :
    ∃ last, lastOf gen md5 stampName (s,.configure) = some last := by
  have hregen : s.regenerates md5 stampName .first = some (.first,s.inputs .first) := by
    rw [SharedState.regenerates,needsRegen,h]
    rfl
  rw [lastOf,hregen]
  cases (s.call gen md5 stampName .first).regenerates md5 stampName .second <;> simp

theorem out_eq_of_not_generated
    (h : Run (sharedStep gen md5 stampName) (sharedStart inputs) steps s)
    (hnone : lastGenerated gen md5 stampName steps = none) :
    s.out.stamps (stampName .first) = none := by
  induction h with
  | refl => rfl
  | @next steps s a s' before hs ih =>
    rw [lastGenerated_concat,Option.or_eq_none_iff] at hnone
    cases a with
    | edit c inputs => cases hs; exact ih hnone.2
    | configure =>
      obtain ⟨last,hlast⟩ := lastOf_configure_of_fresh (ih hnone.2)
      exact absurd (hnone.1.symm.trans hlast) (by simp)

/-- After a configure run some caller has run its generators. -/
theorem exists_lastGenerated
    (h : Run (sharedStep gen md5 stampName) (sharedStart inputs) steps s) :
    ∃ last, lastGenerated gen md5 stampName (steps ++ [(s,.configure)]) = some last := by
  rw [lastGenerated_concat]
  cases hlast : lastGenerated gen md5 stampName steps with
  | some last => cases lastOf gen md5 stampName (s,.configure) <;> simp
  | none =>
    rw [Option.or_none]
    exact lastOf_configure_of_fresh (out_eq_of_not_generated h hlast)

/-- What a caller has generated from were its inputs then. -/
theorem inputs_of_lastOf {p : SharedState C H' × SharedAct C} {last : Caller × Inputs C}
    (h : lastOf gen md5 stampName p = some last) : last.2 = p.1.inputs last.1 := by
  have hcaller {s : SharedState C H'} {c : Caller}
      (h : s.regenerates md5 stampName c = some last) : last.2 = s.inputs last.1 := by
    obtain ⟨-,h⟩ := Option.ite_none_right_eq_some.mp h
    obtain rfl := Option.some.inj h
    rfl
  obtain ⟨s,a⟩ := p
  cases a with
  | edit => cases h
  | configure =>
    rcases Option.or_eq_some_iff.mp h with h | ⟨-,h⟩
    · exact (hcaller h).trans rfl
    · exact hcaller h

end

section
variable {C H H' : Type} [DecidableEq H'] {gen : Generators C} {md5 : Md5 C H H'}
  {stampName : Caller → String} {inputs : Caller → Inputs C}
  {e : Execution (sharedStep gen md5 stampName) (sharedStart inputs)}

/-- What one caller has produced does not have a file of the other one. -/
theorem Apart.covers_iff (h : Apart gen md5 stampName e) {s s' : SharedState C H'}
    (hs : s ∈ e.visited) (hs' : s' ∈ e.visited) {c c' : Caller} (hc : c ≠ c') :
    Covers (produced gen (s'.inputs c')) (produced gen (s.inputs c)) ↔
      ∀ path, produced gen (s.inputs c) path = none := by
  have hnone (path : String) : produced gen (s.inputs c) path = none ∨
      produced gen (s'.inputs c') path = none := by
    cases c <;> cases c'
    · exact absurd rfl hc
    · exact h s hs s' hs' path
    · exact (h s' hs' s hs path).symm
    · exact absurd rfl hc
  constructor
  · intro hcovers path
    rcases hnone path with hp | hp
    · exact hp
    · refine Option.eq_none_iff_forall_ne_some.mpr fun content hcontent => ?_
      simp [hcovers path content hcontent] at hp
  · intro hempty path content hcontent
    simp [hempty path] at hcontent

/-- What a configure run has to leave, by the caller that generated last. -/
theorem complete_iff (hapart : Apart gen md5 stampName e)
    {before after : List (SharedState C H' × SharedAct C)} {s : SharedState C H'}
    (he : e.steps = before ++ (s,.configure)::after) :
    ∃ last s', lastGenerated gen md5 stampName (before ++ [(s,.configure)]) = some last ∧
      sharedStep gen md5 stampName s .configure = some s' ∧ s'.inputs = s.inputs ∧
      ((∀ c, Covers s'.codegenFiles (produced gen (s.inputs c))) ↔
        (∀ c, c ≠ last.1 → ∀ path, produced gen (s.inputs c) path = none) ∧
          Covers (produced gen last.2) (produced gen (s.inputs last.1))) := by
  have hbefore := e.run_before he
  obtain ⟨last,hlast⟩ := exists_lastGenerated hbefore
  have hfiles := codegenFiles_eq
    (hbefore.next (rfl : sharedStep gen md5 stampName s .configure = _))
  rw [hlast] at hfiles
  replace hfiles : _ = produced gen last.2 := Option.some.inj hfiles
  -- the inputs it generated from are those of a state of the run
  obtain ⟨q,hq,hlastOf⟩ := List.mem_filterMap.mp (List.mem_of_getLast? hlast)
  have hold := inputs_of_lastOf hlastOf
  have hq' : q.1 ∈ e.visited := e.source_mem_visited (by
    rw [he]
    rcases List.mem_append.mp hq with hq | hq
    · exact List.mem_append_left _ hq
    · simp [List.mem_singleton.mp hq])
  have hs : s ∈ e.visited := e.source_mem_visited (p:=(s,.configure)) (by simp [he])
  refine ⟨last,_,hlast,rfl,rfl,?_⟩
  rw [hfiles]
  constructor
  · intro h
    refine ⟨fun c hc => ?_,h last.1⟩
    have hcovers := h c
    rw [hold] at hcovers
    exact (hapart.covers_iff hs hq' hc).mp hcovers
  · rintro ⟨hother,hsame⟩ c
    by_cases hc : c = last.1
    · exact hc ▸ hsame
    · intro path content hcontent
      simp [hother c hc path] at hcontent

/-- Two callers whose files have different paths share a directory if and only if one of them has no
files whenever the other one was the last to run its generators. -/
theorem bothComplete_iff (hapart : Apart gen md5 stampName e) :
    BothComplete gen md5 stampName e ↔ OneProduces gen md5 stampName e := by
  constructor
  · rintro h before ⟨s,a⟩ after he rfl last hlast
    obtain ⟨last',s',hlast',hs,hinputs,hiff⟩ := complete_iff hapart he
    obtain rfl : last' = last := Option.some.inj (hlast'.symm.trans hlast)
    have hcomplete := h (s,.configure) (by simp [he]) rfl s' hs
    rw [hinputs] at hcomplete
    exact hiff.mp hcomplete
  · rintro h ⟨s,a⟩ hp rfl s' hs
    obtain ⟨before,after,he,-⟩ := e.split hp
    obtain ⟨last,s'',hlast,hs',hinputs,hiff⟩ := complete_iff hapart he
    obtain rfl : s' = s'' := Option.some.inj (hs.symm.trans hs')
    rw [hinputs]
    exact hiff.mpr (h before _ after he rfl last hlast)

end

/-! ## One configure run -/

def stampNames : Caller → String
  | .first => "blush-data-model-stamp"
  | .second => "blush-uop-stamp"

def configuredOnce (inputs : Caller → Inputs ℕ) :
    Execution (sharedStep copying md5 stampNames) (sharedStart inputs) :=
  .ofLabels [.configure] rfl

theorem inputs_of_configuredOnce {inputs : Caller → Inputs ℕ} {s : SharedState ℕ (List ℕ)}
    (h : s ∈ (configuredOnce inputs).visited) : s.inputs = inputs := by
  rcases List.mem_cons.mp h with rfl | h
  · rfl
  · rw [List.mem_singleton.mp h]
    rfl

theorem produced_oneTemplate (faceFile : ℕ) {name path : String} (h : path ≠ name) :
    produced copying (oneTemplate faceFile name) path = none := by
  show AList.lookup path (AList.insert name 7 ∅) = none
  rw [AList.lookup_insert_ne h]
  rfl

/-- The first caller has no templates. -/
def noTemplates : Caller → Inputs ℕ
  | .first => ⟨0,⟨[],.nil⟩⟩
  | .second => oneTemplate 0 "b.vm"

theorem noTemplates_bothComplete :
    BothComplete copying md5 stampNames (configuredOnce noTemplates) := by
  have hfirst (path : String) : produced copying (noTemplates .first) path = none := rfl
  refine (bothComplete_iff fun s hs _ _ path => .inl ?_).mpr ?_
  · rw [inputs_of_configuredOnce hs]
    exact hfirst path
  · intro before p after he _ last hlast
    have hsteps : (configuredOnce noTemplates).steps = [(sharedStart noTemplates,.configure)] := rfl
    rw [hsteps] at he
    obtain ⟨rfl,he⟩ | ⟨-,he⟩ := List.append_eq_singleton_iff.mp he.symm
    · obtain ⟨rfl,rfl⟩ := List.cons.inj he
      obtain rfl : (Caller.second,oneTemplate 0 "b.vm") = last := Option.some.inj hlast
      refine ⟨fun c hc path => ?_,fun _ _ h => h⟩
      cases c with
      | first => exact hfirst path
      | second => exact absurd rfl hc
    · simp at he

/-- Each caller has a template of its own. -/
def oneTemplateEach : Caller → Inputs ℕ
  | .first => oneTemplate 0 "a.vm"
  | .second => oneTemplate 0 "b.vm"

/-- The second caller prunes the file of the first one. -/
theorem oneTemplateEach_not_bothComplete :
    Apart copying md5 stampNames (configuredOnce oneTemplateEach) ∧
      ¬BothComplete copying md5 stampNames (configuredOnce oneTemplateEach) := by
  refine ⟨fun s hs s' hs' path => ?_,fun h => ?_⟩
  · rw [inputs_of_configuredOnce hs,inputs_of_configuredOnce hs']
    by_cases hpath : path = "a.vm"
    · exact .inr (produced_oneTemplate 0 (hpath ▸ by decide))
    · exact .inl (produced_oneTemplate 0 hpath)
  · have hcovers := h _ List.mem_cons_self rfl _ rfl .first "a.vm" 7 (by decide)
    exact absurd hcovers (by decide)

end Blush.Pipeline
