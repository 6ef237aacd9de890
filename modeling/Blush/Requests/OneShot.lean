import Blush.Requests.Step

/-! A response handler is called once, as long as the typed TS does not deliver twice: until the
next `send` purges a completed adapter, `Callback_Handler` can be called again and calls its handler,
and after the purge the call uses an adapter that is gone. -/
namespace Blush.Requests
open Face Slots Transition
variable {η ρ μ : Type} {w w' : World η ρ μ} {a : Act η ρ μ}

namespace World

/-- `Callback_Handler` of the request number `n` was called. -/
def called (w : World η ρ μ) (n : ℕ) : Bool := w.requests[n]?.any Request.called

/-- The handler that a step calls, with the number of its request and the response. -/
def invocation? (w : World η ρ μ) : Act η ρ μ → Option (ℕ × η × μ)
  | .deliver n response => (w.requests[n]?.filter fun q => !q.adapter.destroyed).map fun q =>
      (n,q.adapter.handler,response)
  | _ => none

/-- The request whose `Callback_Handler` a step calls or ends. -/
def answers? (w : World η ρ μ) : Act η ρ μ → Option ℕ
  | .deliver n _ => some n
  | .handled =>
    match w.frames with
    | .callback n::_ => some n
    | _ => none
  | _ => none

/-- The typed TS calls the `Callback_Handler` of an adapter again, before it is purged. -/
def redelivers (w : World η ρ μ) (a : Act η ρ μ) : Bool :=
  (w.invocation? a).any fun x => w.called x.1

/-- `Callback_Handler` is called on an adapter that is destroyed, or ends after its adapter was. -/
def strikes (w : World η ρ μ) (a : Act η ρ μ) : Bool :=
  (w.answers? a).any fun n => w.requests[n]?.any (·.adapter.destroyed)

/-- The typed TS calls an adapter again, or one is used that is gone. -/
def Misuses (w : World η ρ μ) (a : Act η ρ μ) : Prop := w.redelivers a = true ∨ w.strikes a = true

end World

/-- The calls of handlers in a run. -/
def invocations (steps : List (World η ρ μ × Act η ρ μ)) : List (ℕ × η × μ) :=
  steps.filterMap fun p => p.1.invocation? p.2

/-- The handler of no request is called twice, no destroyed adapter is used, and the calls of an
adapter leave the maps of all connections and the requests of other handlers alone. -/
structure OneShot (e : Execution step (World.init : World η ρ μ)) : Prop where
  calls : e.final.calls = (invocations e.steps).map Prod.snd
  once : ((invocations e.steps).map Prod.fst).Nodup
  intact : ∀ w ∈ e.visited, w.fault = none
  others : ∀ p ∈ e.steps, ∀ n w', p.1.answers? p.2 = some n → step p.1 p.2 = some w' →
    w'.connections = p.1.connections ∧ ∀ m, m ≠ n → w'.requests[m]? = p.1.requests[m]?

/-! ## One step -/

section
variable {l : List (Request η ρ)} {n m : ℕ} {q q' : Request η ρ}

theorem any_called_destroyAdapters (ns : List ℕ) :
    (destroyAdapters ns l)[m]?.any Request.called = l[m]?.any Request.called := by
  rw [getElem?_destroyAdapters]
  cases l[m]? with
  | none => rfl
  | some q => by_cases hm : m ∈ ns <;> simp [hm]

theorem any_called_set (hq : l[n]? = some q) :
    (l.set n q')[m]?.any Request.called =
      if m = n then q'.called else l[m]?.any Request.called := by
  by_cases hm : m = n
  · subst m
    rw [getElem?_set_self hq,if_pos rfl]
    rfl
  · rw [List.getElem?_set_ne (Ne.symm hm),if_neg hm]

theorem any_called_concat (hq : q.called = false) :
    (l ++ [q])[m]?.any Request.called = l[m]?.any Request.called := by
  rcases Nat.lt_trichotomy m l.length with hlt | rfl | hlt
  · rw [List.getElem?_append_left hlt]
  · rw [List.getElem?_concat_length,List.getElem?_eq_none le_rfl]
    simpa using hq
  · rw [List.getElem?_eq_none (by simp; omega),List.getElem?_eq_none hlt.le]

end

namespace World

theorem invocation?_deliver {n : ℕ} {q : Request η ρ} {response : μ}
    (hq : w.requests[n]? = some q) : w.invocation? (.deliver n response) =
      if q.adapter.destroyed then none else some (n,q.adapter.handler,response) := by
  rw [invocation?,hq]
  cases hd : q.adapter.destroyed <;> simp [Option.filter,hd]

/-- A request is called by the step that calls its handler. -/
theorem Step.called_eq (h : w.Step a w') (n : ℕ) :
    w'.called n = (w.called n || (w.invocation? a).any fun x => x.1 == n) := by
  have hquiet (hn : w.invocation? a = none) (hc : w'.called n = w.called n) :
      w'.called n = (w.called n || (w.invocation? a).any fun x => x.1 == n) := by simp [hn,hc]
  cases h with
  | create | answer | move => exact hquiet rfl rfl
  | moveAssign | destroy => exact hquiet rfl (any_called_destroyAdapters _)
  | @send k c =>
    exact hquiet rfl ((any_called_concat rfl).trans (any_called_destroyAdapters _))
  | @returns k m c q t rc frames _ _ hq =>
    refine hquiet rfl ((any_called_destroyAdapters _).trans ?_)
    rw [any_called_set hq,called]
    by_cases hn : n = m
    · simp [hn,hq]
    · rw [if_neg hn]
  | @deliver m q response hq =>
    rw [callbackHandler,invocation?_deliver hq]
    cases hd : q.adapter.destroyed with
    | true => simp [called]
    | false =>
      show (w.requests.set m { q with called := true })[n]?.any _ = _
      rw [any_called_set hq]
      by_cases hn : n = m
      · simp [hn]
      · simp [called,hn,Ne.symm hn]
  | @handled m q frames _ hq =>
    refine hquiet rfl ?_
    rw [completed]
    cases hd : q.adapter.destroyed with
    | true => rfl
    | false =>
      show (w.requests.set m _)[n]?.any _ = _
      rw [any_called_set hq,called]
      by_cases hn : n = m
      · simp [hn,hq]
      · rw [if_neg hn]

theorem Step.calls_eq (h : w.Step a w') :
    w'.calls = w.calls ++ ((w.invocation? a).map Prod.snd).toList := by
  cases h with
  | create | answer | move | moveAssign | destroy | send | returns =>
    exact (List.append_nil w.calls).symm
  | @deliver n q response hq =>
    rw [invocation?_deliver hq,callbackHandler]
    cases q.adapter.destroyed <;> simp
  | @handled n q =>
    rw [completed]
    cases q.adapter.destroyed <;> simp [invocation?]

/-- The only steps that use a destroyed adapter. -/
theorem Step.fault_iff (h : w.Step a w') (hfault : w.fault = none) :
    w'.fault = none ↔ ¬w.strikes a = true := by
  cases h with
  | create | answer | move | moveAssign | destroy | send | returns =>
    exact iff_of_true hfault (by simp [strikes,answers?])
  | @deliver n q _ hq =>
    rw [callbackHandler]
    cases hd : q.adapter.destroyed <;> simp [strikes,answers?,hq,hd,hfault]
  | @handled n q _ hf hq =>
    rw [completed]
    cases hd : q.adapter.destroyed <;> simp [strikes,answers?,hf,hq,hd,hfault]

/-- The calls of an adapter. -/
theorem Step.others {n m : ℕ} (h : w.Step a w') (ha : w.answers? a = some n) (hm : m ≠ n) :
    w'.connections = w.connections ∧ w'.requests[m]? = w.requests[m]? := by
  cases h with
  | create | answer | move | moveAssign | destroy | send | returns => simp [answers?] at ha
  | @deliver k q =>
    obtain rfl : k = n := Option.some.inj ha
    rw [callbackHandler]
    cases q.adapter.destroyed with
    | true => exact ⟨rfl,rfl⟩
    | false => exact ⟨rfl,List.getElem?_set_ne (Ne.symm hm)⟩
  | @handled k q frames hf =>
    obtain rfl : k = n := by simpa [answers?,hf] using ha
    rw [completed]
    cases q.adapter.destroyed with
    | true => exact ⟨rfl,rfl⟩
    | false => exact ⟨rfl,List.getElem?_set_ne (Ne.symm hm)⟩

end World

/-! ## Runs -/

section
variable {steps : List (World η ρ μ × Act η ρ μ)}

theorem invocations_append (w : World η ρ μ) (a : Act η ρ μ) :
    invocations (steps ++ [(w,a)]) = invocations steps ++ (w.invocation? a).toList := by
  rw [invocations,invocations,List.filterMap_append]
  cases h : w.invocation? a <;> simp [h]

theorem run_calls (h : Run step (World.init : World η ρ μ) steps w) :
    w.calls = (invocations steps).map Prod.snd := by
  induction h with
  | refl => rfl
  | @next steps w a w' before hs ih =>
    rw [(step_cases hs).2.calls_eq,ih,invocations_append,List.map_append]
    cases w.invocation? a <;> rfl

/-- The requests that were called are those whose handler was called. -/
theorem run_called (h : Run step (World.init : World η ρ μ) steps w) (n : ℕ) :
    w.called n = true ↔ n ∈ (invocations steps).map Prod.fst := by
  induction h with
  | refl => simp [World.called,World.init,invocations]
  | @next steps w a w' before hs ih =>
    rw [(step_cases hs).2.called_eq,Bool.or_eq_true,ih,invocations_append,List.map_append,
      List.mem_append]
    refine or_congr_right ?_
    cases w.invocation? a with
    | none => simp
    | some x =>
      rw [Option.any_some,beq_iff_eq,Option.toList_some,List.map_singleton,List.mem_singleton]
      exact eq_comm

/-- No handler is called twice exactly when no adapter is called again. -/
theorem run_nodup_iff (h : Run step (World.init : World η ρ μ) steps w) :
    ((invocations steps).map Prod.fst).Nodup ↔ ∀ p ∈ steps, ¬p.1.redelivers p.2 = true := by
  induction h with
  | refl => simp [invocations]
  | @next steps w a w' before hs ih =>
    rw [invocations_append,List.map_append,List.forall_mem_append,← ih]
    cases hx : w.invocation? a with
    | none => simp [World.redelivers,hx]
    | some x =>
      have hcalled := run_called before x.1
      rw [Option.toList_some,List.map_singleton,List.nodup_append,List.forall_mem_singleton]
      simp only [World.redelivers,hx,Option.any_some,hcalled]
      constructor
      · rintro ⟨hnodup,-,hdisjoint⟩
        exact ⟨hnodup,fun hmem => hdisjoint x.1 hmem x.1 (by simp) rfl⟩
      · rintro ⟨hnodup,hnot⟩
        refine ⟨hnodup,by simp,fun n hn m hm he => hnot ?_⟩
        obtain rfl : m = x.1 := by simpa using hm
        exact he ▸ hn

theorem run_fault (h : Run step (World.init : World η ρ μ) steps w)
    (hn : ∀ p ∈ steps, ¬p.1.Misuses p.2) : w.fault = none :=
  h.invariant_of (I:=fun w => w.fault = none) (C:=fun w a => ¬w.Misuses a) rfl
    (fun _ _ _ hi hc hs => ((step_cases hs).2.fault_iff hi).mpr fun h => hc (.inr h)) hn

/-- A step that uses a destroyed adapter is seen in the state it leads to. -/
theorem not_strikes (e : Execution step (World.init : World η ρ μ))
    (h : ∀ w ∈ e.visited, w.fault = none) {p : World η ρ μ × Act η ρ μ} (hp : p ∈ e.steps) :
    ¬p.1.strikes p.2 = true := by
  obtain ⟨w',hs⟩ := e.run.exists_target hp
  obtain ⟨hbefore,hstep⟩ := step_cases hs
  exact (hstep.fault_iff hbefore).mp (h w' (e.target_mem_visited hp hs))

end

/-- Handlers are one-shot in a run if and only if no adapter is called again, before or after it is
purged, and none is destroyed inside its own `Callback_Handler`. -/
theorem oneShot_iff (e : Execution step (World.init : World η ρ μ)) :
    OneShot e ↔ ∀ p ∈ e.steps, ¬p.1.Misuses p.2 := by
  constructor
  · rintro h p hp (hr | hs)
    · exact (run_nodup_iff e.run).mp h.once p hp hr
    · exact not_strikes e h.intact hp hs
  · intro h
    refine ⟨run_calls e.run,(run_nodup_iff e.run).mpr fun p hp hr => h p hp (.inl hr),
      e.forall_visited fun steps w hsteps hr => run_fault hr fun p hp => h p (hsteps.subset hp),
      fun p hp n w' ha hs => ?_⟩
    have hstep := (step_cases hs).2
    exact ⟨(hstep.others ha (Nat.succ_ne_self n)).1,fun m hm => (hstep.others ha hm).2⟩

/-- A response is delivered twice before the next `send`. -/
def duplicateResponse : Execution step (World.init : World Unit Unit ℕ) :=
  .ofLabels [.create ⟨0,4⟩,.send 0 () (),.answer 7 .inProgress,.returns,.deliver 0 1,.handled,
    .deliver 0 1,.handled] (by decide)

theorem duplicateResponse_not_oneShot : ¬OneShot duplicateResponse :=
  fun h => absurd h.once (by decide)

/-- The same response arrives after the next `send` has purged the adapter. -/
def lateResponse : Execution step (World.init : World Unit Unit ℕ) :=
  .ofLabels [.create ⟨0,4⟩,.send 0 () (),.answer 7 .inProgress,.returns,.deliver 0 1,.handled,
    .send 0 () (),.answer 8 .inProgress,.returns,.deliver 0 1] (by decide)

/-- It uses the adapter that is gone. -/
example : lateResponse.final.fault = some 0 := by decide

end Blush.Requests
