import Blush.Connections.LazyOpen

/-! Calls on the typed TS that are refused. A connection does not look at the answers: its
counter alone decides about the next call. -/
namespace Blush.Connections
open MachineInt Transition
variable {η π μ : Type} {a : Act η π μ}

namespace Endpoint
variable {v v' : Endpoint η π}

/-- With a handler registered, the TS holds the callback, or the last `registerHandler` returned
no handle. -/
def Subscribed (v : Endpoint η π) : Prop :=
  v.connection.alive = true → 0 < v.live →
    v.connection.ts.held = true ∨ v.connection.lastReturn = some none

/-- The call makes the TS and the counter disagree: `Register_Callback` is refused when the
callback is not held; or, once the counter has wrapped, `Unregister_Callback` is accepted while
other handlers are left. -/
inductive Slip (v : Endpoint η π) : Act η π μ → Prop
  | refused {k callback} (hz : v.connection.handlerCount = 0)
      (ht : v.connection.ts.held = false) : Slip v (.registerHandler k callback false)
  | wrapped {h} (h1 : v.connection.handlerCount = 1) (hl : 1 < v.live) : Slip v (.cancel h true)

/-- The counter reaches zero by a `Cancel` exactly from one. -/
theorem Counted.cancel_eq_zero_iff (hv : v.Counted) :
    wrap 32 (v.connection.handlerCount-1) = 0 ↔ v.connection.handlerCount = 1 := by
  constructor
  · intro hz
    rw [hv.handlerCount,wrap_sub_wrap] at hz
    calc v.connection.handlerCount
        = wrap 32 ((v.live-1 : ℤ)+1) := by rw [hv.handlerCount,sub_add_cancel]
      _ = wrap 32 (wrap 32 (v.live-1)+1) := (wrap_add_wrap _ _ _).symm
      _ = 1 := by rw [hz]; decide
  · intro h1
    rw [h1,sub_self,wrap_zero]

theorem Counted.live_pos (hv : v.Counted) (hz : v.connection.handlerCount ≠ 0) : 0 < v.live := by
  refine Nat.pos_of_ne_zero fun hl => hz ?_
  rw [hv.handlerCount,hl,Nat.cast_zero,wrap_zero]

/-- What a run without a slip keeps: a connection with a handler holds its callback. Every
`registerHandler` returns a handle in any run. -/
structure Holds (v : Endpoint η π) : Prop where
  held : v.connection.alive = true → 0 < v.live → v.connection.ts.held = true
  returned : v.connection.lastReturn ≠ some none

theorem Holds.subscribed (hv : v.Holds) : v.Subscribed := fun ha hl => .inl (hv.held ha hl)

theorem create_holds : (create : Endpoint η π).Holds :=
  ⟨fun _ hl => by simp [create,live] at hl,by simp [create,Connection.create]⟩

theorem Step.returned (h : v.Step a v') (hv : v.connection.lastReturn ≠ some none) :
    v'.connection.lastReturn ≠ some none := by
  cases h with
  | registerHandler ha => simp [Connection.registerHandler]
  | cancel ha hr hx => exact hv
  | destroy ha => exact hv

theorem Step.holds (h : v.Step a v') (hc : v.Counted) (hn : ¬v.Slip a) (hv : v.Holds) :
    v'.Holds := by
  refine ⟨fun ha' hl' => ?_,h.returned hv.returned⟩
  cases h with
  | @registerHandler k h callback accepted ha =>
    rw [Connection.registerHandler_ts]
    by_cases hz : v.connection.handlerCount = 0
    · rw [if_pos hz,TypedTS.registerCallback]
      cases ht : v.connection.ts.held with
      | true => rfl
      | false =>
        cases accepted with
        | true => rfl
        | false => exact absurd (.refused hz ht) hn
    · rw [if_neg hz]
      exact hv.held ha (hc.live_pos hz)
  | @cancel h i r accepted ha hr hx =>
    have hl := live_spent (c:=v.connection.unregister r.inner.id accepted) hr hx
    have ht : v.connection.ts.held = true := hv.held ha (by omega)
    rw [Connection.unregister_ts]
    by_cases hz : wrap 32 (v.connection.handlerCount-1) = 0
    · rw [if_pos hz,TypedTS.unregisterCallback]
      cases accepted with
      | true => exact absurd (.wrapped (hc.cancel_eq_zero_iff.mp hz) (by omega)) hn
      | false => simpa using ht
    · rw [if_neg hz]
      exact ht
  | destroy ha => simp at ha'

/-- A slip leaves a handler registered and the callback not held. -/
theorem Step.not_subscribed (h : v.Step a v') (hc : v.Counted) (hs : v.Slip a)
    (hv : v.connection.lastReturn ≠ some none) : ¬v'.Subscribed := by
  intro hsub
  cases hs with
  | refused hz ht =>
    cases h with
    | registerHandler ha =>
      rcases hsub ha (by rw [live_concat rfl]; omega) with hheld | hret
      · rw [Connection.registerHandler_ts,if_pos hz,TypedTS.registerCallback] at hheld
        simp [ht] at hheld
      · simp [Connection.registerHandler] at hret
  | wrapped h1 hl1 =>
    cases h with
    | @cancel h i r accepted ha hr hx =>
      have hl := live_spent (c:=v.connection.unregister r.inner.id true) hr hx
      rcases hsub ha (by omega) with hheld | hret
      · rw [Connection.unregister_ts,if_pos (hc.cancel_eq_zero_iff.mpr h1),
          TypedTS.unregisterCallback] at hheld
        simp at hheld
      · exact hv hret

end Endpoint

namespace World

/-- The call is a slip of the connection it is on. -/
def Slip (w : World η π μ) (a : Act η π μ) : Prop :=
  ∃ k v, w.target a = some k ∧ w.endpoint? k = some v ∧ v.connection.alive = true ∧ v.Slip a

/-- If the call is a `registerHandler` while the callback is not held, it calls
`Register_Callback`. -/
def Retries (w : World η π μ) (a : Act η π μ) : Prop :=
  ∀ k callback accepted v, a = .registerHandler k callback accepted → w.endpoint? k = some v →
    v.connection.ts.held = false →
      ∃ w' v', step w a = some w' ∧ w'.endpoint? k = some v' ∧
        v'.connection.ts.calls = v.connection.ts.calls ++ [.registerCallback accepted]

end World

/-- In every state of the run every connection with a handler holds its callback or reported the
failure, and a connection without its callback asks for it again. -/
def RefusalReported (e : Execution step (World.init : World η π μ)) : Prop :=
  (∀ w ∈ e.visited, ∀ k v, w.endpoint? k = some v → v.Subscribed) ∧
    ∀ p ∈ e.steps, p.1.Retries p.2

variable {w : World η π μ} {steps : List (World η π μ × Act η π μ)}

theorem run_returned (h : Run step World.init steps w) {k : ℕ} {v : Endpoint η π}
    (hv : w.endpoint? k = some v) : v.connection.lastReturn ≠ some none :=
  run_endpoint (I:=fun v => v.connection.lastReturn ≠ some none) (C:=fun _ _ => True)
    Endpoint.create_holds.returned (fun _ _ _ _ _ hi _ _ _ hs => hs.returned hi) h
    (fun _ _ => trivial) hv

/-- A run without a slip keeps the callback of every connection with a handler. -/
theorem run_holds (h : Run step World.init steps w) (hn : ∀ p ∈ steps, ¬p.1.Slip p.2) {k : ℕ}
    {v : Endpoint η π} (hv : w.endpoint? k = some v) : v.Holds := by
  have hi := run_endpoint (I:=fun v => v.Counted ∧ v.Holds) (C:=fun w a => ¬World.Slip w a)
    ⟨Endpoint.create_counted,Endpoint.create_holds⟩ (fun w k v a v' hi hc hv ht hs => by
      have hslip : ¬v.Slip a := fun hs' => hc ⟨k,v,ht,hv,hs.alive,hs'⟩
      exact ⟨hs.counted hi.1,hs.holds hi.1 hslip hi.2⟩) h hn hv
  exact hi.2

/-- A `registerHandler` on a connection without handlers calls `Register_Callback`. -/
theorem Endpoint.Step.registers {v v' : Endpoint η π} {k : ℕ} {callback : Callback η π}
    {accepted : Bool} (h : v.Step (.registerHandler k callback accepted : Act η π μ) v')
    (hz : v.connection.handlerCount = 0) :
    v'.connection.ts.calls = v.connection.ts.calls ++ [.registerCallback accepted] := by
  cases h with
  | registerHandler ha => rw [Connection.registerHandler_ts,if_pos hz,TypedTS.registerCallback]

/-- Where every connection with a handler holds its callback, the others ask for it. -/
theorem World.retries_of_holds {w' : World η π μ} {a : Act η π μ} (hl : w.Linked)
    (hc : ∀ k v, w.endpoint? k = some v → v.Counted)
    (hh : ∀ k v, w.endpoint? k = some v → v.Holds) (hs : step w a = some w') : w.Retries a := by
  rintro k callback accepted v rfl hv hheld
  have h := (step_cases hl hs).2
  have ha : v.connection.alive = true := by
    cases h with
    | registerHandler hm hlive =>
      obtain rfl := Option.some.inj
        ((endpoint?_eq_some.mp hv).1.symm.trans (live?_eq_some.mp hlive).1)
      exact (live?_eq_some.mp hlive).2
  obtain ⟨v',hv',hstep⟩ := h.endpoint_target rfl hv ha
  have hlive : v.live = 0 := by
    by_contra hne
    have ht := (hh k v hv).held ha (Nat.pos_of_ne_zero hne)
    simp [hheld] at ht
  refine ⟨w',v',hs,hv',hstep.registers ?_⟩
  rw [(hc k v hv).handlerCount,hlive,Nat.cast_zero,wrap_zero]

/-- A refusal is reported in a run if and only if the run has no slip. -/
theorem refusalReported_iff (e : Execution step (World.init : World η π μ)) :
    RefusalReported e ↔ ∀ p ∈ e.steps, ¬p.1.Slip p.2 := by
  have hlinked : ∀ w ∈ e.visited, w.Linked := e.forall_visited fun _ _ _ hr => run_linked hr
  have hcounted : ∀ w ∈ e.visited, ∀ k v, w.endpoint? k = some v → v.Counted :=
    e.forall_visited fun _ _ _ hr _ _ hv => (run_inv hr hv).counted
  have hreturned : ∀ w ∈ e.visited, ∀ k v, w.endpoint? k = some v →
      v.connection.lastReturn ≠ some none :=
    e.forall_visited fun _ _ _ hr _ _ hv => run_returned hr hv
  constructor
  · rintro ⟨hsub,-⟩ p hp ⟨k,v,ht,hv,ha,hslip⟩
    have hmem := e.source_mem_visited hp
    obtain ⟨w',hs⟩ := e.run.exists_target hp
    obtain ⟨v',hv',hstep⟩ :=
      (step_cases (hlinked _ hmem) hs).2.endpoint_target ht hv ha
    exact hstep.not_subscribed (hcounted _ hmem k v hv) hslip (hreturned _ hmem k v hv)
      (hsub w' (e.target_mem_visited hp hs) k v' hv')
  · intro hn
    have hholds : ∀ w ∈ e.visited, ∀ k v, w.endpoint? k = some v → v.Holds :=
      e.forall_visited fun _ _ hp hr _ _ hv => run_holds hr (fun p h => hn p (hp.subset h)) hv
    refine ⟨fun w hw k v hv => (hholds w hw k v hv).subscribed,fun p hp => ?_⟩
    have hmem := e.source_mem_visited hp
    obtain ⟨w',hs⟩ := e.run.exists_target hp
    exact World.retries_of_holds (hlinked _ hmem) (hcounted _ hmem) (hholds _ hmem) hs

/-- `Register_Callback` is refused; the caller gets a handle, and the next `registerHandler`
does not call the TS. -/
def refusedHandler : Execution step (World.init : World Unit Unit Unit) :=
  .ofLabels [.create,.registerHandler 0 ⟨(),none⟩ false,.registerHandler 0 ⟨(),none⟩ true]
    (by decide)

theorem refusedHandler_not_reported : ¬RefusalReported refusedHandler ∧
    refusedHandler.final.connections.map (fun c => (c.ts,c.lastReturn)) =
      [(⟨false,[.registerCallback false]⟩,some (some 1))] := by
  refine ⟨fun h => ?_,by decide⟩
  obtain ⟨v,hv⟩ : ∃ v, refusedHandler.final.endpoint? 0 = some v :=
    Option.isSome_iff_exists.mp (by decide)
  have hsub := h.1 _ refusedHandler.final_mem_visited 0 v hv
  revert hsub
  obtain rfl := Option.some.inj hv
  unfold Endpoint.Subscribed
  decide

end Blush.Connections
