import Blush.Connections.LazyOpen

/-! The calls a connection makes on its typed TS over a whole run, and the run in which its
counters leave the range of an `int`. -/
namespace Blush.Connections
open MachineInt Slots Transition Lease
variable {η π μ : Type}

/-- While the calls on the typed TS succeed and fewer than `2^31` handlers were registered, the
counter, the live handles and the callbacks agree, the TS holds the callback exactly when there
is a handler, and it is registered and unregistered in turn. -/
theorem lazy_open_close (e : Execution step (World.init : World η π μ)) {w : World η π μ}
    (hw : w ∈ e.visited) {k : ℕ} {v : Endpoint η π} (hv : w.endpoint? k = some v)
    (hs : v.Accepted) (hb : v.handles.length < 2^31) :
    (v.connection.alive = true →
      v.connection.handlerCount = v.live ∧
      v.connection.dispatcher.callbacks.length = v.live ∧
      (v.connection.ts.held = true ↔ 0 < v.live)) ∧
    Alternates (v.connection.ts.calls.map TsCall.opens) ∧
    (v.connection.alive = false →
      v.connection.ts.calls.countP TsCall.opens =
        v.connection.ts.calls.countP fun call => !call.opens) := by
  have hi : v.Inv := e.forall_visited (I:=fun w => ∀ v, w.endpoint? k = some v → v.Inv)
    (fun _ _ _ hr _ hv => run_inv hr hv) w hw v hv
  have hbal := hi.balanced hb hs
  refine ⟨fun ha => ⟨hi.counted.eq_live hb,(hi.keyed hb).length_callbacks,?_⟩,hbal.alternates,
    fun ha => ?_⟩
  · have ho := hbal.isOpen
    rwa [Endpoint.ledger_of_alive ha] at ho
  · have hlen := hbal.length_calls
    have husers : v.ledger.users = 0 := by simp [Endpoint.ledger,ha]
    rw [if_neg (by omega)] at hlen
    have hcount := hbal.alternates.count
    rw [hlen,Nat.add_zero] at hcount
    rw [Endpoint.ledger,List.count,List.count,List.countP_map,List.countP_map] at hcount
    refine Eq.trans ?_ (hcount.trans ?_)
    · exact List.countP_congr fun call _ => by simp
    · exact List.countP_congr fun call _ => by simp

/-- A handler registers another one during a delivery and cancels itself; the connection is
closed, opened again and destroyed. -/
def reopened : Execution step (World.init : World Unit Unit Unit) :=
  .ofLabels [.create,.registerHandler 0 ⟨(),none⟩ true,.callbackHandler 0 (),.next,
    .registerHandler 0 ⟨(),none⟩ true,.cancel 0 true,.handled,.next,.cancel 1 true,
    .cancel 0 true,.registerHandler 0 ⟨(),some ()⟩ true,.destroy 0 true] (by decide)

/-- The connection of that run. -/
def reopenedEndpoint : Endpoint Unit Unit where
  connection := {
    alive := false
    dispatcher := ⟨[(2,⟨(),some ()⟩)],3⟩
    handlerCount := 1
    ts := ⟨false,[.registerCallback true,.unregisterCallback true,.registerCallback true,
      .unregisterCallback true]⟩
    lastReturn := some (some 2) }
  handles := [⟨⟨none,0⟩,0,true⟩,⟨⟨none,1⟩,0,true⟩,⟨⟨some 0,2⟩,0,false⟩]

theorem reopened_alternates :
    Alternates (reopenedEndpoint.connection.ts.calls.map TsCall.opens) :=
  (lazy_open_close reopened reopened.final_mem_visited (k:=0) (v:=reopenedEndpoint)
    (by decide) (by unfold Endpoint.Accepted; decide) (by decide)).2.1

/-! ## The range of the counter -/

theorem step_registerHandler {w : World η π μ} {k : ℕ} {c : Connection η π}
    (callback : Callback η π) (accepted : Bool) (hf : w.fault = none) (hm : w.mayCall = true)
    (hc : w.live? k = some c) :
    step w (.registerHandler k callback accepted) = some
      { w.setConnection k (c.registerHandler k w.handles.length callback accepted).1 with
        handles := w.handles ++ [(c.registerHandler k w.handles.length callback accepted).2] } := by
  simp [step,hf,hm,hc]

/-- Any number of handlers can be registered one after the other. -/
theorem exists_registered (n : ℕ) :
    ∃ (e : Execution step (World.init : World Unit Unit Unit)) (v : Endpoint Unit Unit),
      e.steps.map Prod.snd =
        .create :: List.replicate n (.registerHandler 0 ⟨(),none⟩ true) ∧
      e.final.fault = none ∧ e.final.frames = [] ∧ e.final.endpoint? 0 = some v ∧
      v.connection.alive = true ∧ v.Accepted ∧ v.live = n := by
  induction n with
  | zero =>
    refine ⟨.ofLabels [.create] (by decide),.create,rfl,rfl,rfl,rfl,rfl,?_,rfl⟩
    exact fun call hc => by simp [Endpoint.create,Connection.create] at hc
  | succ n ih =>
    obtain ⟨e,v,hsteps,hfault,hframes,hv,ha,hs,hl⟩ := ih
    have hm : e.final.mayCall = true := by rw [World.mayCall,hframes]
    have hstep := step_registerHandler ⟨(),none⟩ true hfault hm
      (World.live?_of_endpoint? hv ha)
    refine ⟨⟨_,_,e.run.next hstep⟩,_,?_,hfault,hframes,World.endpoint?_concat hv rfl,ha,?_,?_⟩
    · rw [List.map_append,hsteps,List.replicate_succ']
      rfl
    · intro call hc
      rw [Connection.registerHandler_ts] at hc
      split at hc
      · rcases List.mem_append.mp hc with hc | hc
        · exact hs call hc
        · obtain rfl := List.mem_singleton.mp hc
          rfl
      · exact hs call hc
    · rw [Endpoint.live_concat rfl,hl]

/-- After `2^31` registrations the counter of live handles is negative. -/
theorem manyHandlers_not_counted :
    ∃ (e : Execution step (World.init : World Unit Unit Unit)) (v : Endpoint Unit Unit),
      e.steps.map Prod.snd =
        .create :: List.replicate (2^31) (.registerHandler 0 ⟨(),none⟩ true) ∧
      e.final.endpoint? 0 = some v ∧ v.connection.alive = true ∧ v.Accepted ∧
      v.live = 2^31 ∧ v.connection.handlerCount = -2^31 := by
  obtain ⟨e,v,hsteps,-,-,hv,ha,hs,hl⟩ := exists_registered (2^31)
  refine ⟨e,v,hsteps,hv,ha,hs,hl,?_⟩
  rw [(run_inv e.run hv).counted.handlerCount,hl,wrap_half]
  rfl

end Blush.Connections
