import Blush.Lib.Lease
import Blush.Connections.Endpoint

/-! The lazy open and close of a connection. The counter and the ids are `int`s that wrap; while
they did not, the callbacks in the dispatcher are the registrations not yet cancelled, and the
typed TS is a resource whose users they are. -/
namespace Blush.Connections
open MachineInt Slots Transition Lease
variable {η π μ : Type} {a : Act η π μ}

namespace TsCall

def opens : TsCall → Bool
  | .registerCallback _ => true
  | .unregisterCallback _ => false

def accepted : TsCall → Bool
  | .registerCallback b => b
  | .unregisterCallback b => b

end TsCall

namespace Endpoint
variable {v v' : Endpoint η π} {c : Connection η π} {i : ℕ} {r : HandlerRegistration}

theorem live_le (v : Endpoint η π) : v.live ≤ v.handles.length := List.countP_le_length

theorem live_concat (hx : r.cancelled = false) : live ⟨c,v.handles ++ [r]⟩ = v.live+1 := by
  simp [live,hx]

theorem live_spent (hr : v.handles[i]? = some r) (hx : r.cancelled = false) :
    v.live = live ⟨c,v.handles.set i r.spent⟩+1 := by
  have hs := countP_set (p := fun r : HandlerRegistration => !r.cancelled) (b := r.spent) hr
  simp only [hx,HandlerRegistration.spent,Bool.not_false,Bool.not_true,Bool.toNat_true,
    Bool.toNat_false] at hs
  exact hs.symm

theorem liveIds_concat (hx : r.cancelled = false) :
    liveIds ⟨c,v.handles ++ [r]⟩ = v.liveIds ++ [r.inner.id] := by
  simp [liveIds,hx]

theorem liveIds_spent (hr : v.handles[i]? = some r) (hx : r.cancelled = false)
    (hn : v.liveIds.Nodup) :
    liveIds ⟨c,v.handles.set i r.spent⟩ = v.liveIds.filter (· ≠ r.inner.id) :=
  map_filter_set hr (by simp [hx]) (by simp [HandlerRegistration.spent]) hn

/-! ## The counters -/

/-- The values of the two `int` counters. -/
structure Counted (v : Endpoint η π) : Prop where
  handlerCount : v.connection.handlerCount = wrap 32 v.live
  nextId : v.connection.dispatcher.nextId = wrap 32 v.handles.length

theorem create_counted : (create : Endpoint η π).Counted :=
  ⟨by simp [create,Connection.create,live],
    by simp [create,Connection.create,EventDispatcher.State.empty]⟩

theorem Step.counted (h : v.Step a v') (hv : v.Counted) : v'.Counted := by
  cases h with
  | registerHandler ha =>
    constructor
    · rw [live_concat rfl,Nat.cast_add,Nat.cast_one,← wrap_add_wrap,← hv.handlerCount]
      rfl
    · rw [List.length_append,List.length_singleton,Nat.cast_add,Nat.cast_one,← wrap_add_wrap,
        ← hv.nextId]
      rfl
  | @cancel h i r accepted ha hr hx =>
    constructor
    · show wrap 32 (v.connection.handlerCount-1) = _
      rw [hv.handlerCount,live_spent (c:=v.connection.unregister r.inner.id accepted) hr hx,
        wrap_sub_wrap,Nat.cast_add,Nat.cast_one,add_sub_cancel_right]
    · rw [List.length_set]
      exact hv.nextId
  | destroy ha => exact ⟨hv.handlerCount,hv.nextId⟩

/-- A counter in range shows the number of live handles. -/
theorem Counted.eq_live (hv : v.Counted) (hb : v.handles.length < 2^31) :
    v.connection.handlerCount = v.live := by
  have hle := v.live_le
  rw [hv.handlerCount,wrap_natCast (by omega)]

/-! ## The callbacks -/

/-- The callbacks are those of the live handles, in the order of their registration. -/
structure Keyed (v : Endpoint η π) : Prop where
  keys : v.connection.dispatcher.callbacks.map Prod.fst = v.liveIds
  sorted : v.liveIds.Pairwise (· < ·)
  issued : ∀ id ∈ v.liveIds, id < v.handles.length

theorem create_keyed : (create : Endpoint η π).Keyed := ⟨rfl,.nil,by simp [create,liveIds]⟩

/-- The ids of the live handles are below the next one. -/
theorem Keyed.lt_nextId (hv : v.Keyed) (hid : v.connection.dispatcher.nextId = v.handles.length) :
    ∀ x ∈ v.connection.dispatcher.callbacks, x.1 < v.connection.dispatcher.nextId := by
  intro x hx
  rw [hid]
  apply hv.issued
  rw [← hv.keys]
  exact List.mem_map_of_mem hx

theorem Step.keyed (h : v.Step a v') (hc : v.Counted) (hb : v'.handles.length < 2^31)
    (hv : v.Keyed) : v'.Keyed := by
  cases h with
  | registerHandler ha =>
    rw [List.length_append,List.length_singleton] at hb
    have hid : v.connection.dispatcher.nextId = v.handles.length := by
      rw [hc.nextId,wrap_natCast (by omega)]
    refine ⟨?_,?_,?_⟩
    · rw [liveIds_concat rfl,← hv.keys]
      show (EventDispatcher.emplace _ _ _).map Prod.fst = _
      rw [EventDispatcher.emplace_of_lt (hv.lt_nextId hid),List.map_append]
      rfl
    · rw [liveIds_concat rfl,List.pairwise_append]
      refine ⟨hv.sorted,List.pairwise_singleton _ _,fun x hx y hy => ?_⟩
      obtain rfl := List.mem_singleton.mp hy
      exact lt_of_lt_of_eq (hv.issued x hx) hid.symm
    · rw [liveIds_concat rfl,List.length_append,List.length_singleton]
      intro x hx
      rcases List.mem_append.mp hx with hx | hx
      · exact (hv.issued x hx).trans (by simp)
      · obtain rfl := List.mem_singleton.mp hx
        exact lt_of_eq_of_lt hid (by simp)
  | cancel ha hr hx =>
    have hn : v.liveIds.Nodup := hv.sorted.imp fun hlt => ne_of_lt hlt
    refine ⟨?_,?_,?_⟩
    · rw [liveIds_spent hr hx hn,← hv.keys,List.filter_map]
      rfl
    · rw [liveIds_spent hr hx hn]
      exact hv.sorted.filter _
    · rw [liveIds_spent hr hx hn,List.length_set]
      exact fun x hx => hv.issued x (List.mem_filter.mp hx).1
  | destroy ha => exact ⟨hv.keys,hv.sorted,hv.issued⟩

theorem Keyed.length_callbacks (hv : v.Keyed) :
    v.connection.dispatcher.callbacks.length = v.live := by
  rw [← v.length_liveIds,← hv.keys,List.length_map]

/-! ## The typed TS -/

/-- The typed TS of a connection as a resource that its live handles use. -/
def ledger (v : Endpoint η π) : Ledger :=
  ⟨if v.connection.alive then v.live else 0,v.connection.ts.held,
    v.connection.ts.calls.map TsCall.opens⟩

/-- All calls on the typed TS succeeded so far. -/
def Accepted (v : Endpoint η π) : Prop := ∀ call ∈ v.connection.ts.calls, call.accepted = true

theorem create_balanced : (create : Endpoint η π).ledger.Balanced := Ledger.Balanced.empty

theorem ledger_of_alive (ha : v.connection.alive = true) :
    v.ledger =
      ⟨v.live,v.connection.ts.held,v.connection.ts.calls.map TsCall.opens⟩ := by
  rw [ledger,if_pos ha]

/-- A connection does not forget handles or calls. -/
theorem Step.grows (h : v.Step a v') :
    v.handles.length ≤ v'.handles.length ∧
      v.connection.ts.calls <+: v'.connection.ts.calls := by
  -- Each operation calls the typed TS or leaves it as it is.
  have calls {p : Prop} [Decidable p] {ts : TypedTS} (h : v.connection.ts.calls <+: ts.calls) :
      v.connection.ts.calls <+: (if p then ts else v.connection.ts).calls := by
    split
    · exact h
    · exact List.prefix_refl _
  cases h with
  | registerHandler ha => exact ⟨by simp,calls (List.prefix_append _ _)⟩
  | cancel ha hr hx => exact ⟨by simp,calls (List.prefix_append _ _)⟩
  | destroy ha => exact ⟨le_rfl,calls (List.prefix_append _ _)⟩

/-- While nothing wraps and all calls succeed, the three operations of a connection are those
of the resource. -/
theorem Step.ledger (h : v.Step a v') (hc : v.Counted) (hb : v'.handles.length < 2^31)
    (hs : v'.Accepted) : ∃ op, v'.ledger = v.ledger.apply op := by
  have hlt := lt_of_le_of_lt h.grows.1 hb
  have hcount := hc.eq_live hlt
  have hle := v.live_le
  cases h with
  | @registerHandler k h callback accepted ha =>
    refine ⟨.acquire,?_⟩
    rw [ledger_of_alive (v:=v) ha,ledger_of_alive (by exact ha),live_concat rfl,
      Connection.registerHandler_ts]
    by_cases hz : v.connection.handlerCount = 0
    · have hl : v.live = 0 := by omega
      obtain rfl : accepted = true := hs (.registerCallback accepted) (by
        simp [hz,TypedTS.registerCallback])
      simp [hz,hl,Ledger.apply,TypedTS.registerCallback,TsCall.opens]
    · have hl : v.live ≠ 0 := by omega
      simp [hz,hl,Ledger.apply]
  | @cancel h i r accepted ha hr hx =>
    refine ⟨.release,?_⟩
    have hl := live_spent (c:=v.connection.unregister r.inner.id accepted) hr hx
    generalize hn : live ⟨v.connection.unregister r.inner.id accepted,
      v.handles.set i r.spent⟩ = n at hl
    have hcount' : wrap 32 (v.connection.handlerCount-1) = n := by
      rw [hcount,hl,Nat.cast_add,Nat.cast_one,add_sub_cancel_right,wrap_natCast (by omega)]
    rw [ledger_of_alive (v:=v) ha,ledger_of_alive (by exact ha),hn,hl,
      Connection.unregister_ts,hcount']
    by_cases hz : n = 0
    · obtain rfl : accepted = true := hs (.unregisterCallback accepted) (by
        simp [hcount',hz,TypedTS.unregisterCallback])
      simp [hz,Ledger.apply,TypedTS.unregisterCallback,TsCall.opens]
    · simp [hz,Ledger.apply]
  | @destroy k accepted ha =>
    refine ⟨.shutdown,?_⟩
    rw [ledger_of_alive (v:=v) ha]
    by_cases hz : 0 < v.connection.handlerCount
    · have hl : 0 < v.live := by omega
      obtain rfl : accepted = true := hs (.unregisterCallback accepted) (by
        simp [hz,TypedTS.unregisterCallback])
      simp [Endpoint.ledger,hz,hl,Ledger.apply,TypedTS.unregisterCallback,TsCall.opens]
    · have hl : v.live = 0 := by omega
      simp [Endpoint.ledger,hz,hl,Ledger.apply]

/-- What holds of a connection with its handles after any run. -/
structure Inv (v : Endpoint η π) : Prop where
  counted : v.Counted
  keyed : v.handles.length < 2^31 → v.Keyed
  balanced : v.handles.length < 2^31 → v.Accepted → v.ledger.Balanced

theorem create_inv : (create : Endpoint η π).Inv :=
  ⟨create_counted,fun _ => create_keyed,fun _ _ => create_balanced⟩

theorem Step.inv (h : v.Step a v') (hv : v.Inv) : v'.Inv := by
  obtain ⟨hlen,hcalls⟩ := h.grows
  refine ⟨h.counted hv.counted,fun hb => ?_,fun hb hs => ?_⟩
  · exact h.keyed hv.counted hb (hv.keyed (hlen.trans_lt hb))
  · obtain ⟨op,ho⟩ := h.ledger hv.counted hb hs
    rw [ho]
    exact (hv.balanced (hlen.trans_lt hb) fun call hc => hs call (hcalls.subset hc)).apply op

end Endpoint

/-- The invariant of every endpoint of every run. -/
theorem run_inv {steps : List (World η π μ × Act η π μ)} {w : World η π μ}
    (h : Run step World.init steps w) {k : ℕ} {v : Endpoint η π} (hv : w.endpoint? k = some v) :
    v.Inv :=
  run_endpoint (C:=fun _ _ => True) Endpoint.create_inv
    (fun _ _ _ _ _ hi _ _ _ hs => hs.inv hi) h (fun _ _ => trivial) hv

end Blush.Connections
