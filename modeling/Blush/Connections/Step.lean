import Blush.Lib.Slots
import Blush.Lib.Transition
import Blush.Connections.Model

/-! Everything one step of the connections can do, guards included. A handle that is not
cancelled still refers to the dispatcher of its owner; this reduces `Cancel` to one update of
the owner. -/
namespace Blush.Connections
open MachineInt Slots Transition
variable {η π μ : Type} {w w' : World η π μ} {a : Act η π μ}

/-- The handle after its `Cancel`. -/
def HandlerRegistration.spent (r : HandlerRegistration) : HandlerRegistration :=
  { r with inner := { r.inner with state := none }, cancelled := true }

/-- What `Cancel` on a handle of the registration `id` does to its owner. -/
def Connection.unregister (c : Connection η π) (id : ℤ) (accepted : Bool) : Connection η π :=
  let count := wrap 32 (c.handlerCount-1)
  { c with
    dispatcher := EventDispatcher.erase c.dispatcher id
    handlerCount := count
    ts := if count = 0 then c.ts.unregisterCallback accepted else c.ts }

namespace Connection
variable (c : Connection η π) (k h : ℕ) (callback : Callback η π) (id : ℤ) (accepted : Bool)

@[simp] theorem registerHandler_ts :
    (c.registerHandler k h callback accepted).1.ts =
      if c.handlerCount = 0 then c.ts.registerCallback accepted else c.ts := rfl

@[simp] theorem unregister_ts :
    (c.unregister id accepted).ts =
      if wrap 32 (c.handlerCount-1) = 0 then c.ts.unregisterCallback accepted else c.ts := rfl

@[simp] theorem destroy_alive : (c.destroy accepted).alive = false := rfl

@[simp] theorem destroy_ts :
    (c.destroy accepted).ts =
      if 0 < c.handlerCount then c.ts.unregisterCallback accepted else c.ts := rfl

end Connection

namespace World

/-- The handles of an application belong to existing objects, and those not cancelled still
refer to the dispatcher. -/
structure Linked (w : World η π μ) : Prop where
  inner : ∀ r ∈ w.handles, r.cancelled = false → r.inner.state = some r.owner
  owner : ∀ r ∈ w.handles, r.owner < w.connections.length

/-- The object with the number `k` and the state `c` is not destroyed. -/
theorem live?_eq_some {k : ℕ} {c : Connection η π} :
    w.live? k = some c ↔ w.connections[k]? = some c ∧ c.alive = true :=
  Option.filter_eq_some_iff

theorem live?_setConnection {k : ℕ} {c c' : Connection η π} (hc : w.live? k = some c)
    (ha : c'.alive = true) : (w.setConnection k c').live? k = some c' :=
  live?_eq_some.mpr ⟨getElem?_set_self (live?_eq_some.mp hc).1,ha⟩

theorem deref_of_live {k : ℕ} {c : Connection η π} (hc : w.live? k = some c) :
    w.deref k = .ok c := by
  rw [deref,hc]

theorem deref_of_none {k : ℕ} (hc : w.live? k = none) : w.deref k = .error k := by
  rw [deref,hc]

@[simp] theorem handles_setConnection (k : ℕ) (c : Connection η π) :
    (w.setConnection k c).handles = w.handles := rfl

@[simp] theorem handles_setHandle (h : ℕ) (r : HandlerRegistration) :
    (w.setHandle h r).handles = w.handles.set h r := rfl

/-- What a step does, by the call or the event it executes. -/
inductive Step (w : World η π μ) : Act η π μ → World η π μ → Prop
  | create (hm : w.mayCall = true) :
      Step w .create { w with connections := w.connections ++ [.create] }
  | registerHandler {k c callback accepted} (hm : w.mayCall = true) (hc : w.live? k = some c) :
      Step w (.registerHandler k callback accepted)
        { w.setConnection k (c.registerHandler k w.handles.length callback accepted).1 with
          handles := w.handles ++ [(c.registerHandler k w.handles.length callback accepted).2] }
  | cancelled {h r accepted} (hm : w.mayCall = true) (hr : w.handles[h]? = some r)
      (hx : r.cancelled = true) : Step w (.cancel h accepted) w
  | cancel {h r c accepted} (hm : w.mayCall = true) (hr : w.handles[h]? = some r)
      (hx : r.cancelled = false) (hc : w.live? r.owner = some c) :
      Step w (.cancel h accepted)
        ((w.setHandle h r.spent).setConnection r.owner (c.unregister r.inner.id accepted))
  | stale {h r accepted} (hm : w.mayCall = true) (hr : w.handles[h]? = some r)
      (hx : r.cancelled = false) (hc : w.live? r.owner = none) :
      Step w (.cancel h accepted) { w with fault := some r.owner }
  | destroy {k c accepted} (hm : w.mayCall = true) (hf : ∀ f ∈ w.frames, f.connection ≠ k)
      (hc : w.live? k = some c) :
      Step w (.destroy k accepted) (w.setConnection k (c.destroy accepted))
  | callbackHandler {k c message} (hm : w.mayCall = true) (hc : w.live? k = some c) :
      Step w (.callbackHandler k message)
        { w with frames :=
          ⟨k,message,c.dispatcher.callbacks.map Prod.snd,.dispatch⟩::w.frames }
  | returned {k m frames} (hf : w.frames = ⟨k,m,[],.dispatch⟩::frames) :
      Step w .next { w with frames := frames, returned := w.returned ++ [.noError] }
  | call {k m callback rest frames} (hf : w.frames = ⟨k,m,callback::rest,.dispatch⟩::frames) :
      Step w .next { w with frames := ⟨k,m,rest,
        if callback.predicate.isSome then .predicate callback else .handler callback⟩::frames }
  | predicate {k m snapshot callback frames passes}
      (hf : w.frames = ⟨k,m,snapshot,.predicate callback⟩::frames) :
      Step w (.predicate passes) { w with frames :=
        ⟨k,m,snapshot,if passes then .handler callback else .dispatch⟩::frames }
  | handled {k m snapshot callback frames}
      (hf : w.frames = ⟨k,m,snapshot,.handler callback⟩::frames) :
      Step w .handled { w with frames := ⟨k,m,snapshot,.dispatch⟩::frames }

end World

namespace HandlerRegistration

/-- A cancelled handle does nothing. -/
theorem cancel_cancelled {h : ℕ} {r : HandlerRegistration} {accepted : Bool}
    (hx : r.cancelled = true) : r.cancel w h accepted = .ok w := by
  rw [cancel,if_pos hx]

/-- The first `Cancel` of a handle, while its owner exists. -/
theorem cancel_live {h : ℕ} {r : HandlerRegistration} {c : Connection η π} {accepted : Bool}
    (hx : r.cancelled = false) (hi : r.inner.state = some r.owner)
    (hc : w.live? r.owner = some c) :
    r.cancel w h accepted =
      .ok ((w.setHandle h r.spent).setConnection r.owner (c.unregister r.inner.id accepted)) := by
  let erased : Connection η π :=
    { c with dispatcher := EventDispatcher.erase c.dispatcher r.inner.id }
  have hinner : r.inner.cancel w =
      (w.setConnection r.owner erased,{ r.inner with state := none }) := by
    rw [RegistrationHandle.cancel,hi]
    simp only [hc]
    rfl
  have hlive : ((w.setConnection r.owner erased).setHandle h r.spent).live? r.owner =
      some erased := World.live?_setConnection hc (World.live?_eq_some.mp hc).2
  have hd : ((w.setConnection r.owner erased).setHandle h { r with
      inner := { r.inner with state := none }, cancelled := true }).deref r.owner = .ok erased :=
    World.deref_of_live hlive
  rw [cancel,if_neg (by simp [hx]),hinner]
  simp only [hd]
  show Except.ok _ = Except.ok _
  simp [World.setConnection,World.setHandle,Connection.unregister,spent,erased]

/-- The first `Cancel` of a handle, after its owner was destroyed. -/
theorem cancel_stale {h : ℕ} {r : HandlerRegistration} {accepted : Bool}
    (hx : r.cancelled = false) (hi : r.inner.state = some r.owner)
    (hc : w.live? r.owner = none) : r.cancel w h accepted = .error r.owner := by
  have hinner : r.inner.cancel w = (w,r.inner) := by
    rw [RegistrationHandle.cancel,hi]
    simp only [hc]
  have hd : (w.setHandle h { r with cancelled := true }).deref r.owner = .error r.owner :=
    World.deref_of_none hc
  rw [cancel,if_neg (by simp [hx]),hinner]
  simp only [hd]
  rfl

end HandlerRegistration

/-- The dispatcher goes on only from its own loop. -/
theorem World.next_cases (h : w.next = some w') : w.Step .next w' := by
  unfold World.next at h
  split at h
  · rename_i hf
    split at h
    · obtain rfl := Option.some.inj h
      exact .returned hf
    · obtain rfl := Option.some.inj h
      exact .call hf
  · simp at h

/-- The inversion of a step. -/
theorem step_cases (hl : w.Linked) (h : step w a = some w') : w.fault = none ∧ w.Step a w' := by
  unfold step at h
  by_cases hfault : w.fault.isSome = true
  · rw [if_pos hfault] at h
    simp at h
  rw [if_neg hfault] at h
  refine ⟨by simpa using hfault,?_⟩
  cases a with
  | create =>
    obtain ⟨hm,h⟩ := Option.ite_none_right_eq_some.mp h
    obtain rfl := Option.some.inj h
    exact .create hm
  | registerHandler k callback accepted =>
    obtain ⟨hm,h⟩ := Option.ite_none_right_eq_some.mp h
    obtain ⟨c,hc,rfl⟩ := Option.map_eq_some_iff.mp h
    exact .registerHandler hm hc
  | cancel i accepted =>
    obtain ⟨hm,h⟩ := Option.ite_none_right_eq_some.mp h
    obtain ⟨r,hr,rfl⟩ := Option.map_eq_some_iff.mp h
    by_cases hx : r.cancelled = true
    · rw [HandlerRegistration.cancel_cancelled hx]
      exact .cancelled hm hr hx
    · have hx : r.cancelled = false := by simpa using hx
      have hi := hl.inner r (List.mem_of_getElem? hr) hx
      cases hc : w.live? r.owner with
      | none =>
        rw [HandlerRegistration.cancel_stale hx hi hc]
        exact .stale hm hr hx hc
      | some c =>
        rw [HandlerRegistration.cancel_live hx hi hc]
        exact .cancel hm hr hx hc
  | destroy k accepted =>
    obtain ⟨hm,h⟩ := Option.ite_none_right_eq_some.mp h
    rw [Bool.and_eq_true] at hm
    obtain ⟨c,hc,rfl⟩ := Option.map_eq_some_iff.mp h
    exact .destroy hm.1 (by simpa using hm.2) hc
  | callbackHandler k message =>
    obtain ⟨hm,h⟩ := Option.ite_none_right_eq_some.mp h
    obtain ⟨c,hc,rfl⟩ := Option.map_eq_some_iff.mp h
    exact .callbackHandler hm hc
  | next => exact World.next_cases h
  | predicate passes =>
    simp only at h
    split at h
    · obtain rfl := Option.some.inj h
      exact .predicate ‹_›
    · simp at h
  | handled =>
    simp only at h
    split at h
    · obtain rfl := Option.some.inj h
      exact .handled ‹_›
    · simp at h

namespace World

theorem length_setConnection (k : ℕ) (c : Connection η π) :
    (w.setConnection k c).connections.length = w.connections.length := List.length_set

/-- The handles stay linked. -/
theorem Step.linked (h : w.Step a w') (hl : w.Linked) : w'.Linked := by
  cases h with
  | create =>
    refine ⟨hl.inner,fun r hr => ?_⟩
    have hlt := hl.owner r hr
    rw [List.length_append]
    exact Nat.lt_add_right _ hlt
  | @registerHandler k c _ _ _ hc =>
    have hk : k < w.connections.length := (List.getElem?_eq_some_iff.mp (live?_eq_some.mp hc).1).1
    constructor
    · intro r hr hx
      rcases List.mem_append.mp hr with hr | hr
      · exact hl.inner r hr hx
      · obtain rfl := List.mem_singleton.mp hr
        rfl
    · intro r hr
      rw [show (World.connections _).length = _ from length_setConnection k _]
      rcases List.mem_append.mp hr with hr | hr
      · exact hl.owner r hr
      · obtain rfl := List.mem_singleton.mp hr
        exact hk
  | cancelled => exact hl
  | @cancel h r c _ _ hr hx hc =>
    have hmem := List.mem_of_getElem? hr
    constructor
    · exact forall_set (by simp [HandlerRegistration.spent]) hl.inner
    · intro x hmx
      rw [length_setConnection]
      exact forall_set (P:=fun x => x.owner < w.connections.length) (hl.owner r hmem) hl.owner x hmx
  | stale => exact ⟨hl.inner,hl.owner⟩
  | destroy =>
    refine ⟨hl.inner,fun r hr => ?_⟩
    rw [length_setConnection]
    exact hl.owner r hr
  | callbackHandler | returned | call | predicate | handled => exact ⟨hl.inner,hl.owner⟩

/-- A call of `Callback_Handler` keeps its message. -/
theorem Step.message (h : w.Step a w') {f : Frame η π μ} (hf : f ∈ w'.frames) :
    (∃ k, a = .callbackHandler k f.message) ∨ ∃ f' ∈ w.frames, f'.message = f.message := by
  have htop {f' : Frame η π μ} {frames : List (Frame η π μ)} (hw : w.frames = f'::frames)
      (hx : f.message = f'.message ∨ f ∈ frames) : ∃ f' ∈ w.frames, f'.message = f.message := by
    rcases hx with hx | hx
    · exact ⟨f',by simp [hw],hx.symm⟩
    · exact ⟨f,by simp [hw,hx],rfl⟩
  cases h with
  | create | registerHandler | cancelled | cancel | stale | destroy => exact .inr ⟨f,hf,rfl⟩
  | @callbackHandler k =>
    rcases List.mem_cons.mp hf with rfl | hf
    · exact .inl ⟨k,rfl⟩
    · exact .inr ⟨f,hf,rfl⟩
  | returned hw => exact .inr (htop hw (.inr hf))
  | call hw | predicate hw | handled hw =>
    refine .inr (htop hw ?_)
    rcases List.mem_cons.mp hf with rfl | hf
    · exact .inl rfl
    · exact .inr hf

end World

/-- The handles of every run are linked. -/
theorem run_linked {steps : List (World η π μ × Act η π μ)} (h : Run step World.init steps w) :
    w.Linked :=
  h.invariant ⟨by simp [World.init],by simp [World.init]⟩ fun _ _ _ hl hs =>
    (step_cases hl hs).2.linked hl

end Blush.Connections
