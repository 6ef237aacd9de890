import Blush.Connections.Step

/-! One connection with the handles it issued. A step of the world is a step of at most one
such endpoint, so that what is proved about a single connection holds of each of them. -/
namespace Blush.Connections
open MachineInt Slots Transition
variable {η π μ : Type}

/-- A connection and the handles its `registerHandler` returned, in the order of the calls. -/
structure Endpoint (η π : Type) where
  connection : Connection η π
  handles : List HandlerRegistration
  deriving DecidableEq, Repr

namespace Endpoint

def create : Endpoint η π := ⟨.create,[]⟩

/-- The number of handles not yet cancelled. -/
def live (v : Endpoint η π) : ℕ := v.handles.countP fun r => !r.cancelled

/-- The registrations of the handles not yet cancelled. -/
def liveIds (v : Endpoint η π) : List ℤ :=
  (v.handles.filter fun r => !r.cancelled).map fun r => r.inner.id

theorem length_liveIds (v : Endpoint η π) : v.liveIds.length = v.live := by
  rw [liveIds,List.length_map,live,List.countP_eq_length_filter]

/-- The calls that change an endpoint. -/
inductive Step (v : Endpoint η π) : Act η π μ → Endpoint η π → Prop
  | registerHandler {k h callback accepted} (ha : v.connection.alive = true) :
      Step v (.registerHandler k callback accepted)
        ⟨(v.connection.registerHandler k h callback accepted).1,
          v.handles ++ [(v.connection.registerHandler k h callback accepted).2]⟩
  | cancel {h i r accepted} (ha : v.connection.alive = true) (hr : v.handles[i]? = some r)
      (hx : r.cancelled = false) :
      Step v (.cancel h accepted)
        ⟨v.connection.unregister r.inner.id accepted,v.handles.set i r.spent⟩
  | destroy {k accepted} (ha : v.connection.alive = true) :
      Step v (.destroy k accepted) ⟨v.connection.destroy accepted,v.handles⟩

/-- A destroyed connection is not called. -/
theorem Step.alive {v v' : Endpoint η π} {a : Act η π μ} (h : v.Step a v') :
    v.connection.alive = true := by
  cases h <;> assumption

end Endpoint

namespace World
variable (w : World η π μ)

/-- The connection number `k` with its handles. -/
def endpoint? (k : ℕ) : Option (Endpoint η π) :=
  w.connections[k]?.map fun c => ⟨c,w.handles.filter fun r => r.owner = k⟩

/-- The connection a call changes, if it changes one. -/
def target : Act η π μ → Option ℕ
  | .registerHandler k _ _ => some k
  | .cancel h _ => (w.handles[h]?.filter fun r => !r.cancelled).map HandlerRegistration.owner
  | .destroy k _ => some k
  | _ => none

variable {w} {w' : World η π μ} {a : Act η π μ} {k : ℕ} {v : Endpoint η π}

theorem endpoint?_eq_some :
    w.endpoint? k = some v ↔ w.connections[k]? = some v.connection ∧
      v.handles = w.handles.filter fun r => r.owner = k := by
  rw [endpoint?,Option.map_eq_some_iff]
  constructor
  · rintro ⟨c,hc,rfl⟩
    exact ⟨hc,rfl⟩
  · rintro ⟨hc,hh⟩
    exact ⟨_,hc,by rw [← hh]⟩

/-- An object that is not destroyed is that of its endpoint. -/
theorem live?_of_endpoint? (hv : w.endpoint? k = some v) (ha : v.connection.alive = true) :
    w.live? k = some v.connection :=
  live?_eq_some.mpr ⟨(endpoint?_eq_some.mp hv).1,ha⟩

theorem endpoint?_of_live? {c : Connection η π} (hc : w.live? k = some c) :
    w.endpoint? k = some ⟨c,w.handles.filter fun r => r.owner = k⟩ :=
  endpoint?_eq_some.mpr ⟨(live?_eq_some.mp hc).1,rfl⟩

/-- The handles of a connection that does not exist yet. -/
theorem Linked.filter_owner (hl : w.Linked) (hk : w.connections.length ≤ k) :
    (w.handles.filter fun r => r.owner = k) = [] := by
  rw [List.filter_eq_nil_iff]
  intro r hr ho
  have hlt := hl.owner r hr
  simp only [decide_eq_true_eq] at ho
  omega

/-! ## The endpoint after an update of the world -/

theorem endpoint?_setConnection {c : Connection η π} (hv : w.endpoint? k = some v) :
    (w.setConnection k c).endpoint? k = some ⟨c,v.handles⟩ := by
  obtain ⟨hc,hh⟩ := endpoint?_eq_some.mp hv
  exact endpoint?_eq_some.mpr ⟨getElem?_set_self hc,hh⟩

theorem endpoint?_concat {c : Connection η π} {r : HandlerRegistration}
    (hv : w.endpoint? k = some v) (ho : r.owner = k) :
    ({ w.setConnection k c with handles := w.handles ++ [r] } : World η π μ).endpoint? k =
      some ⟨c,v.handles ++ [r]⟩ := by
  obtain ⟨hc,hh⟩ := endpoint?_eq_some.mp hv
  refine endpoint?_eq_some.mpr ⟨getElem?_set_self hc,?_⟩
  rw [List.filter_append,List.filter_cons_of_pos (by simp [ho]),hh]
  rfl

theorem endpoint?_spent {c : Connection η π} {r : HandlerRegistration} {h : ℕ}
    (hv : w.endpoint? k = some v) (hr : w.handles[h]? = some r) (ho : r.owner = k) :
    ∃ i, v.handles[i]? = some r ∧
      ((w.setHandle h r.spent).setConnection k c).endpoint? k =
        some ⟨c,v.handles.set i r.spent⟩ := by
  obtain ⟨hc,hh⟩ := endpoint?_eq_some.mp hv
  obtain ⟨i,hi,hs⟩ := exists_filter_set (p:=fun x => decide (x.owner = k)) (b:=r.spent) hr
    (decide_eq_true ho) (decide_eq_true ho)
  refine ⟨i,by rw [hh]; exact hi,endpoint?_eq_some.mpr ⟨getElem?_set_self hc,?_⟩⟩
  rw [handles_setConnection,handles_setHandle,hs,hh]

/-- An update of another object and its handles. -/
theorem endpoint?_of_ne {j : ℕ} {c : Connection η π} (hk : k ≠ j)
    (hc : w'.connections = w.connections.set j c)
    (hh : (w'.handles.filter fun r => r.owner = k) = w.handles.filter fun r => r.owner = k) :
    w'.endpoint? k = w.endpoint? k := by
  rw [endpoint?,endpoint?,hh,hc,List.getElem?_set_ne hk.symm]

/-! ## The endpoint after a step -/

/-- A call on a connection that is not destroyed is a step of its endpoint. -/
theorem Step.endpoint_target (h : w.Step a w') (ht : w.target a = some k)
    (hv : w.endpoint? k = some v) (ha : v.connection.alive = true) :
    ∃ v', w'.endpoint? k = some v' ∧ v.Step a v' := by
  have hlive := live?_of_endpoint? hv ha
  cases h with
  | registerHandler hm hc =>
    obtain rfl := Option.some.inj ht
    obtain rfl := Option.some.inj (hlive.symm.trans hc)
    exact ⟨_,endpoint?_concat hv rfl,.registerHandler ha⟩
  | cancelled hm hr hx => simp [target,hr,hx] at ht
  | cancel hm hr hx hc =>
    obtain rfl : _ = k := by simpa [target,hr,hx] using ht
    obtain rfl := Option.some.inj (hlive.symm.trans hc)
    obtain ⟨i,hi,hs⟩ := endpoint?_spent hv hr rfl
    exact ⟨_,hs,.cancel ha hi hx⟩
  | stale hm hr hx hc =>
    obtain rfl : _ = k := by simpa [target,hr,hx] using ht
    simp [hc] at hlive
  | destroy hm hf hc =>
    obtain rfl := Option.some.inj ht
    obtain rfl := Option.some.inj (hlive.symm.trans hc)
    exact ⟨_,endpoint?_setConnection hv,.destroy ha⟩
  | create | callbackHandler | returned | call | predicate | handled => simp [target] at ht

/-- Every endpoint after a step is as it was, is new, or made a step itself. -/
theorem Step.endpoint (h : w.Step a w') (hl : w.Linked) {v' : Endpoint η π}
    (hv : w'.endpoint? k = some v') :
    v' = .create ∨ w.endpoint? k = some v' ∨
      ∃ v, w.endpoint? k = some v ∧ w.target a = some k ∧ v.Step a v' := by
  -- The case of the object that the call is on.
  have hself {c : Connection η π} (hc : w.live? k = some c) (ht : w.target a = some k) :
      ∃ v, w.endpoint? k = some v ∧ w.target a = some k ∧ v.Step a v' := by
    obtain ⟨v₁,hv₁,hs⟩ := h.endpoint_target ht (endpoint?_of_live? hc) (live?_eq_some.mp hc).2
    obtain rfl := Option.some.inj (hv₁.symm.trans hv)
    exact ⟨_,endpoint?_of_live? hc,ht,hs⟩
  cases h with
  | create =>
    obtain ⟨hc,hh⟩ := endpoint?_eq_some.mp hv
    by_cases hk : k < w.connections.length
    · rw [List.getElem?_append_left hk] at hc
      exact .inr (.inl (endpoint?_eq_some.mpr ⟨hc,hh⟩))
    · left
      have hlt := (List.getElem?_eq_some_iff.mp hc).1
      simp only [List.length_append,List.length_singleton] at hlt
      obtain rfl : k = w.connections.length := by omega
      rw [List.getElem?_concat_length] at hc
      rw [hl.filter_owner le_rfl] at hh
      obtain ⟨c,handles⟩ := v'
      obtain rfl := Option.some.inj hc
      obtain rfl : handles = [] := hh
      rfl
  | @registerHandler j c callback accepted hm hc =>
    by_cases hk : k = j
    · subst hk
      exact .inr (.inr (hself hc rfl))
    · refine .inr (.inl (Eq.trans (Eq.symm ?_) hv))
      exact endpoint?_of_ne hk rfl (by simp [Connection.registerHandler,Ne.symm hk])
  | @cancel i r c accepted hm hr hx hc =>
    by_cases hk : k = r.owner
    · subst hk
      exact .inr (.inr (hself hc (by simp [target,hr,hx])))
    · refine .inr (.inl (Eq.trans (Eq.symm ?_) hv))
      exact endpoint?_of_ne hk rfl (filter_set_of_not hr (decide_eq_false (Ne.symm hk))
        (decide_eq_false (Ne.symm hk)))
  | @destroy j c accepted hm hf hc =>
    by_cases hk : k = j
    · subst hk
      exact .inr (.inr (hself hc rfl))
    · refine .inr (.inl (Eq.trans (Eq.symm ?_) hv))
      exact endpoint?_of_ne hk rfl rfl
  | cancelled | stale | callbackHandler | returned | call | predicate | handled =>
    exact .inr (.inl hv)

end World

/-- An invariant of single endpoints holds of each endpoint of every run. -/
theorem run_endpoint {I : Endpoint η π → Prop} {C : World η π μ → Act η π μ → Prop}
    (hcreate : I .create)
    (hstep : ∀ (w : World η π μ) k v a v', I v → C w a → w.endpoint? k = some v →
      w.target a = some k → v.Step a v' → I v')
    {steps : List (World η π μ × Act η π μ)} {w : World η π μ} (h : Run step World.init steps w)
    (hC : ∀ p ∈ steps, C p.1 p.2) {k : ℕ} {v : Endpoint η π} (hv : w.endpoint? k = some v) :
    I v := by
  suffices w.Linked ∧ ∀ k v, w.endpoint? k = some v → I v from this.2 k v hv
  refine h.invariant_of (I:=fun w => w.Linked ∧ ∀ k v, w.endpoint? k = some v → I v)
    ⟨run_linked .refl,by simp [World.endpoint?,World.init]⟩ ?_ hC
  intro w a w' hi hc hs
  have hs := (step_cases hi.1 hs).2
  refine ⟨hs.linked hi.1,fun k v' hv' => ?_⟩
  rcases hs.endpoint hi.1 hv' with rfl | hv | ⟨v,hv,ht,hstep'⟩
  · exact hcreate
  · exact hi.2 k v' hv
  · exact hstep w k v a v' (hi.2 k v hv) hc hv ht hstep'

end Blush.Connections
