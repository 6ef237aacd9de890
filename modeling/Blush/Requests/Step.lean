import Blush.Lib.Slots
import Blush.Lib.Transition
import Blush.Requests.Model

/-! Everything one step of the requesters can do, guards included. -/
namespace Blush.Requests
open Face Slots Transition
variable {η ρ μ : Type} {w w' : World η ρ μ} {a : Act η ρ μ}

namespace Request
variable (q : Request η ρ)

@[simp] theorem destroyAdapter_result : q.destroyAdapter.result = q.result := rfl
@[simp] theorem destroyAdapter_channel : q.destroyAdapter.channel = q.channel := rfl
@[simp] theorem destroyAdapter_called : q.destroyAdapter.called = q.called := rfl
@[simp] theorem destroyAdapter_callbackReturn :
    q.destroyAdapter.callbackReturn = q.callbackReturn := rfl
@[simp] theorem destroyAdapter_transactionId? :
    q.destroyAdapter.transactionId? = q.transactionId? := rfl
@[simp] theorem destroyAdapter_complete :
    q.destroyAdapter.adapter.complete = q.adapter.complete := rfl
@[simp] theorem destroyAdapter_handler :
    q.destroyAdapter.adapter.handler = q.adapter.handler := rfl

theorem transactionId?_of_none (h : q.result = none) : q.transactionId? = none := by
  rw [transactionId?,h]
  rfl

end Request

theorem getElem?_destroyAdapters (ns : List ℕ) (l : List (Request η ρ)) (n : ℕ) :
    (destroyAdapters ns l)[n]? = l[n]?.map fun q => if n ∈ ns then q.destroyAdapter else q := by
  rw [destroyAdapters,List.getElem?_mapIdx]

/-- A request of the table after a destruction is one of the table before it. -/
theorem destroyAdapters_cases {ns : List ℕ} {l : List (Request η ρ)} {n : ℕ} {q : Request η ρ}
    (h : (destroyAdapters ns l)[n]? = some q) :
    (n ∈ ns ∧ ∃ q', l[n]? = some q' ∧ q = q'.destroyAdapter) ∨ (n ∉ ns ∧ l[n]? = some q) := by
  rw [getElem?_destroyAdapters] at h
  obtain ⟨q',hq',rfl⟩ := Option.map_eq_some_iff.mp h
  by_cases hn : n ∈ ns
  · rw [if_pos hn]
    exact .inl ⟨hn,q',hq',rfl⟩
  · rw [if_neg hn]
    exact .inr ⟨hn,hq'⟩

theorem exists_destroyAdapters (ns : List ℕ) {l : List (Request η ρ)} {n : ℕ} {q : Request η ρ}
    (h : l[n]? = some q) :
    ∃ q', (destroyAdapters ns l)[n]? = some q' ∧ (q' = q ∨ q' = q.destroyAdapter ∧ n ∈ ns) := by
  rw [getElem?_destroyAdapters,h]
  by_cases hn : n ∈ ns
  · exact ⟨q.destroyAdapter,by simp [hn],.inr ⟨rfl,hn⟩⟩
  · exact ⟨q,by simp [hn],.inl rfl⟩

namespace Connection
variable {c : Connection} {t t' : ℤ} {n m : ℕ} {complete : ℕ → Bool}

theorem mem_owned : n ∈ c.owned ↔ ∃ t, c.pending.lookup t = some n := by
  constructor
  · intro h
    obtain ⟨⟨t,m⟩,hx,rfl⟩ := List.mem_map.mp h
    exact ⟨t,AList.mem_lookup_iff.mpr hx⟩
  · rintro ⟨t,h⟩
    exact List.mem_map.mpr ⟨⟨t,n⟩,AList.mem_lookup_iff.mp h,rfl⟩

@[simp] theorem cleanupCompleted_alive : (c.cleanupCompleted complete).1.alive = c.alive := rfl
@[simp] theorem cleanupCompleted_channel :
    (c.cleanupCompleted complete).1.channel = c.channel := rfl

/-- An entry survives the clean-up exactly when its adapter is not complete. -/
theorem lookup_cleanupCompleted :
    (c.cleanupCompleted complete).1.pending.lookup t = some n ↔
      c.pending.lookup t = some n ∧ complete n = false := by
  have h (s : AList fun _ : ℤ => ℕ) : s.lookup t = some n ↔ ⟨t,n⟩ ∈ s.entries :=
    AList.mem_lookup_iff
  rw [h,h,cleanupCompleted,List.mem_filter]
  simp

theorem mem_cleanupCompleted (h : n ∈ (c.cleanupCompleted complete).2) :
    (∃ t, c.pending.lookup t = some n) ∧ complete n = true := by
  rw [cleanupCompleted,List.mem_filter] at h
  exact ⟨mem_owned.mp h.1,h.2⟩

theorem lookup_assign_self : (c.assign t n).1.pending.lookup t = some n :=
  AList.lookup_insert c.pending

theorem lookup_assign_of_ne (h : t' ≠ t) :
    (c.assign t n).1.pending.lookup t' = c.pending.lookup t' :=
  AList.lookup_insert_ne h

theorem mem_assign (h : m ∈ (c.assign t n).2) : c.pending.lookup t = some m := by
  simpa [assign] using h

@[simp] theorem lookup_emptied : c.emptied.pending.lookup t = none := rfl

end Connection

namespace World

theorem live?_eq_some {k : ℕ} {c : Connection} :
    w.live? k = some c ↔ w.connections[k]? = some c ∧ c.alive = true :=
  Option.filter_eq_some_iff

/-- An idle object is not the object of a `send` in progress. -/
theorem ne_of_idle {k j n : ℕ} {t : ℤ} {rc : ReturnCode} (h : w.idle k = true)
    (hf : .send j n t rc ∈ w.frames) : j ≠ k := by
  have := List.all_eq_true.mp h _ hf
  simpa using this

theorem complete_eq_true {n : ℕ} :
    w.complete n = true ↔ ∃ q, w.requests[n]? = some q ∧ q.adapter.complete = true := by
  rw [complete,Option.any_eq_true]

/-- What a step does, by the call or the event it executes. -/
inductive Step (w : World η ρ μ) : Act η ρ μ → World η ρ μ → Prop
  | create {channel} :
      Step w (.create channel) { w with connections := w.connections ++ [⟨true,channel,∅⟩] }
  | send {k c handler message} (hc : w.live? k = some c) :
      Step w (.send k handler message) (w.send k c handler message)
  | answer {k n t rc transactionId rc' frames} (hf : w.frames = .send k n t rc::frames) :
      Step w (.answer transactionId rc') { w with frames := .send k n transactionId rc'::frames }
  | returns {k n c q t rc frames} (hf : w.frames = .send k n t rc::frames)
      (hc : w.live? k = some c) (hq : w.requests[n]? = some q) :
      Step w .returns (w.finish k n c q t rc frames)
  | deliver {n q response} (hq : w.requests[n]? = some q) :
      Step w (.deliver n response) (w.callbackHandler n q response)
  | handled {n q frames} (hf : w.frames = .callback n::frames) (hq : w.requests[n]? = some q) :
      Step w .handled (w.completed n q frames)
  | move {k c} (hi : w.idle k = true) (hc : w.live? k = some c) :
      Step w (.move k) { w with connections := w.connections.set k c.emptied ++ [c] }
  | moveAssign {k j c c'} (hk : w.idle k = true) (hj : w.idle j = true) (hne : k ≠ j)
      (hc : w.live? k = some c) (hc' : w.live? j = some c') :
      Step w (.moveAssign k j) { w with
        connections := (w.connections.set k c').set j c'.emptied
        requests := destroyAdapters c.owned w.requests }
  | destroy {k c} (hi : w.idle k = true) (hc : w.live? k = some c) :
      Step w (.destroy k) { w with
        connections := w.connections.set k { c.emptied with alive := false }
        requests := destroyAdapters c.owned w.requests }

end World

/-- The inversion of a step. -/
theorem step_cases (h : step w a = some w') : w.fault = none ∧ w.Step a w' := by
  unfold step at h
  by_cases hfault : w.fault.isSome = true
  · rw [if_pos hfault] at h
    simp at h
  rw [if_neg hfault] at h
  refine ⟨by simpa using hfault,?_⟩
  cases a with
  | create channel =>
    obtain rfl := Option.some.inj h
    exact .create
  | send k handler message =>
    obtain ⟨c,hc,rfl⟩ := Option.map_eq_some_iff.mp h
    exact .send hc
  | answer transactionId rc =>
    simp only at h
    split at h
    · obtain rfl := Option.some.inj h
      exact .answer ‹_›
    · simp at h
  | returns =>
    simp only at h
    split at h
    · obtain ⟨c,hc,h⟩ := Option.bind_eq_some_iff.mp h
      obtain ⟨q,hq,rfl⟩ := Option.map_eq_some_iff.mp h
      exact .returns ‹_› hc hq
    · simp at h
  | deliver n response =>
    obtain ⟨q,hq,rfl⟩ := Option.map_eq_some_iff.mp h
    exact .deliver hq
  | handled =>
    simp only at h
    split at h
    · obtain ⟨q,hq,rfl⟩ := Option.map_eq_some_iff.mp h
      exact .handled ‹_› hq
    · simp at h
  | move k =>
    obtain ⟨hi,h⟩ := Option.ite_none_right_eq_some.mp h
    obtain ⟨c,hc,rfl⟩ := Option.map_eq_some_iff.mp h
    exact .move hi hc
  | moveAssign k j =>
    obtain ⟨hi,h⟩ := Option.ite_none_right_eq_some.mp h
    obtain ⟨⟨hk,hj⟩,hne⟩ : (w.idle k = true ∧ w.idle j = true) ∧ k ≠ j := by simpa using hi
    obtain ⟨c,hc,h⟩ := Option.bind_eq_some_iff.mp h
    obtain ⟨c',hc',rfl⟩ := Option.map_eq_some_iff.mp h
    exact .moveAssign hk hj hne hc hc'
  | destroy k =>
    obtain ⟨hi,h⟩ := Option.ite_none_right_eq_some.mp h
    obtain ⟨c,hc,rfl⟩ := Option.map_eq_some_iff.mp h
    exact .destroy hi hc

end Blush.Requests
