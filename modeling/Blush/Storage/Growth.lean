import Blush.Storage.Step

/-! What `append(elem)` does to the sizes of an object, which is the same for both classes, and the
calls of `append(src)`, from their beginning to their return. -/
namespace Blush.Storage
open Transition World
variable {α κ : Type}

namespace Fields
variable (f : Fields)

/-- `length_++`. -/
def longer : Fields := { f with length_ := u32 (f.length_+1) }

/-- How many elements it has room for, once it has grown if it has to. -/
def room (first : ℕ) : ℕ := if f.capacity_ ≤ f.length_ then f.newCap first else f.capacity_

/-- The numbers are `UnsignedLong`s, and the capacity of unmanaged storage is its bound. -/
structure Words : Prop where
  length_lt : f.length_ < 2^32
  capacity_lt : f.capacity_ < 2^32
  bound_lt : f.bound_ < 2^32
  unmanaged : f.managed_ = false → f.capacity_ = f.bound_

variable {f}

theorem Words.longer (h : f.Words) : f.longer.Words :=
  ⟨Nat.mod_lt _ (by omega),h.capacity_lt,h.bound_lt,h.unmanaged⟩

/-- A managed object with another buffer. -/
theorem Words.resized (h : f.Words) (hm : f.managed_ = true) {cap : ℕ} (hcap : cap < 2^32)
    (p : Option ℕ) : { f with buf_ := p, capacity_ := cap }.Words :=
  ⟨h.length_lt,hcap,h.bound_lt,fun hm' => by simp [hm] at hm'⟩

theorem longer_length (h : f.length_+1 < 2^32) : f.longer.length_ = f.length_+1 :=
  Nat.mod_eq_of_lt h

end Fields

/-- `append(elem)`; `first` is the capacity that an object gets first. -/
inductive Sized (first : ℕ) (h : Heap α) (f : Fields) (ok : Bool) : Outcome α → Prop
  | invalid (hv : f.valid_ = false) : Sized first h f ok ⟨h,f,some .preconditionViolated⟩
  | full (hv : f.valid_ = true) (hb : f.Full) : Sized first h f ok ⟨h,f,some .insufficientBound⟩
  | stuck {r} (hv : f.valid_ = true) (hb : ¬f.Full) (hn : f.capacity_ ≤ f.length_)
      (hs : f.managed_ = false ∨ ok = false) (hr : r ≠ .noError) :
      Sized first h f ok ⟨h,f,some r⟩
  | room {h'} (hv : f.valid_ = true) (hb : ¬f.Full) (hn : f.length_ < f.capacity_) :
      Sized first h f ok ⟨h',f.longer,some .noError⟩
  | grown {h' p} (hv : f.valid_ = true) (hb : ¬f.Full) (hn : f.capacity_ ≤ f.length_)
      (hm : f.managed_ = true) (hok : ok = true) : Sized first h f ok
        ⟨h',({ f with buf_ := p, capacity_ := f.newCap first } : Fields).longer,some .noError⟩
  | wrapped {h'} (hv : f.valid_ = true) (hb : ¬f.Full) (hn : f.capacity_ ≤ f.length_)
      (hm : f.managed_ = true) (hc : f.newCap first ≤ f.capacity_) :
      Sized first h f ok ⟨h',f.longer,some .noError⟩

namespace Sized
variable {first : ℕ} {h : Heap α} {f : Fields} {ok : Bool} {o : Outcome α}

/-- When it succeeds, the object was not full and has one element more. -/
theorem of_noError (ho : Sized first h f ok o) (hr : o.returned = some .noError) :
    f.valid_ = true ∧ ¬f.Full ∧
      ∃ p cap, o.fields = ({ f with buf_ := p, capacity_ := cap } : Fields).longer := by
  cases ho with
  | invalid | full => simp at hr
  | stuck _ _ _ _ hne => exact absurd (Option.some.inj hr) hne
  | room hv hb | wrapped hv hb => exact ⟨hv,hb,_,_,rfl⟩
  | grown hv hb => exact ⟨hv,hb,_,_,rfl⟩

/-- When it fails, it has done nothing. -/
theorem of_failed (ho : Sized first h f ok o) (hr : o.returned ≠ some .noError) :
    o.heap = h ∧ o.fields = f := by
  cases ho with
  | invalid | full | stuck => exact ⟨rfl,rfl⟩
  | room | grown | wrapped => exact absurd rfl hr

theorem of_room (ho : Sized first h f ok o) (hv : f.valid_ = true) (hb : ¬f.Full)
    (hn : f.length_ < f.capacity_) : o.returned = some .noError ∧ o.fields = f.longer := by
  cases ho with
  | invalid hv' => simp [hv] at hv'
  | full _ hb' => exact absurd hb' hb
  | room => exact ⟨rfl,rfl⟩
  | stuck _ _ hn' | grown _ _ hn' | wrapped _ _ hn' => exact absurd hn (Nat.not_lt_of_le hn')

theorem of_full (ho : Sized first h f ok o) (hv : f.valid_ = true) (hb : f.Full) :
    o.returned = some .insufficientBound := by
  cases ho with
  | invalid hv' => simp [hv] at hv'
  | full => rfl
  | room _ hb' | stuck _ hb' | grown _ hb' | wrapped _ hb' => exact absurd hb hb'

/-- There is no room, and there cannot be more. -/
theorem of_unmanaged (ho : Sized first h f ok o) (hn : f.capacity_ ≤ f.length_)
    (hm : f.managed_ = false) : o.returned ≠ some .noError := by
  cases ho with
  | invalid | full => simp
  | stuck _ _ _ _ hr => simpa using hr
  | room _ _ hn' => exact absurd hn' (Nat.not_lt_of_le hn)
  | grown _ _ _ hm' | wrapped _ _ _ hm' => simp [hm] at hm'

/-- With memory, it fails only when the object is full or cannot grow. -/
theorem of_true (ho : Sized first h f true o) (hv : f.valid_ = true) (hb : ¬f.Full)
    (hm : f.managed_ = false → f.length_ < f.capacity_) : o.returned = some .noError := by
  cases ho with
  | invalid hv' => simp [hv] at hv'
  | full _ hb' => exact absurd hb' hb
  | stuck _ _ hn hs =>
    have hlt := hm (hs.resolve_right (by simp))
    exact absurd hlt (Nat.not_lt_of_le hn)
  | room | grown | wrapped => rfl

/-- What an append has room for that gets no memory. -/
theorem of_refused (ho : Sized first h f false o) (hfirst : 0 < first)
    (hc : f.managed_ = true → f.capacity_ < 2^31) (hr : o.returned = some .noError) :
    f.length_ < f.capacity_ ∧ ¬f.Full ∧ o.fields = f.longer := by
  cases ho with
  | invalid | full => simp at hr
  | stuck _ _ _ _ hne => exact absurd (Option.some.inj hr) hne
  | room _ hb hn => exact ⟨hn,hb,rfl⟩
  | grown _ _ _ _ hok => simp at hok
  | wrapped _ hb hn hm hcap =>
    exact absurd hcap (Nat.not_le_of_lt (f.lt_newCap first hfirst hb hn (hc hm)))

/-- What it gets when memory suffices. -/
theorem of_room_for (ho : Sized first h f ok o) (hn : f.length_ < f.room first)
    (hr : o.returned = some .noError) :
    ∃ p, o.fields = ({ f with buf_ := p, capacity_ := f.room first } : Fields).longer := by
  cases ho with
  | invalid | full => simp at hr
  | stuck _ _ _ _ hne => exact absurd (Option.some.inj hr) hne
  | room _ _ hlt => exact ⟨f.buf_,by rw [Fields.room,if_neg (Nat.not_le_of_lt hlt)]⟩
  | @grown _ p _ _ hle => exact ⟨p,by rw [Fields.room,if_pos hle]⟩
  | wrapped _ _ hle _ hcap =>
    rw [Fields.room,if_pos hle] at hn
    omega

theorem words (ho : Sized first h f ok o) (hfirst : first < 2^32) (hf : f.Words) :
    o.fields.Words := by
  cases ho with
  | invalid | full | stuck => exact hf
  | room | wrapped => exact hf.longer
  | grown _ _ _ hm => exact (hf.resized hm (f.newCap_small first hfirst hf.bound_lt) _).longer

end Sized

/-- The sizes of the objects of a class whose first capacity is `first`. -/
structure Growth (c : Class α κ) (first : ℕ) : Prop where
  pos : 0 < first
  lt : first < 2^31
  append (h : Heap α) (k : ℕ) (f : Fields) (x : Elem α) (ok : Bool) :
    Sized first h f ok (c.append h k f x ok)
  words {e : Execution (step c) World.init} {w : World α} {k : ℕ} {f : Fields} :
    w ∈ e.visited → w.live? k = some f → f.Words

/-! ## Calls of `append(src)` -/

section
variable (c : Class α κ)

/-- `append(src)` before its loop. -/
def World.begun (w : World α) (k j : ℕ) : World α :=
  { w with call := some ⟨k,j,0⟩, returned := none }

/-- Iterations of `append(src)`, by the outcomes of the allocations. -/
def World.nexts : List Bool → World α → Option (World α)
  | [],w => some w
  | ok::oks,w => (step c w (.next ok)).bind (nexts oks)

/-- `append(src)` of the objects `k` and `j` that is called in one state and returns in another
one. -/
def Returns (w : World α) (k j : ℕ) (oks : List Bool) (w' : World α) : Prop :=
  (step c w (.appendAll k j)).bind (World.nexts c oks) = some w' ∧ w'.call = none

variable {c} {w w' : World α} {k j i : ℕ} {f g : Fields} {ok : Bool} {oks : List Bool}

theorem step_next (hc : w.call = some ⟨k,j,i⟩) (hf : w.live? k = some f)
    (hg : w.live? j = some g) : step c w (.next ok) = some (w.next c ⟨k,j,i⟩ f g ok) := by
  simp only [step,hc,hf,hg,Option.bind_some,Option.map_some]

/-- After the return there are no iterations. -/
theorem nexts_of_returned (hc : w.call = none) (h : World.nexts c oks w = some w') : w' = w := by
  cases oks with
  | nil => exact (Option.some.inj h).symm
  | cons ok oks => simp [World.nexts,step,hc] at h

theorem next_of_length_le (hi : g.length_ ≤ i) :
    w.next c ⟨k,j,i⟩ f g ok = { w with call := none, returned := some .noError } :=
  if_neg (Nat.not_lt_of_le hi)

/-- What an iteration appends. -/
def World.appended (c : Class α κ) (w : World α) (k i : ℕ) (f g : Fields) (ok : Bool) :
    Outcome α := c.append (w.heap.access false g i) k f (.cell g.buf_ i) ok

/-- An iteration that succeeds. -/
theorem step_iterates (hc : w.call = some ⟨k,j,i⟩) (hf : w.live? k = some f)
    (hg : w.live? j = some g) (hi : i < g.length_)
    (hr : (w.appended c k i f g ok).returned = some .noError) :
    ∃ w₁, step c w (.next ok) = some w₁ ∧ w₁.call = some ⟨k,j,i+1⟩ ∧
      w₁.live? k = some (w.appended c k i f g ok).fields ∧ ∀ l, l ≠ k → w₁.live? l = w.live? l := by
  have hnext : w.next c ⟨k,j,i⟩ f g ok =
      { w.put k (w.appended c k i f g ok) with call := some ⟨k,j,i+1⟩, returned := none } :=
    (if_pos hi).trans (if_pos hr)
  rw [step_next hc hf hg,hnext]
  exact ⟨_,rfl,rfl,live?_put_self _ hf,fun l hl => live?_put_of_ne _ hl⟩

/-- An iteration that fails. -/
theorem Growth.stops {first : ℕ} (hgrow : Growth c first) (hc : w.call = some ⟨k,j,i⟩)
    (hf : w.live? k = some f) (hg : w.live? j = some g) (hi : i < g.length_)
    (hr : (w.appended c k i f g ok).returned ≠ some .noError) :
    ∃ w₁, step c w (.next ok) = some w₁ ∧ w₁.call = none ∧
      w₁.returned = (w.appended c k i f g ok).returned ∧ w₁.live? k = some f ∧
      w₁.heap.memory = w.heap.memory := by
  have hnext : w.next c ⟨k,j,i⟩ f g ok =
      { w.put k (w.appended c k i f g ok) with call := none } :=
    (if_pos hi).trans (if_neg hr)
  obtain ⟨hheap,hfields⟩ := (hgrow.append _ _ _ _ _).of_failed hr
  rw [step_next hc hf hg,hnext]
  refine ⟨_,rfl,rfl,rfl,?_,?_⟩
  · exact (live?_put_self _ hf).trans (congrArg some hfields)
  · have hmemory := congrArg Heap.memory hheap
    exact hmemory

/-- A call of an invalid object. -/
theorem step_appendAll_of_invalid (hc : w.call = none) (hf : w.live? k = some f)
    (hg : w.live? j = some g) (hv : f.valid_ = false) :
    step c w (.appendAll k j) = some { w with returned := some .preconditionViolated } := by
  simp [step,hc,hf,hg,World.appendAll,hv]

/-- A call of a valid object. -/
theorem step_appendAll (hc : w.call = none) (hf : w.live? k = some f) (hg : w.live? j = some g)
    (hv : f.valid_ = true) :
    step c w (.appendAll k j) = some (w.begun k j) := by
  simp [step,hc,hf,hg,World.appendAll,World.begun,hv]

/-- Then its iterations follow. -/
theorem returns_of_valid (hc : w.call = none) (hf : w.live? k = some f) (hg : w.live? j = some g)
    (hv : f.valid_ = true) : Returns c w k j oks w' ↔
      ∃ ok oks', oks = ok::oks' ∧
        (step c (w.begun k j) (.next ok)).bind (World.nexts c oks') = some w' ∧
        w'.call = none := by
  rw [Returns,step_appendAll hc hf hg hv,Option.bind_some]
  constructor
  · rintro ⟨h,hreturned⟩
    cases oks with
    | nil =>
      obtain rfl := Option.some.inj h
      simp [World.begun] at hreturned
    | cons ok oks => exact ⟨ok,oks,rfl,h,hreturned⟩
  · rintro ⟨ok,oks,rfl,h⟩
    exact h

end
end Blush.Storage
