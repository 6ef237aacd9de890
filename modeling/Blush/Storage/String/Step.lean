import Blush.Storage.Step
import Blush.Storage.String.Model

/-! What the operations of a `String` do, case by case, and that they release and replace no block of
another object. -/
namespace Blush.Storage.String
open Memory

/-- A successful `allocate` and the copy of a string into the new block. -/
def copied (h : Heap Cell) (k : ℕ) (f str : Fields) : Heap Cell × Fields :=
  fill (allocated h k f str.length_ false).1 (allocated h k f str.length_ false).2 str

/-- A constructor other than the copy constructor. -/
inductive Constructs (h : Heap Cell) (k : ℕ) : Constructor → Bool → Outcome Cell → Prop
  | default {ok} : Constructs h k .default ok ⟨h,default,none⟩
  | noBound {bound ok} (hb : bound = 0 ∨ bound = unboundedSentinel) :
      Constructs h k (.bounded bound) ok ⟨h,.initial 0,some .preconditionViolated⟩
  | bounded {bound ok} (hz : bound ≠ 0) (hs : bound ≠ unboundedSentinel) :
      Constructs h k (.bounded bound) ok
        ⟨h,{ Fields.initial 0 with bound_ := bound, valid_ := true },some .noError⟩
  | wrapNull {ok} : Constructs h k (.wrap none) ok ⟨h,⟨none,0,0,0,false,false⟩,none⟩
  | wrap {b ok} : Constructs h k (.wrap (some b)) ok
      ⟨h,⟨some b,strlen h.memory (some b),strlen h.memory (some b),strlen h.memory (some b),
        false,true⟩,none⟩
  | nullString {ok} : Constructs h k (.cString none) ok ⟨h,.initial 0,some .preconditionViolated⟩
  | noMemory {b} : Constructs h k (.cString (some b)) false
      ⟨h,.initial (strlen h.memory (some b)),some .insufficientMemory⟩
  | filled {b len} (hl : len = strlen h.memory (some b)) :
      Constructs h k (.cString (some b)) true
        ⟨(copied h k (.initial len) (view (some b) len)).1,
          (copied h k (.initial len) (view (some b) len)).2,some .noError⟩
  | refused {str length bound ok}
      (hr : str = none ∨ bound < length ∨ bound = 0 ∨ bound = unboundedSentinel) :
      Constructs h k (.unmanaged str length bound) ok
        ⟨h,⟨str,length,bound,bound,false,false⟩,some .preconditionViolated⟩
  | unmanaged {b length bound ok} (hl : length ≤ bound) (hz : bound ≠ 0)
      (hs : bound ≠ unboundedSentinel) : Constructs h k (.unmanaged (some b) length bound) ok
        ⟨h,⟨some b,length,bound,bound,false,true⟩,some .noError⟩

theorem construct_cases (h : Heap Cell) (k : ℕ) (make : Constructor) (ok : Bool) :
    Constructs h k make ok (construct h k make ok) := by
  cases make with
  | default => exact .default
  | bounded bound =>
    by_cases hb : bound = 0 ∨ bound = unboundedSentinel
    · rw [construct,String.bounded,if_pos hb]
      exact .noBound hb
    · obtain ⟨hz,hs⟩ := not_or.mp hb
      rw [construct,String.bounded,if_neg hb]
      exact .bounded hz hs
  | wrap str =>
    cases str with
    | none => exact .wrapNull
    | some b => exact .wrap
  | cString str =>
    cases str with
    | none => exact .nullString
    | some b =>
      cases ok with
      | false => exact .noMemory
      | true => exact .filled rfl
  | unmanaged str length bound =>
    rw [construct,String.unmanaged]
    cases str with
    | none =>
      rw [if_pos (.inl rfl)]
      exact .refused (.inl rfl)
    | some b =>
      by_cases hr : bound < length ∨ bound = 0 ∨ bound = unboundedSentinel
      · rw [if_pos (.inr hr)]
        exact .refused (.inr hr)
      · rw [if_neg (by simpa using hr)]
        obtain ⟨hl,hz,hs⟩ : ¬bound < length ∧ ¬bound = 0 ∧ ¬bound = unboundedSentinel := by
          simpa only [not_or] using hr
        exact .unmanaged (Nat.le_of_not_lt hl) hz hs

/-- The copy constructor and the assignment operator after they have reset the fields. -/
inductive CopiesFrom (h : Heap Cell) (k : ℕ) (f str : Fields) (ok : Bool) : Outcome Cell → Prop
  | invalid (hv : str.valid_ = false) : CopiesFrom h k f str ok ⟨h,f,none⟩
  | refused (hv : str.valid_ = true) (hok : ok = false) : CopiesFrom h k f str ok ⟨h,f,none⟩
  | filled (hv : str.valid_ = true) (hok : ok = true) :
      CopiesFrom h k f str ok ⟨(copied h k f str).1,(copied h k f str).2,none⟩

theorem copyFrom_cases (h : Heap Cell) (k : ℕ) (f str : Fields) (ok : Bool) :
    CopiesFrom h k f str ok (copyFrom h k f str ok) := by
  rw [copyFrom]
  cases hv : str.valid_ with
  | false => exact .invalid hv
  | true =>
    rw [if_neg (by simp)]
    cases hok : ok with
    | false => exact .refused hv rfl
    | true => exact .filled hv rfl

/-- The heap after `operator=` has released a managed buffer. -/
def releases (h : Heap Cell) (k : ℕ) (f : Fields) : Heap Cell :=
  if f.managed_ then h.delete k f.buf_ else h

/-- `reserve`. -/
inductive Reserves (h : Heap Cell) (k : ℕ) (f : Fields) (n : ℕ) (ok : Bool) : Outcome Cell → Prop
  | precondition (hv : f.valid_ = false ∨ f.managed_ = false ∨ f.bound_ ≠ unboundedSentinel) :
      Reserves h k f n ok ⟨h,f,some .preconditionViolated⟩
  | enough (hv : f.valid_ = true) (hm : f.managed_ = true) (hb : f.bound_ = unboundedSentinel)
      (hn : n ≤ f.capacity_) : Reserves h k f n ok ⟨h,f,some .noError⟩
  | refused (hv : f.valid_ = true) (hm : f.managed_ = true) (hb : f.bound_ = unboundedSentinel)
      (hn : f.capacity_ < n) (hok : ok = false) :
      Reserves h k f n ok ⟨h,f,some .insufficientMemory⟩
  | grown (hv : f.valid_ = true) (hm : f.managed_ = true) (hb : f.bound_ = unboundedSentinel)
      (hn : f.capacity_ < n) (hok : ok = true) :
      Reserves h k f n ok
        ⟨(allocated h k f n true).1,(allocated h k f n true).2,some .noError⟩

theorem reserve_cases (h : Heap Cell) (k : ℕ) (f : Fields) (n : ℕ) (ok : Bool) :
    Reserves h k f n ok (reserve h k f n ok) := by
  rw [reserve]
  by_cases hp : (!f.valid_ || !f.managed_ || f.isBounded) = true
  · rw [if_pos hp]
    refine .precondition ?_
    cases hv : f.valid_ with
    | false => exact .inl rfl
    | true =>
      cases hm : f.managed_ with
      | false => exact .inr (.inl rfl)
      | true => exact .inr (.inr (by simpa [hv,hm,Fields.isBounded] using hp))
  · rw [if_neg hp]
    obtain ⟨⟨hv,hm⟩,hb⟩ : (f.valid_ = true ∧ f.managed_ = true) ∧ f.isBounded = false := by
      simpa using hp
    have hb : f.bound_ = unboundedSentinel := by simpa [Fields.isBounded,hv] using hb
    by_cases hn : n ≤ f.capacity_
    · rw [if_pos hn]
      exact .enough hv hm hb hn
    · rw [if_neg hn]
      cases hok : ok with
      | false => exact .refused hv hm hb (Nat.lt_of_not_le hn) rfl
      | true => exact .grown hv hm hb (Nat.lt_of_not_le hn) rfl

/-- `append(elem)`. -/
inductive Appends (h : Heap Cell) (k : ℕ) (f : Fields) (x : Elem Cell) (ok : Bool) :
    Outcome Cell → Prop
  | invalid (hv : f.valid_ = false) : Appends h k f x ok ⟨h,f,some .preconditionViolated⟩
  | full (hv : f.valid_ = true) (hb : f.Full) : Appends h k f x ok ⟨h,f,some .insufficientBound⟩
  | put (hv : f.valid_ = true) (hb : ¬f.Full) (hn : f.length_ < f.capacity_) :
      Appends h k f x ok (put h f x)
  | unmanaged (hv : f.valid_ = true) (hb : ¬f.Full) (hn : f.capacity_ ≤ f.length_)
      (hm : f.managed_ = false) : Appends h k f x ok ⟨h,f,some .insufficientMemory⟩
  | refused (hv : f.valid_ = true) (hb : ¬f.Full) (hn : f.capacity_ ≤ f.length_)
      (hm : f.managed_ = true) (hok : ok = false) :
      Appends h k f x ok ⟨h,f,some .insufficientMemory⟩
  | grown (hv : f.valid_ = true) (hb : ¬f.Full) (hn : f.capacity_ ≤ f.length_)
      (hm : f.managed_ = true) (hok : ok = true) :
      Appends h k f x ok (String.put (allocated h k f (f.newCap 8) true).1
        (allocated h k f (f.newCap 8) true).2 x)

theorem append_cases (h : Heap Cell) (k : ℕ) (f : Fields) (x : Elem Cell) (ok : Bool) :
    Appends h k f x ok (append h k f x ok) := by
  unfold append
  cases hv : f.valid_ with
  | false => exact .invalid hv
  | true =>
    rw [if_neg (by simp)]
    by_cases hb : f.bound_ ≠ unboundedSentinel ∧ f.bound_ ≤ f.length_
    · rw [if_pos hb]
      exact .full hv hb
    · rw [if_neg hb]
      by_cases hn : f.capacity_ ≤ f.length_
      · rw [if_pos hn]
        cases hm : f.managed_ with
        | false => exact .unmanaged hv hb hn hm
        | true =>
          rw [if_neg (by simp)]
          cases hok : ok with
          | false => exact .refused hv hb hn hm rfl
          | true => exact .grown hv hb hn hm rfl
      · rw [if_neg hn]
        exact .put hv hb (Nat.lt_of_not_le hn)

/-- A constructor at work. -/
inductive Made (lends : Bool) (w : World Cell) : Act Cell Constructor → Outcome Cell → Prop
  | construct {make ok o} (ha : admissible lends w.heap.memory make = true)
      (ho : Constructs w.heap w.objects.length make ok o) : Made lends w (.construct make ok) o
  | copy {j g ok o} (hg : w.live? j = some g)
      (ho : CopiesFrom w.heap w.objects.length (.initial g.bound_) g ok o) :
      Made lends w (.copy j ok) o

variable {lends : Bool}

theorem makes_cases {w : World Cell} {a : Act Cell Constructor} {o : Outcome Cell}
    (h : Makes (given lends) w a o) : Made lends w a o := by
  cases h with
  | construct ha => exact .construct ha (construct_cases _ _ _ _)
  | copy hg => exact .copy hg (copyFrom_cases _ _ _ _ _)

/-- An object at work. -/
inductive Done (w : World Cell) (k : ℕ) (f : Fields) : Act Cell Constructor → Outcome Cell → Prop
  | assign {j g ok o} (hg : w.live? j = some g) (hne : k ≠ j)
      (ho : CopiesFrom (releases w.heap k f) k { f.released g.bound_ with buf_ := none } g ok o) :
      Done w k f (.assign k j ok) o
  | reserve {n ok o} (hn : n < 2^32) (ho : Reserves w.heap k f n ok o) :
      Done w k f (.reserve k n ok) o
  | clear : Done w k f (.clear k) (clear w.heap f)
  | append {e x ok o} (hx : w.resolve (given false) e = some x) (ho : Appends w.heap k f x ok o) :
      Done w k f (.append k e ok) o
  | next {j i g ok o} (hc : w.call = some ⟨k,j,i⟩) (hg : w.live? j = some g) (hi : i < g.length_)
      (ho : Appends (w.heap.access false g i) k f (.cell g.buf_ i) ok o) : Done w k f (.next ok) o

theorem does_cases {w : World Cell} {k : ℕ} {f : Fields} {a : Act Cell Constructor}
    {o : Outcome Cell} (h : Does (given lends) w k f a o) : Done w k f a o := by
  cases h with
  | assign hg hne => exact .assign hg hne (copyFrom_cases _ _ _ _ _)
  | reserve hn => exact .reserve hn (reserve_cases _ _ _ _ _)
  | clear => exact .clear
  | append hx => exact .append hx (append_cases _ _ _ _ _)
  | next hc hg hi => exact .next hc hg hi (append_cases _ _ _ _ _)

/-! ## Confinement -/

section
variable (h : Heap Cell) (k n : ℕ) (f : Fields) (preserve : Bool)

/-- The new block of `allocate` before the old one is released. -/
def prepared : Memory (Option ℕ) Cell :=
  let m := h.memory.add (some k) (List.replicate (u32 (n+1)) Inhabited.default)
  if preserve && f.buf_.isSome then
    (m.copy h.memory.next f.buf_ f.length_).write h.memory.next f.length_ nul
  else m.write h.memory.next 0 nul

theorem memory_allocated :
    (allocated h k f n preserve).1.memory = (prepared h k n f preserve).free f.buf_ := by
  rw [allocated,prepared,Heap.memory_delete]
  cases hp : preserve && f.buf_.isSome <;> simp

theorem owner?_prepared : (prepared h k n f preserve).owner? h.memory.next = some (some k) := by
  rw [prepared]
  cases preserve && f.buf_.isSome <;> simp [owner?_add_next]

theorem length_prepared :
    ((prepared h k n f preserve).cells h.memory.next).length = u32 (n+1) := by
  rw [prepared]
  cases preserve && f.buf_.isSome <;> simp [cells_add_next]

theorem confined_prepared {S : Option ℕ → Option ℕ → Prop} (hk : S h.memory.next (some k)) :
    Confined S h.memory (prepared h k n f preserve) := by
  have hwithin {m : Memory (Option ℕ) Cell} (ho : m.owner? h.memory.next = some (some k)) :
      Within S m h.memory.next := fun o h' => Option.some.inj (ho.symm.trans h') ▸ hk
  rw [prepared]
  cases preserve && f.buf_.isSome with
  | true =>
    refine (confined_fresh k h.memory _ f.buf_ f.length_ hk).trans (.write (hwithin ?_) _ _)
    exact owner?_fresh _ _ _ _ _
  | false => exact (Confined.add hk _).trans (.write (hwithin (owner?_add_next _)) _ _)

end

variable {h : Heap Cell} {k n : ℕ} {f str : Fields} {preserve ok : Bool} {x : Elem Cell}
  {o : Outcome Cell}

theorem owner?_allocated :
    (allocated h k f n preserve).1.memory.owner? h.memory.next = some (some k) := by
  rw [memory_allocated,owner?_free]
  exact owner?_prepared _ _ _ _ _

theorem length_allocated (ha : Placed f h.memory) :
    ((allocated h k f n preserve).1.memory.cells h.memory.next).length = u32 (n+1) := by
  rw [memory_allocated,cells_free_of_ne ha.next_ne]
  exact length_prepared _ _ _ _ _

theorem apart_allocated :
    Apart lends k (allocated h k f n preserve).2 (allocated h k f n preserve).1.memory :=
  .inr ⟨some k,owner?_allocated,.inl (.inr rfl)⟩

theorem apart_copied : Apart lends k (copied h k f str).2 (copied h k f str).1.memory := by
  have ha : Apart lends k (allocated h k f str.length_ false).2
    (allocated h k f str.length_ false).1.memory := apart_allocated
  exact Apart.of_keeps (f:=(copied h k f str).2) ha fun _ _ hp => by simpa [copied,fill] using hp

theorem apart_put (ha : Apart lends k f h.memory) :
    Apart lends k (put h f x).fields (put h f x).heap.memory :=
  Apart.of_keeps (f:=(put h f x).fields) ha fun _ _ hp => by simpa [put] using hp

theorem CopiesFrom.apart (ho : CopiesFrom h k f str ok o) (ha : Apart lends k f h.memory) :
    Apart lends k o.fields o.heap.memory := by
  cases ho with
  | invalid | refused => exact ha
  | filled => exact apart_copied

theorem Appends.apart (ho : Appends h k f x ok o) (ha : Apart lends k f h.memory) :
    Apart lends k o.fields o.heap.memory := by
  cases ho with
  | invalid | full | unmanaged | refused => exact ha
  | put => exact apart_put ha
  | grown => exact apart_put apart_allocated

/-- `clear` without a buffer. -/
theorem clear_of_none (hb : f.buf_ = none) : clear h f = ⟨h,{ f with length_ := 0 },none⟩ := by
  simp [clear,hb]

/-- `clear` with a buffer. -/
theorem clear_of_ne (hb : f.buf_ ≠ none) :
    clear h f = ⟨h.store f 0 nul,{ f with length_ := 0 },none⟩ := by
  simp [clear,Option.isSome_iff_ne_none,hb]

theorem apart_clear (ha : Apart lends k f h.memory) :
    Apart lends k (clear h f).fields (clear h f).heap.memory := by
  by_cases hb : f.buf_ = none
  · exact .inl hb
  · rw [clear_of_ne hb]
    exact Apart.of_keeps (f:={ f with length_ := 0 }) ha fun _ _ hp => (owner?_write _ _).trans hp

section confined
variable {S : Option ℕ → Option ℕ → Prop} (hk : S h.memory.next (some k))
  (hb : Within S h.memory f.buf_)
include hb

theorem confined_put : Confined S h.memory (put h f x).heap.memory := by
  have hc : Confined S h.memory (h.memory.write f.buf_ f.length_ (x.get h.memory)) :=
    .write hb _ _
  exact hc.trans (.write (hc.within hb) _ _)

theorem confined_fill : Confined S h.memory (fill h f str).1.memory := by
  rw [fill,Heap.memory_store,Heap.memory_copy]
  have hc : Confined S h.memory (h.memory.copy f.buf_ str.buf_ str.length_) := .copy hb _ _
  exact hc.trans (.write (hc.within hb) _ _)

theorem confined_clear : Confined S h.memory (clear h f).heap.memory := by
  by_cases hn : f.buf_ = none
  · rw [clear_of_none hn]
    exact .refl _
  · rw [clear_of_ne hn]
    exact .write hb _ _

theorem confined_releases : Confined S h.memory (releases h k f).memory := by
  rw [releases]
  cases f.managed_ with
  | false => exact .refl _
  | true =>
    rw [if_pos rfl,Heap.memory_delete]
    exact .free hb

omit hb in
theorem next_releases : (releases h k f).memory.next = h.memory.next := by
  rw [releases]
  cases f.managed_ with
  | false => rfl
  | true =>
    rw [if_pos rfl,Heap.memory_delete]
    exact next_free

include hk

theorem confined_allocated :
    Confined S h.memory (allocated h k f n preserve).1.memory := by
  rw [memory_allocated]
  have hc := confined_prepared h k n f preserve hk
  exact hc.trans (.free (hc.within hb))

omit hb in
theorem within_allocated : Within S (allocated h k f n preserve).1.memory h.memory.next :=
  fun _ ho => Option.some.inj (owner?_allocated.symm.trans ho) ▸ hk

theorem CopiesFrom.confined (ho : CopiesFrom h k f str ok o) :
    Confined S h.memory o.heap.memory := by
  cases ho with
  | invalid | refused => exact .refl _
  | filled => exact (confined_allocated hk hb).trans (confined_fill (within_allocated hk))

theorem Appends.confined (ho : Appends h k f x ok o) : Confined S h.memory o.heap.memory := by
  cases ho with
  | invalid | full | unmanaged | refused => exact .refl _
  | put => exact confined_put hb
  | grown => exact (confined_allocated hk hb).trans (confined_put (within_allocated hk))

end confined

/-- The pointer that a constructor is given. -/
def Constructor.pointer? : Constructor → Option ℕ
  | .default | .bounded _ => none
  | .wrap str | .cString str | .unmanaged str _ _ => str

/-- It is usable. -/
theorem admissible_usable {m : Memory (Option ℕ) Cell} {make : Constructor} {b : ℕ}
    (h : admissible lends m make = true) (hb : make.pointer? = some b) :
    usable lends m (some b) = true := by
  cases make with
  | default | bounded => simp [Constructor.pointer?] at hb
  | wrap str | cString str =>
    obtain rfl : str = some b := hb
    simp only [admissible,Option.isNone_some,Bool.false_or,Bool.and_eq_true] at h
    exact h.1
  | unmanaged str =>
    obtain rfl : str = some b := hb
    simp only [admissible,Option.isNone_some,Bool.false_or,Bool.and_eq_true] at h
    exact h.1.1

section
variable {w : World Cell} {a : Act Cell Constructor} {S : Option ℕ → Option ℕ → Prop}

/-- A constructor changes no block but its own. -/
theorem Made.confined (ho : Made lends w a o)
    (hk : S w.heap.memory.next (some w.objects.length)) :
    Confined S w.heap.memory o.heap.memory := by
  cases ho with
  | construct ha ho =>
    cases ho with
    | filled =>
      exact (confined_allocated hk within_none).trans (confined_fill (within_allocated hk))
    | _ => exact .refl _
  | copy hg ho => exact ho.confined hk within_none

/-- An operation changes no block but new ones and the one of the buffer. -/
theorem Done.confined (ho : Done w k f a o) (hk : S w.heap.memory.next (some k))
    (hb : Within S w.heap.memory f.buf_) : Confined S w.heap.memory o.heap.memory := by
  cases ho with
  | assign hg hne ho =>
    have hrest : Confined S (releases w.heap k f).memory o.heap.memory :=
      ho.confined (by rwa [next_releases]) within_none
    exact (confined_releases hb).trans hrest
  | reserve hn ho =>
    cases ho with
    | precondition | enough | refused => exact .refl _
    | grown => exact confined_allocated hk hb
  | clear => exact confined_clear hb
  | append hx ho => exact ho.confined hk hb
  | next hc hg hi ho => exact ho.confined (h:=w.heap.access false _ _) hk hb

end

/-- What an unmanaged object does releases nothing and replaces no block. -/
theorem Done.spares {w : World Cell} {a : Act Cell Constructor} (ho : Done w k f a o)
    (hm : f.managed_ = false) : Spares (Touches k) w.heap.memory o.heap.memory := by
  have hrefl : Spares (Touches k) w.heap.memory w.heap.memory := (Confined.refl _).spares
  cases ho with
  | assign hg hne ho =>
    have hreleases : releases w.heap k f = w.heap := if_neg (by simp [hm])
    rw [hreleases] at ho
    exact (ho.confined (.inr rfl) within_none).spares
  | reserve hn ho =>
    cases ho with
    | precondition | enough | refused => exact hrefl
    | grown _ hm' => simp [hm] at hm'
  | clear =>
    by_cases hb : f.buf_ = none
    · rw [clear_of_none hb]
      exact hrefl
    · rw [clear_of_ne hb]
      exact .write _ _ _
  | append hx ho | next hc hg hi ho =>
    cases ho with
    | invalid | full | unmanaged | refused => exact hrefl
    | put => exact (Spares.write _ _ _).trans (.write _ _ _)
    | grown _ _ _ hm' => simp [hm] at hm'

/-- No operation releases or replaces a block of another object. -/
theorem confines {slip : World Cell → Act Cell Constructor → Prop} :
    Confines (given lends) slip where
  makes {w a o} hm := by
    have ho := makes_cases hm
    have hgiven {make : Constructor} {b : ℕ} {f : Fields}
        (ha : admissible lends w.heap.memory make = true) (hb : make.pointer? = some b)
        (hbuf : f.buf_ = some b) (hm : f.managed_ = false) :
        Apart lends w.objects.length f w.heap.memory := by
      obtain ⟨o,ho,ht⟩ := owner?_of_usable (admissible_usable ha hb)
      exact .inr ⟨o,hbuf ▸ ho,ht.imp .inl fun hl => ⟨hl,hm⟩⟩
    refine ⟨(ho.confined (.inr rfl)).spares,?_⟩
    cases ho with
    | construct ha ho =>
      cases ho with
      | default | noBound | bounded | wrapNull | nullString | noMemory => exact .inl rfl
      | wrap => exact hgiven ha rfl rfl rfl
      | filled => exact apart_copied
      | @refused str length bound =>
        cases str with
        | none => exact .inl rfl
        | some b => exact hgiven ha rfl rfl rfl
      | unmanaged => exact hgiven ha rfl rfl rfl
    | copy hg ho => exact ho.apart (.inl rfl)
  does hf ha _ hd := by
    have ho := does_cases hd
    refine ⟨?_,?_⟩
    · cases hm : Fields.managed_ _ with
      | false => exact ho.spares hm
      | true => exact (ho.confined (.inr rfl) (ha.within hm)).spares
    cases ho with
    | assign hg hne ho => exact ho.apart (.inl rfl)
    | reserve hn ho =>
      cases ho with
      | precondition | enough | refused => exact ha
      | grown => exact apart_allocated
    | clear => exact apart_clear ha
    | append hx ho => exact ho.apart ha
    | next hc hg hi ho => exact ho.apart ha

end Blush.Storage.String
