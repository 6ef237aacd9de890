import Blush.Storage.Step
import Blush.Storage.Sequence.Model

/-! What the operations of a `Sequence` do, case by case, and that they release and replace no block of
another object. -/
namespace Blush.Storage.Sequence
open Memory
variable {α : Type} [Inhabited α]

/-- A constructor other than the copy constructor. -/
inductive Constructs (h : Heap α) (k : ℕ) : Constructor → Bool → Outcome α → Prop
  | default {ok} : Constructs h k .default ok
      ⟨h,{ Fields.initial unboundedSentinel with valid_ := true },none⟩
  | bounded {bound ok} : Constructs h k (.bounded bound) ok
      ⟨h,{ Fields.initial bound with valid_ := true },some .noError⟩
  | nullArray {length ok} : Constructs h k (.cArray none length) ok
      ⟨h,.initial length,some .preconditionViolated⟩
  | refused {b length} (hl : 0 < length) : Constructs h k (.cArray (some b) length) false
      ⟨h,.initial length,some .insufficientMemory⟩
  | filled {b length} (hl : 0 < length) : Constructs h k (.cArray (some b) length) true
      ⟨(fill h k (.initial length) (view (some b) length)).1,
        (fill h k (.initial length) (view (some b) length)).2,some .noError⟩
  | emptyArray {b ok} : Constructs h k (.cArray (some b) 0) ok
      ⟨h,{ Fields.initial 0 with valid_ := true },some .noError⟩
  | nullBuffer {length bound ok} : Constructs h k (.unmanaged none length bound) ok
      ⟨h,⟨none,length,bound,bound,false,false⟩,some .preconditionViolated⟩
  | unmanaged {b length bound ok} : Constructs h k (.unmanaged (some b) length bound) ok
      ⟨h,⟨some b,length,bound,bound,false,true⟩,some .noError⟩

theorem construct_cases (h : Heap α) (k : ℕ) (make : Constructor) (ok : Bool) :
    Constructs h k make ok (construct h k make ok) := by
  cases make with
  | default => exact .default
  | bounded bound => exact .bounded
  | cArray arr length =>
    cases arr with
    | none => exact .nullArray
    | some b =>
      cases length with
      | zero => exact .emptyArray
      | succ n =>
        cases ok with
        | false => exact .refused (Nat.succ_pos n)
        | true => exact .filled (Nat.succ_pos n)
  | unmanaged seq length bound =>
    cases seq with
    | none => exact .nullBuffer
    | some b => exact .unmanaged

/-- The copy constructor and the assignment operator after they have reset the fields. -/
inductive CopiesFrom (h : Heap α) (k : ℕ) (f seq : Fields) (ok : Bool) : Outcome α → Prop
  | invalid (hv : seq.valid_ = false) : CopiesFrom h k f seq ok ⟨h,f,none⟩
  | refused (hv : seq.valid_ = true) (hl : 0 < seq.length_) (hok : ok = false) :
      CopiesFrom h k f seq ok ⟨h,{ f with buf_ := none },none⟩
  | filled (hv : seq.valid_ = true) (hl : 0 < seq.length_) (hok : ok = true) :
      CopiesFrom h k f seq ok ⟨(fill h k f seq).1,(fill h k f seq).2,none⟩
  | empty (hv : seq.valid_ = true) (hl : seq.length_ = 0) :
      CopiesFrom h k f seq ok ⟨h,{ f with length_ := 0, valid_ := true },none⟩

theorem copyFrom_cases (h : Heap α) (k : ℕ) (f seq : Fields) (ok : Bool) :
    CopiesFrom h k f seq ok (copyFrom h k f seq ok) := by
  rw [copyFrom]
  cases hv : seq.valid_ with
  | false => exact .invalid hv
  | true =>
    rw [if_neg (by simp)]
    by_cases hl : 0 < seq.length_
    · rw [if_pos hl]
      cases hok : ok with
      | false => exact .refused hv hl rfl
      | true => exact .filled hv hl rfl
    · have hz : seq.length_ = 0 := Nat.eq_zero_of_not_pos hl
      rw [if_neg hl,hz]
      exact .empty hv hz

/-- `operator=` for another object. -/
inductive Assigns (h : Heap α) (k : ℕ) (f seq : Fields) (ok : Bool) : Outcome α → Prop
  | managed {o} (hm : f.managed_ = true) (ho : CopiesFrom (h.delete k f.buf_) k
      { f.released seq.bound_ with buf_ := none } seq ok o) : Assigns h k f seq ok o
  | unmanaged {o} (hm : f.managed_ = false)
      (ho : CopiesFrom h k (f.released seq.bound_) seq ok o) : Assigns h k f seq ok o

theorem assign_cases (h : Heap α) (k : ℕ) (f seq : Fields) (ok : Bool) :
    Assigns h k f seq ok (assign h k f seq ok) := by
  unfold assign
  cases hm : f.managed_ with
  | false => exact .unmanaged hm (copyFrom_cases _ _ _ _ _)
  | true => exact .managed hm (copyFrom_cases _ _ _ _ _)

/-- `bound_` is a real bound and `n` exceeds it. -/
def Exceeds (f : Fields) (n : ℕ) : Prop := f.bound_ ≠ unboundedSentinel ∧ f.bound_ < n

/-- `reserve`. -/
inductive Reserves (h : Heap α) (k : ℕ) (f : Fields) (n : ℕ) (ok : Bool) : Outcome α → Prop
  | precondition (hv : f.valid_ = false ∨ f.managed_ = false) :
      Reserves h k f n ok ⟨h,f,some .preconditionViolated⟩
  | enough (hv : f.valid_ = true) (hm : f.managed_ = true) (hn : n ≤ f.capacity_) :
      Reserves h k f n ok ⟨h,f,some .noError⟩
  | bound (hv : f.valid_ = true) (hm : f.managed_ = true) (hn : f.capacity_ < n)
      (hb : Exceeds f n) : Reserves h k f n ok ⟨h,f,some .insufficientBound⟩
  | refused (hv : f.valid_ = true) (hm : f.managed_ = true) (hn : f.capacity_ < n)
      (hb : ¬Exceeds f n) (hok : ok = false) :
      Reserves h k f n ok ⟨h,f,some .insufficientMemory⟩
  | grown (hv : f.valid_ = true) (hm : f.managed_ = true) (hn : f.capacity_ < n)
      (hb : ¬Exceeds f n) (hok : ok = true) :
      Reserves h k f n ok ⟨(grow h k f n).1,(grow h k f n).2,some .noError⟩

theorem reserve_cases (h : Heap α) (k : ℕ) (f : Fields) (n : ℕ) (ok : Bool) :
    Reserves h k f n ok (reserve h k f n ok) := by
  rw [reserve]
  cases hv : f.valid_ with
  | false => exact .precondition (.inl hv)
  | true =>
    rw [if_neg (by simp)]
    cases hm : f.managed_ with
    | false => exact .precondition (.inr hm)
    | true =>
      rw [if_neg (by simp)]
      by_cases hn : n ≤ f.capacity_
      · rw [if_pos hn]
        exact .enough hv hm hn
      · rw [if_neg hn]
        have hlt : f.capacity_ < n := Nat.lt_of_not_le hn
        by_cases hb : f.bound_ ≠ unboundedSentinel ∧ f.bound_ < n
        · rw [if_pos hb]
          exact .bound hv hm hlt hb
        · rw [if_neg hb]
          cases hok : ok with
          | false => exact .refused hv hm hlt hb rfl
          | true => exact .grown hv hm hlt hb rfl

/-- `append(elem)`. -/
inductive Appends (h : Heap α) (k : ℕ) (f : Fields) (x : Elem α) (ok : Bool) : Outcome α → Prop
  | invalid (hv : f.valid_ = false) : Appends h k f x ok ⟨h,f,some .preconditionViolated⟩
  | full (hv : f.valid_ = true) (hb : f.Full) : Appends h k f x ok ⟨h,f,some .insufficientBound⟩
  | put (hv : f.valid_ = true) (hb : ¬f.Full) (hn : f.length_ < f.capacity_) :
      Appends h k f x ok (put h f x)
  | unmanaged (hv : f.valid_ = true) (hb : ¬f.Full) (hn : f.capacity_ ≤ f.length_)
      (hm : f.managed_ = false) : Appends h k f x ok ⟨h,f,some .preconditionViolated⟩
  | wrapped (hv : f.valid_ = true) (hb : ¬f.Full) (hn : f.capacity_ ≤ f.length_)
      (hm : f.managed_ = true) (hc : f.newCap 4 ≤ f.capacity_) : Appends h k f x ok (put h f x)
  | refused (hv : f.valid_ = true) (hb : ¬f.Full) (hn : f.capacity_ ≤ f.length_)
      (hm : f.managed_ = true) (hc : f.capacity_ < f.newCap 4) (hok : ok = false) :
      Appends h k f x ok ⟨h,f,some .insufficientMemory⟩
  | grown (hv : f.valid_ = true) (hb : ¬f.Full) (hn : f.capacity_ ≤ f.length_)
      (hm : f.managed_ = true) (hc : f.capacity_ < f.newCap 4) (hok : ok = true) :
      Appends h k f x ok (Sequence.put (grow h k f (f.newCap 4)).1 (grow h k f (f.newCap 4)).2 x)

theorem append_cases (h : Heap α) (k : ℕ) (f : Fields) (x : Elem α) (ok : Bool) :
    Appends h k f x ok (append h k f x ok) := by
  unfold append
  cases hv : f.valid_ with
  | false => exact .invalid hv
  | true =>
    rw [if_neg (by simp)]
    by_cases hb : f.bound_ ≠ unboundedSentinel ∧ f.bound_ ≤ f.length_
    · rw [if_pos hb]
      exact .full hv hb
    · rw [if_neg hb]
      by_cases hn : f.capacity_ ≤ f.length_
      · rw [if_pos hn]
        have hr := reserve_cases h k f (f.newCap 4) ok
        generalize reserve h k f (f.newCap 4) ok = r at hr
        cases hr with
        | precondition hm =>
          have hm : f.managed_ = false := by simpa [hv] using hm
          exact .unmanaged hv hb hn hm
        | enough _ hm hc => exact .wrapped hv hb hn hm hc
        | bound _ _ _ he => exact absurd he.2 (Nat.not_lt_of_le (f.newCap_le 4 he.1))
        | refused _ hm hc _ hok => exact .refused hv hb hn hm hc hok
        | grown _ hm hc _ hok => exact .grown hv hb hn hm hc hok
      · rw [if_neg hn]
        exact .put hv hb (Nat.lt_of_not_le hn)

/-- A constructor at work. -/
inductive Made (lends : Bool) (w : World α) : Act α Constructor → Outcome α → Prop
  | construct {make ok o} (ha : admissible lends w.heap.memory make = true)
      (ho : Constructs w.heap w.objects.length make ok o) : Made lends w (.construct make ok) o
  | copy {j g ok o} (hg : w.live? j = some g)
      (ho : CopiesFrom w.heap w.objects.length (.initial g.bound_) g ok o) :
      Made lends w (.copy j ok) o

variable {lends : Bool}

theorem makes_cases {w : World α} {a : Act α Constructor} {o : Outcome α}
    (h : Makes (given lends) w a o) : Made lends w a o := by
  cases h with
  | construct ha => exact .construct ha (construct_cases _ _ _ _)
  | copy hg => exact .copy hg (copyFrom_cases _ _ _ _ _)

/-- An object at work. -/
inductive Done (w : World α) (k : ℕ) (f : Fields) : Act α Constructor → Outcome α → Prop
  | assign {j g ok o} (hg : w.live? j = some g) (hne : k ≠ j) (ho : Assigns w.heap k f g ok o) :
      Done w k f (.assign k j ok) o
  | reserve {n ok o} (hn : n < 2^32) (ho : Reserves w.heap k f n ok o) :
      Done w k f (.reserve k n ok) o
  | clear : Done w k f (.clear k) ⟨w.heap,{ f with length_ := 0 },none⟩
  | append {e x ok o} (hx : w.resolve (given false) e = some x) (ho : Appends w.heap k f x ok o) :
      Done w k f (.append k e ok) o
  | next {j i g ok o} (hc : w.call = some ⟨k,j,i⟩) (hg : w.live? j = some g) (hi : i < g.length_)
      (ho : Appends (w.heap.access false g i) k f (.cell g.buf_ i) ok o) : Done w k f (.next ok) o

theorem does_cases {w : World α} {k : ℕ} {f : Fields} {a : Act α Constructor} {o : Outcome α}
    (h : Does (given lends) w k f a o) : Done w k f a o := by
  cases h with
  | assign hg hne => exact .assign hg hne (assign_cases _ _ _ _ _)
  | reserve hn => exact .reserve hn (reserve_cases _ _ _ _ _)
  | clear => exact .clear
  | append hx => exact .append hx (append_cases _ _ _ _ _)
  | next hc hg hi => exact .next hc hg hi (append_cases _ _ _ _ _)

/-- The pointer that a constructor is given. -/
def Constructor.pointer? : Constructor → Option ℕ
  | .default | .bounded _ => none
  | .cArray arr _ => arr
  | .unmanaged seq _ _ => seq

omit [Inhabited α] in
/-- It is usable. -/
theorem admissible_usable {m : Memory (Option ℕ) α} {make : Constructor} {b : ℕ}
    (h : admissible lends m make = true) (hb : make.pointer? = some b) :
    usable lends m (some b) = true := by
  cases make with
  | default | bounded => simp [Constructor.pointer?] at hb
  | cArray arr =>
    obtain rfl : arr = some b := hb
    simp only [admissible,Option.isNone_some,Bool.false_or,Bool.and_eq_true] at h
    exact h.1
  | unmanaged seq =>
    obtain rfl : seq = some b := hb
    simp only [admissible,Option.isNone_some,Bool.false_or,Bool.and_eq_true] at h
    exact h.1.1

/-! ## Confinement -/

section
variable (h : Heap α) (k : ℕ) (f seq : Fields) (n : ℕ)

@[simp] theorem memory_fill : (fill h k f seq).1.memory =
    (h.memory.add (some k) (List.replicate seq.length_ default)).copy h.memory.next seq.buf_
      seq.length_ := by
  simp [fill]

@[simp] theorem memory_grow : (grow h k f n).1.memory =
    ((h.memory.add (some k) (List.replicate n default)).copy h.memory.next f.buf_ f.length_).free
      f.buf_ := by
  simp [grow]

end

variable {h : Heap α} {k n : ℕ} {f seq : Fields} {ok : Bool} {x : Elem α} {o : Outcome α}

theorem apart_fill : Apart lends k (fill h k f seq).2 (fill h k f seq).1.memory := by
  rw [memory_fill]
  exact .inr ⟨some k,owner?_fresh _ _ _ _ _,.inl (.inr rfl)⟩

theorem apart_grow : Apart lends k (grow h k f n).2 (grow h k f n).1.memory := by
  refine .inr ⟨some k,?_,.inl (.inr rfl)⟩
  rw [memory_grow,owner?_free]
  exact owner?_fresh _ _ _ _ _

theorem apart_put (ha : Apart lends k f h.memory) :
    Apart lends k (put h f x).fields (put h f x).heap.memory :=
  Apart.of_keeps (f:=(put h f x).fields) ha fun _ _ hp => (owner?_write _ _).trans hp

theorem CopiesFrom.apart (ho : CopiesFrom h k f seq ok o) (ha : Apart lends k f h.memory) :
    Apart lends k o.fields o.heap.memory := by
  cases ho with
  | invalid | empty => exact ha
  | refused => exact .inl rfl
  | filled => exact apart_fill

theorem Appends.apart (ho : Appends h k f x ok o) (ha : Apart lends k f h.memory) :
    Apart lends k o.fields o.heap.memory := by
  cases ho with
  | invalid | full | unmanaged | refused => exact ha
  | put | wrapped => exact apart_put ha
  | grown => exact apart_put apart_grow

section confined
variable {S : Option ℕ → Option ℕ → Prop} (hk : S h.memory.next (some k))
  (hb : Within S h.memory f.buf_)
include hk

theorem confined_fill : Confined S h.memory (fill h k f seq).1.memory := by
  rw [memory_fill]
  exact confined_fresh _ _ _ _ _ hk

theorem CopiesFrom.confined (ho : CopiesFrom h k f seq ok o) :
    Confined S h.memory o.heap.memory := by
  cases ho with
  | invalid | refused | empty => exact .refl _
  | filled => exact confined_fill hk

include hb

theorem confined_grow : Confined S h.memory (grow h k f n).1.memory := by
  rw [memory_grow]
  have hc := confined_fresh k h.memory (List.replicate n default) f.buf_ f.length_ hk
  exact hc.trans (.free (hc.within hb))

theorem Appends.confined (ho : Appends h k f x ok o) : Confined S h.memory o.heap.memory := by
  cases ho with
  | invalid | full | unmanaged | refused => exact .refl _
  | put | wrapped => exact .write hb _ _
  | grown =>
    refine (confined_grow hk hb).trans (.write (fun o ho => ?_) _ _)
    rw [memory_grow,owner?_free] at ho
    exact Option.some.inj ((owner?_fresh _ _ _ _ _).symm.trans ho) ▸ hk

end confined

section
variable {w : World α} {a : Act α Constructor} {S : Option ℕ → Option ℕ → Prop}

/-- A constructor changes no block but its own. -/
theorem Made.confined (ho : Made lends w a o)
    (hk : S w.heap.memory.next (some w.objects.length)) :
    Confined S w.heap.memory o.heap.memory := by
  cases ho with
  | construct ha ho =>
    cases ho with
    | default | bounded | nullArray | refused | emptyArray | nullBuffer | unmanaged =>
      exact .refl _
    | filled => exact confined_fill hk
  | copy hg ho => exact ho.confined hk

/-- An operation changes no block but new ones and the one of the buffer. -/
theorem Done.confined (ho : Done w k f a o) (hk : S w.heap.memory.next (some k))
    (hb : Within S w.heap.memory f.buf_) : Confined S w.heap.memory o.heap.memory := by
  cases ho with
  | assign hg hne ho =>
    cases ho with
    | managed hm ho =>
      have hrest : Confined S (w.heap.delete k f.buf_).memory o.heap.memory :=
        ho.confined (by rwa [Heap.memory_delete,next_free])
      refine .trans ?_ hrest
      rw [Heap.memory_delete]
      exact .free hb
    | unmanaged hm ho => exact ho.confined hk
  | reserve hn ho =>
    cases ho with
    | precondition | enough | bound | refused => exact .refl _
    | grown => exact confined_grow hk hb
  | clear => exact .refl _
  | append hx ho => exact ho.confined hk hb
  | next hc hg hi ho => exact ho.confined (h:=w.heap.access false _ _) hk hb

end

/-- What an unmanaged object does releases nothing and replaces no block. -/
theorem Done.spares {w : World α} {a : Act α Constructor} (ho : Done w k f a o)
    (hm : f.managed_ = false) : Spares (Touches k) w.heap.memory o.heap.memory := by
  have hrefl : Spares (Touches k) w.heap.memory w.heap.memory := (Confined.refl _).spares
  cases ho with
  | assign hg hne ho =>
    cases ho with
    | managed hm' => simp [hm] at hm'
    | unmanaged _ ho => exact (ho.confined (.inr rfl)).spares
  | reserve hn ho =>
    cases ho with
    | precondition | enough | bound | refused => exact hrefl
    | grown _ hm' => simp [hm] at hm'
  | clear => exact hrefl
  | append hx ho | next hc hg hi ho =>
    cases ho with
    | invalid | full | unmanaged | refused => exact hrefl
    | put => exact .write _ _ _
    | wrapped _ _ _ hm' | grown _ _ _ hm' => simp [hm] at hm'

/-- An assignment to an unmanaged object with a buffer, from a source of `length()` zero. -/
def KeepsPointer (w : World α) (a : Act α Constructor) : Prop :=
  ∃ k j ok f g, a = .assign k j ok ∧ k ≠ j ∧ w.live? k = some f ∧ w.live? j = some g ∧
    f.managed_ = false ∧ f.buf_ ≠ none ∧ g.length = 0

/-- An unmanaged object that copies forgets its buffer, unless the assignment keeps the pointer. -/
theorem CopiesFrom.apart_of_lent (ho : CopiesFrom h k f seq ok o)
    (hn : f.buf_ ≠ none → seq.length ≠ 0) : Apart lends k o.fields o.heap.memory := by
  have hnone (hl : seq.length = 0) : f.buf_ = none := by
    by_contra hb
    exact hn hb hl
  cases ho with
  | invalid hv => exact .inl (hnone (by simp [Fields.length,hv]))
  | refused => exact .inl rfl
  | filled => exact apart_fill
  | empty hv hl => exact .inl (hnone (by simp [Fields.length,hv,hl]))

/-- No operation releases or replaces a block of another object, where the buffers that objects lend
are not kept. -/
theorem confines_given {slip : World α → Act α Constructor → Prop}
    (hslip : lends = true → ∀ w a, KeepsPointer w a → slip w a) :
    Confines (given lends) slip where
  makes {w a o} hm := by
    have ho := makes_cases hm
    refine ⟨(ho.confined (.inr rfl)).spares,?_⟩
    cases ho with
    | construct ha ho =>
      cases ho with
      | default | bounded | nullArray | refused | emptyArray | nullBuffer => exact .inl rfl
      | filled => exact apart_fill
      | unmanaged =>
        obtain ⟨o,ho,ht⟩ := owner?_of_usable (admissible_usable ha rfl)
        exact .inr ⟨o,ho,ht.imp .inl fun hl => ⟨hl,rfl⟩⟩
    | copy hg ho => exact ho.apart (.inl rfl)
  does {w k f a o} hf ha hn hd := by
    have ho := does_cases hd
    refine ⟨?_,?_⟩
    · cases hm : f.managed_ with
      | false => exact ho.spares hm
      | true => exact (ho.confined (.inr rfl) (ha.within hm)).spares
    cases ho with
    | assign hg hne ho =>
      cases ho with
      | managed hm ho => exact ho.apart (.inl rfl)
      | unmanaged hm ho =>
        cases hl : lends with
        | true =>
          refine ho.apart_of_lent fun hb hlen => ?_
          exact hn (hslip hl _ _ ⟨_,_,_,_,_,rfl,hne,hf,hg,hm,hb,hlen⟩)
        | false =>
          refine ho.apart (ha.imp_right fun ⟨o,ho,ht⟩ => ⟨o,ho,.inl (ht.resolve_right ?_)⟩)
          simp [given,hl]
    | reserve hn ho =>
      cases ho with
      | precondition | enough | bound | refused => exact ha
      | grown => exact apart_grow
    | clear => exact ha
    | append hx ho => exact ho.apart ha
    | next hc hg hi ho => exact ho.apart ha

theorem confines {slip : World α → Act α Constructor → Prop} :
    Confines (sequence (α:=α)) slip := confines_given (by simp)

end Blush.Storage.Sequence
