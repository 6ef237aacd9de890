import Blush.Storage.Model

/-! `FACE::Sequence<T>`. -/
namespace Blush.Storage.Sequence
variable {α : Type} [Inhabited α]

/-- The constructors other than the copy constructor. -/
inductive Constructor
  | default
  | bounded (bound : ℕ)
  | cArray (arr : Option ℕ) (length : ℕ)
  | unmanaged (seq : Option ℕ) (length bound : ℕ)
  deriving DecidableEq, Repr

/-- A C array that the caller passes, seen through the fields of an object. -/
def view (arr : Option ℕ) (length : ℕ) : Fields := ⟨arr,length,length,length,false,true⟩

/-- The pointers are null or usable, the numbers are `UnsignedLong`s. -/
def admissible (lends : Bool) (m : Memory (Option ℕ) α) : Constructor → Bool
  | .default => true
  | .bounded bound => bound < 2^32
  | .cArray arr length => (arr.isNone || usable lends m arr) && length < 2^32
  | .unmanaged seq length bound =>
    (seq.isNone || usable lends m seq) && length < 2^32 && bound < 2^32

/-- What the copy constructor, the assignment operator and the C-array constructor do when they
have memory for the elements of `seq`. -/
def fill (h : Heap α) (this : ℕ) (f seq : Fields) : Heap α × Fields :=
  let g := { f with buf_ := h.memory.next }
  ((h.alloc this seq.length_).copy g seq seq.length_,
    { g with capacity_ := seq.length_, length_ := seq.length_, valid_ := true })

/-- The C-array constructor. -/
def cArray (h : Heap α) (this : ℕ) (arr : Option ℕ) (length : ℕ) (ok : Bool) : Outcome α :=
  let f := Fields.initial length
  if arr.isNone then ⟨h,f,some .preconditionViolated⟩
  else if 0 < length then
    if !ok then ⟨h,f,some .insufficientMemory⟩
    else
      let filled := fill h this f (view arr length)
      ⟨filled.1,filled.2,some .noError⟩
  else ⟨h,{ f with length_ := length, valid_ := true },some .noError⟩

/-- The unmanaged constructor. -/
def unmanaged (h : Heap α) (seq : Option ℕ) (length bound : ℕ) : Outcome α :=
  let f : Fields := ⟨seq,length,bound,bound,false,false⟩
  if seq.isNone then ⟨h,f,some .preconditionViolated⟩
  else ⟨h,{ f with valid_ := true },some .noError⟩

def construct (h : Heap α) (this : ℕ) (make : Constructor) (ok : Bool) : Outcome α :=
  match make with
  | .default => ⟨h,{ Fields.initial unboundedSentinel with valid_ := true },none⟩
  | .bounded bound => ⟨h,{ Fields.initial bound with valid_ := true },some .noError⟩
  | .cArray arr length => cArray h this arr length ok
  | .unmanaged seq length bound => unmanaged h seq length bound

/-- The common rest of the copy constructor and of the assignment operator. A failed allocation
stores the null pointer in `buf_`. -/
def copyFrom (h : Heap α) (this : ℕ) (f seq : Fields) (ok : Bool) : Outcome α :=
  if !seq.valid_ then ⟨h,f,none⟩
  else if 0 < seq.length_ then
    if !ok then ⟨h,{ f with buf_ := none },none⟩
    else
      let filled := fill h this f seq
      ⟨filled.1,filled.2,none⟩
  else ⟨h,{ f with length_ := seq.length_, valid_ := true },none⟩

/-- The copy constructor. -/
def copy (h : Heap α) (this : ℕ) (seq : Fields) (ok : Bool) : Outcome α :=
  copyFrom h this (.initial seq.bound_) seq ok

/-- `operator=` for another object. Only a managed buffer is released, and only then `buf_` is set
to null. -/
def assign (h : Heap α) (this : ℕ) (f seq : Fields) (ok : Bool) : Outcome α :=
  if f.managed_ then
    copyFrom (h.delete this f.buf_) this { f.released seq.bound_ with buf_ := none } seq ok
  else copyFrom h this (f.released seq.bound_) seq ok

/-- What `reserve` does when it has memory for `cap` elements. -/
def grow (h : Heap α) (this : ℕ) (f : Fields) (cap : ℕ) : Heap α × Fields :=
  let g := { f with buf_ := h.memory.next }
  (((h.alloc this cap).copy g f f.length_).delete this f.buf_,{ g with capacity_ := cap })

/-- `reserve`. -/
def reserve (h : Heap α) (this : ℕ) (f : Fields) (cap : ℕ) (ok : Bool) : Outcome α :=
  if !f.valid_ then ⟨h,f,some .preconditionViolated⟩
  else if !f.managed_ then ⟨h,f,some .preconditionViolated⟩
  else if cap ≤ f.capacity_ then ⟨h,f,some .noError⟩
  else if f.bound_ ≠ unboundedSentinel ∧ f.bound_ < cap then ⟨h,f,some .insufficientBound⟩
  else if !ok then ⟨h,f,some .insufficientMemory⟩
  else
    let grown := grow h this f cap
    ⟨grown.1,grown.2,some .noError⟩

/-- `clear`. -/
def clear (h : Heap α) (f : Fields) : Outcome α := ⟨h,{ f with length_ := 0 },none⟩

/-- `buf_[length_++] = elem`. -/
def put (h : Heap α) (f : Fields) (elem : Elem α) : Outcome α :=
  ⟨h.store f f.length_ (elem.get h.memory),{ f with length_ := u32 (f.length_+1) },some .noError⟩

/-- `append(elem)`. -/
def append (h : Heap α) (this : ℕ) (f : Fields) (elem : Elem α) (ok : Bool) : Outcome α :=
  if !f.valid_ then ⟨h,f,some .preconditionViolated⟩
  else if f.bound_ ≠ unboundedSentinel ∧ f.bound_ ≤ f.length_ then
    ⟨h,f,some .insufficientBound⟩
  else if f.capacity_ ≤ f.length_ then
    let r := reserve h this f (f.newCap 4) ok
    if r.returned ≠ some .noError then r else put r.heap r.fields elem
  else put h f elem

/-- `operator[]`. -/
def index (f : Fields) (i : ℕ) : Elem α := .cell f.buf_ i

/-- `buffer`. -/
def buffer (f : Fields) : Pointer :=
  match f.buf_ with
  | none => .null
  | some b => .block b

/-- `Sequence<T>` with the pointers that constructors may be given. -/
def given (lends : Bool) : Class α Constructor :=
  ⟨lends,admissible lends,construct,copy,assign,reserve,clear,append,index,buffer⟩

/-- `Sequence<T>`, over any memory: of the caller or of other sequences. -/
def lending : Class α Constructor := given true

end Sequence

/-- `Sequence<T>`, unmanaged ones being over memory of the caller. -/
def sequence {α : Type} [Inhabited α] : Class α Sequence.Constructor := Sequence.given false

end Blush.Storage
