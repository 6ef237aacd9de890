import Blush.Storage.Model

/-! `FACE::String`. -/
namespace Blush.Storage.String

/-- A `char`, or `none` for one that was never written. -/
abbrev Cell := Option UInt8

def nul : Cell := some 0

/-- The constructors other than the copy constructor. -/
inductive Constructor
  | default
  | bounded (bound : ℕ)
  | wrap (str : Option ℕ)
  | cString (str : Option ℕ)
  | unmanaged (str : Option ℕ) (length bound : ℕ)
  deriving DecidableEq, Repr

/-- The characters in front of the first NUL. -/
def chars (m : Memory (Option ℕ) Cell) (str : Option ℕ) : List Cell :=
  (m.cells str).takeWhile (· ≠ nul)

/-- `static_cast<UnsignedLong>(std::strlen(str))`. -/
def strlen (m : Memory (Option ℕ) Cell) (str : Option ℕ) : ℕ := u32 (chars m str).length

/-- A C string that the caller passes, seen through the fields of an object. -/
def view (str : Option ℕ) (length : ℕ) : Fields := ⟨str,length,length,length,false,true⟩

/-- The pointers are null or usable, what is a `const char*` points to a C string, and the numbers are
`UnsignedLong`s. -/
def admissible (lends : Bool) (m : Memory (Option ℕ) Cell) : Constructor → Bool
  | .default => true
  | .bounded bound => bound < 2^32
  | .wrap str | .cString str =>
    str.isNone || usable lends m str && (m.cells str).contains nul
  | .unmanaged str length bound =>
    (str.isNone || usable lends m str) && length < 2^32 && bound < 2^32

/-- `allocate`, when `new` succeeds. -/
def allocated (h : Heap Cell) (this : ℕ) (f : Fields) (chars : ℕ) (preserve : Bool) :
    Heap Cell × Fields :=
  let g := { f with buf_ := h.memory.next }
  let new := h.alloc this (u32 (chars+1))
  let filled := if preserve && f.buf_.isSome then
      (new.copy g f f.length_).store g f.length_ nul
    else new.store g 0 nul
  (filled.delete this f.buf_,{ g with capacity_ := chars })

/-- `allocate`; `none` when it returns false. -/
def allocate (h : Heap Cell) (this : ℕ) (f : Fields) (chars : ℕ) (preserve ok : Bool) :
    Option (Heap Cell × Fields) :=
  if ok then some (allocated h this f chars preserve) else none

/-- The rest of a constructor or of `operator=` that copies a string, after `allocate`. A source of
positive length has a buffer, so that `""` does not stand in for it. -/
def fill (h : Heap Cell) (f str : Fields) : Heap Cell × Fields :=
  ((h.copy f str str.length_).store f str.length_ nul,
    { f with length_ := str.length_, valid_ := true })

/-- The default constructor. -/
def default : Fields := { Fields.initial unboundedSentinel with valid_ := true }

/-- The bounded constructor. -/
def bounded (h : Heap Cell) (bound : ℕ) : Outcome Cell :=
  let f := Fields.initial 0
  if bound = 0 ∨ bound = unboundedSentinel then ⟨h,f,some .preconditionViolated⟩
  else ⟨h,{ f with bound_ := bound, valid_ := true },some .noError⟩

/-- `String(const char*)`. -/
def wrap (h : Heap Cell) (str : Option ℕ) : Outcome Cell :=
  let length := if str.isSome then strlen h.memory str else 0
  ⟨h,⟨str,length,length,length,false,str.isSome⟩,none⟩

/-- `String(const char*, RETURN_CODE&)`. -/
def cString (h : Heap Cell) (this : ℕ) (str : Option ℕ) (ok : Bool) : Outcome Cell :=
  if str.isNone then ⟨h,.initial 0,some .preconditionViolated⟩
  else
    let len := strlen h.memory str
    let f := Fields.initial len
    match allocate h this f len false ok with
    | none => ⟨h,f,some .insufficientMemory⟩
    | some r =>
      let filled := fill r.1 r.2 (view str len)
      ⟨filled.1,filled.2,some .noError⟩

/-- The unmanaged constructor with length and bound. -/
def unmanaged (h : Heap Cell) (str : Option ℕ) (length bound : ℕ) : Outcome Cell :=
  let f : Fields := ⟨str,length,bound,bound,false,false⟩
  if str.isNone ∨ bound < length ∨ bound = 0 ∨ bound = unboundedSentinel then
    ⟨h,f,some .preconditionViolated⟩
  else ⟨h,{ f with valid_ := true },some .noError⟩

def construct (h : Heap Cell) (this : ℕ) (make : Constructor) (ok : Bool) : Outcome Cell :=
  match make with
  | .default => ⟨h,default,none⟩
  | .bounded bound => bounded h bound
  | .wrap str => wrap h str
  | .cString str => cString h this str ok
  | .unmanaged str length bound => unmanaged h str length bound

/-- The common rest of the copy constructor and of the assignment operator. -/
def copyFrom (h : Heap Cell) (this : ℕ) (f str : Fields) (ok : Bool) : Outcome Cell :=
  if !str.valid_ then ⟨h,f,none⟩
  else
    match allocate h this f str.length_ false ok with
    | none => ⟨h,f,none⟩
    | some r =>
      let filled := fill r.1 r.2 str
      ⟨filled.1,filled.2,none⟩

/-- The copy constructor. -/
def copy (h : Heap Cell) (this : ℕ) (str : Fields) (ok : Bool) : Outcome Cell :=
  copyFrom h this (.initial str.bound_) str ok

/-- `operator=` for another object. -/
def assign (h : Heap Cell) (this : ℕ) (f str : Fields) (ok : Bool) : Outcome Cell :=
  let h' := if f.managed_ then h.delete this f.buf_ else h
  copyFrom h' this { f.released str.bound_ with buf_ := none } str ok

/-- `reserve`. -/
def reserve (h : Heap Cell) (this : ℕ) (f : Fields) (capacity : ℕ) (ok : Bool) : Outcome Cell :=
  if !f.valid_ || !f.managed_ || f.isBounded then ⟨h,f,some .preconditionViolated⟩
  else if capacity ≤ f.capacity_ then ⟨h,f,some .noError⟩
  else
    match allocate h this f capacity true ok with
    | none => ⟨h,f,some .insufficientMemory⟩
    | some r => ⟨r.1,r.2,some .noError⟩

/-- `clear`, which does not look at `valid_`. -/
def clear (h : Heap Cell) (f : Fields) : Outcome Cell :=
  ⟨if f.buf_.isSome then h.store f 0 nul else h,{ f with length_ := 0 },none⟩

/-- `buf_[length_++] = elem; buf_[length_] = '\0';`. -/
def put (h : Heap Cell) (f : Fields) (elem : Elem Cell) : Outcome Cell :=
  let length := u32 (f.length_+1)
  ⟨(h.store f f.length_ (elem.get h.memory)).store f length nul,
    { f with length_ := length },some .noError⟩

/-- `append(elem)`. -/
def append (h : Heap Cell) (this : ℕ) (f : Fields) (elem : Elem Cell) (ok : Bool) :
    Outcome Cell :=
  if !f.valid_ then ⟨h,f,some .preconditionViolated⟩
  else if f.bound_ ≠ unboundedSentinel ∧ f.bound_ ≤ f.length_ then
    ⟨h,f,some .insufficientBound⟩
  else if f.capacity_ ≤ f.length_ then
    if !f.managed_ then ⟨h,f,some .insufficientMemory⟩
    else
      match allocate h this f (f.newCap 8) true ok with
      | none => ⟨h,f,some .insufficientMemory⟩
      | some r => put r.1 r.2 elem
  else put h f elem

/-- `operator[]`. -/
def index (f : Fields) (i : ℕ) : Elem Cell :=
  if !f.valid_ ∨ f.length_ ≤ i then .value nul else .cell f.buf_ i

/-- `buffer`. -/
def buffer (f : Fields) : Pointer :=
  if !f.valid_ then .null
  else
    match f.buf_ with
    | some b => .block b
    | none => .literal

/-- `String` with the pointers that constructors may be given. -/
def given (lends : Bool) : Class Cell Constructor :=
  ⟨lends,admissible lends,construct,copy,assign,reserve,clear,append,index,buffer⟩

/-- `String`, over any memory: of the caller or of other strings. -/
def lending : Class Cell Constructor := given true

end String

/-- `String`, unmanaged ones being over memory of the caller. -/
def string : Class String.Cell String.Constructor := String.given false

end Blush.Storage
