import Mathlib.Algebra.Group.Nat.Defs
import Blush.Lib.Memory

/-! `FACE::String` and `FACE::Sequence<T>` have the same six fields and the same kinds of
operations. This file has what they share: the fields with their observers, the heap, and the
programs over any number of objects of one of the two classes, which is a parameter here. -/
namespace Blush.Storage
variable {α κ : Type}

/-- `RETURN_CODE`. -/
inductive ReturnCode
  | noError
  | insufficientBound
  | insufficientMemory
  | preconditionViolated
  deriving DecidableEq, Repr

/-- What an `UnsignedLong` keeps of a number. -/
def u32 (n : ℕ) : ℕ := n % 2^32

/-- `UNBOUNDED_SENTINEL`. -/
def unboundedSentinel : ℕ := 2^32-1

/-- The fields of an object. A pointer is the number of its block, or `none` when it is null. -/
structure Fields where
  buf_ : Option ℕ
  length_ : ℕ
  capacity_ : ℕ
  bound_ : ℕ
  managed_ : Bool
  valid_ : Bool
  deriving DecidableEq, Repr

namespace Fields
variable (f : Fields)

def length : ℕ := if f.valid_ then f.length_ else 0
def capacity : ℕ := if f.valid_ then f.capacity_ else 0
def bound : ℕ := if f.valid_ then f.bound_ else 0
def isManaged : Bool := if f.valid_ then f.managed_ else false
def isBounded : Bool := if f.valid_ then f.bound_ != unboundedSentinel else false
def isValid : Bool := f.valid_

/-- The members of a constructor that manages its storage, before its body. -/
def initial (bound : ℕ) : Fields := ⟨none,0,0,bound,true,false⟩

/-- What the assignment operators make of the fields before they look at the source. -/
def released (bound : ℕ) : Fields := { f with
  length_ := 0, capacity_ := 0, bound_ := bound, managed_ := true, valid_ := false }

/-- `new_cap` of `append`, where `first` is the capacity that an object gets first. -/
def newCap (first : ℕ) : ℕ :=
  let cap := if f.capacity_ = 0 then first else u32 (f.capacity_*2)
  if f.bound_ ≠ unboundedSentinel ∧ f.bound_ < cap then f.bound_ else cap

end Fields

/-- A pointer that `buffer` returns; `literal` is the static `""`. -/
inductive Pointer
  | null
  | block (b : ℕ)
  | literal
  deriving DecidableEq, Repr

/-- A use of `buf_[index]`: whether it is written, the two flags of the object and how many elements
its buffer holds, which for unmanaged storage is the bound that the caller gave. -/
structure Access where
  write : Bool
  managed : Bool
  valid : Bool
  index : ℕ
  held : ℕ
  deriving DecidableEq, Repr

/-- A `delete[]`: the object that executed it, the block, and its owner and whether it was live. -/
structure Delete where
  object : ℕ
  block : ℕ
  owner : Option (Option ℕ)
  live : Bool
  deriving DecidableEq, Repr

/-- The memory, where an owner is the number of an object or `none` for the caller, and the uses of
buffers and the `delete[]`s so far, the latest first. -/
structure Heap (α : Type) where
  memory : Memory (Option ℕ) α
  accesses : List Access
  deletes : List Delete
  deriving DecidableEq, Repr

namespace Heap

/-- How many elements the buffer of an object holds. -/
def held (h : Heap α) (f : Fields) : ℕ :=
  if f.managed_ then (h.memory.cells f.buf_).length else f.bound_

def access (h : Heap α) (write : Bool) (f : Fields) (i : ℕ) : Heap α :=
  { h with accesses := ⟨write,f.managed_,f.valid_,i,h.held f⟩::h.accesses }

/-- `buf_[i] = v`. -/
def store (h : Heap α) (f : Fields) (i : ℕ) (v : α) : Heap α :=
  { h.access true f i with memory := h.memory.write f.buf_ i v }

/-- The first `n` elements of the source's buffer go to that of the target. -/
def copy [Inhabited α] (h : Heap α) (dst src : Fields) : ℕ → Heap α
  | 0 => h
  | n+1 =>
    let read := (h.copy dst src n).access false src n
    read.store dst n (read.memory.read src.buf_ n)

/-- `new T[n]`, when it succeeds; the new pointer is `h.memory.next`. -/
def alloc [Inhabited α] (h : Heap α) (this n : ℕ) : Heap α :=
  { h with memory := h.memory.alloc (some this) n }

/-- `if (p) delete[] p`. -/
def delete (h : Heap α) (this : ℕ) (p : Option ℕ) : Heap α :=
  match p with
  | none => h
  | some b => { h with
    memory := h.memory.free p
    deletes := ⟨this,b,h.memory.owner? p,h.memory.live p⟩::h.deletes }

end Heap

/-- The argument of `append(elem)` is a reference: to a variable of the caller, or into a buffer. -/
inductive Elem (α : Type)
  | value (v : α)
  | cell (p : Option ℕ) (i : ℕ)
  deriving DecidableEq, Repr

/-- What it refers to at a moment. -/
def Elem.get [Inhabited α] (m : Memory (Option ℕ) α) : Elem α → α
  | .value v => v
  | .cell p i => m.read p i

/-- Whether a constructor may be given a pointer that is not null: to memory of the caller or, when
objects lend their buffers, to any live block. -/
def usable (lends : Bool) (m : Memory (Option ℕ) α) (p : Option ℕ) : Bool :=
  m.owner? p == some none || lends && m.live p

/-- What an operation of one object leaves, with its return code, if it has one. -/
structure Outcome (α : Type) where
  heap : Heap α
  fields : Fields
  returned : Option ReturnCode
  deriving DecidableEq, Repr

/-- What `String` and `Sequence` define themselves; `κ` are the constructors other than the copy
constructor. The object is given by its number and its fields, the source of a copy by its fields,
and a boolean argument says whether an allocation succeeds. Constructors are given pointers to
memory of the caller, and with `lends` to buffers of objects too. -/
structure Class (α κ : Type) where
  lends : Bool
  admissible : Memory (Option ℕ) α → κ → Bool
  construct : Heap α → ℕ → κ → Bool → Outcome α
  copy : Heap α → ℕ → Fields → Bool → Outcome α
  assign : Heap α → ℕ → Fields → Fields → Bool → Outcome α
  reserve : Heap α → ℕ → Fields → ℕ → Bool → Outcome α
  clear : Heap α → Fields → Outcome α
  append : Heap α → ℕ → Fields → Elem α → Bool → Outcome α
  index : Fields → ℕ → Elem α
  buffer : Fields → Pointer

/-- `append(src)` in progress: the two objects and `i`. -/
structure Call where
  target : ℕ
  source : ℕ
  index : ℕ
  deriving DecidableEq, Repr

/-- The objects by the order of their construction, `none` being a destroyed one. -/
structure World (α : Type) where
  heap : Heap α
  objects : List (Option Fields)
  call : Option Call
  returned : Option ReturnCode
  deriving DecidableEq, Repr

def World.init : World α := ⟨⟨.empty,[],[]⟩,[],none,none⟩

/-- The argument of `append(elem)` as a program writes it. -/
inductive Arg (α : Type)
  | value (v : α)
  | element (j i : ℕ)
  deriving DecidableEq, Repr

/-- What a program does. `caller` makes memory of the caller's own; `appendAll` is `append(src)` up
to its loop and `next` is one iteration. -/
inductive Act (α κ : Type)
  | caller (cells : List α)
  | construct (make : κ) (ok : Bool)
  | copy (j : ℕ) (ok : Bool)
  | assign (k j : ℕ) (ok : Bool)
  | destroy (k : ℕ)
  | reserve (k n : ℕ) (ok : Bool)
  | clear (k : ℕ)
  | append (k : ℕ) (e : Arg α) (ok : Bool)
  | appendAll (k j : ℕ)
  | next (ok : Bool)
  deriving DecidableEq, Repr

namespace World
variable (w : World α)

/-- The object number `k`, unless it was destroyed. -/
def live? (k : ℕ) : Option Fields := w.objects[k]?.join

/-- What `append(elem)` is called with. -/
def resolve (c : Class α κ) : Arg α → Option (Elem α)
  | .value v => some (.value v)
  | .element j i => (w.live? j).map fun g => c.index g i

/-- A new object. -/
def push (o : Outcome α) : World α :=
  { w with heap := o.heap, objects := w.objects ++ [some o.fields], returned := o.returned }

def put (k : ℕ) (o : Outcome α) : World α :=
  { w with heap := o.heap, objects := w.objects.set k (some o.fields), returned := o.returned }

/-- The destructor. -/
def destroy (k : ℕ) (f : Fields) : World α :=
  { w with
    heap := if f.managed_ then w.heap.delete k f.buf_ else w.heap
    objects := w.objects.set k none
    returned := none }

/-- The beginning of `append(src)`. -/
def appendAll (k j : ℕ) (f : Fields) : World α :=
  if !f.valid_ then { w with returned := some .preconditionViolated }
  else { w with call := some ⟨k,j,0⟩, returned := none }

/-- An iteration of `append(src)`, or its end. `++i` does not wrap below `length_`. -/
def next (c : Class α κ) (call : Call) (f g : Fields) (ok : Bool) : World α :=
  if call.index < g.length_ then
    let o := c.append (w.heap.access false g call.index) call.target f
      (.cell g.buf_ call.index) ok
    if o.returned = some .noError then
      { w.put call.target o with
        call := some { call with index := call.index+1 }, returned := none }
    else { w.put call.target o with call := none }
  else { w with call := none, returned := some .noError }

end World

/-- A step of a program. Pointers that it passes are admissible, and numbers are `UnsignedLong`s. -/
def step (c : Class α κ) (w : World α) (a : Act α κ) : Option (World α) :=
  match w.call,a with
  | some call,.next ok =>
    (w.live? call.target).bind fun f => (w.live? call.source).map fun g => w.next c call f g ok
  | some _,_ | none,.next _ => none
  | none,.caller cells =>
    some { w with heap := { w.heap with memory := w.heap.memory.add none cells } }
  | none,.construct make ok =>
    if c.admissible w.heap.memory make then
      some (w.push (c.construct w.heap w.objects.length make ok))
    else none
  | none,.copy j ok =>
    (w.live? j).map fun g => w.push (c.copy w.heap w.objects.length g ok)
  | none,.assign k j ok =>
    (w.live? k).bind fun f => (w.live? j).map fun g =>
      if k = j then { w with returned := none } else w.put k (c.assign w.heap k f g ok)
  | none,.destroy k => (w.live? k).map fun f => w.destroy k f
  | none,.reserve k n ok =>
    if n < 2^32 then (w.live? k).map fun f => w.put k (c.reserve w.heap k f n ok) else none
  | none,.clear k => (w.live? k).map fun f => w.put k (c.clear w.heap f)
  | none,.append k e ok =>
    (w.live? k).bind fun f => (w.resolve c e).map fun x => w.put k (c.append w.heap k f x ok)
  | none,.appendAll k j =>
    (w.live? k).bind fun f => (w.live? j).map fun _ => w.appendAll k j f

end Blush.Storage
