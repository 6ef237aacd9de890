import Mathlib.Data.List.AList
import Blush.Face.Common

/-! The injection store of `UopBase`: for each type `t` of injected references a static map from the
address of an object to the references by name. The objects come and go; the maps stay. -/
namespace Blush.Injection
open Face
variable {τ : Type} [DecidableEq τ] {V : τ → Type}

/-- `m_injectionData`; a key of the inner map is a C string. -/
abbrev Store (V : τ → Type) := (t : τ) → AList fun _ : ℕ => AList fun _ : List UInt8 => V t

/-- `UopBase::InjectedExists`. -/
def injectedExists (store : Store V) (this : ℕ) (t : τ) (name : StringType) : Bool :=
  match (store t).lookup this with
  | none => false
  | some inner => (inner.lookup name.cStr).isSome

/-- `UopBase::GetInjected`, with what it throws. -/
def getInjected (store : Store V) (this : ℕ) (t : τ) (name : StringType) : Except String (V t) :=
  match (store t).lookup this with
  | none => .error "UopBase::GetInjected - no injected entries for requested type"
  | some inner =>
    match inner.lookup name.cStr with
    | none => .error "UopBase::GetInjected - no entry for requested name"
    | some injected => .ok injected

/-- `UopBase::Inject`. -/
def inject (store : Store V) (this : ℕ) (t : τ) (name : StringType) (injected : V t) : Store V :=
  let inner := ((store t).lookup this).getD ∅
  Function.update store t ((store t).insert this (inner.insert name.cStr injected))

/-- `UopBase::Set_Reference`. -/
def setReference (store : Store V) (this : ℕ) (t : τ) (name : StringType) (reference : V t) :
    Store V × ReturnCode := (inject store this t name reference,.notAvailable)

/-- `FaceInjectable::Set_Reference`. -/
def setTypedReference (store : Store V) (this : ℕ) (t : τ) (name : StringType)
    (reference : V t) : Store V × ReturnCode := (inject store this t name reference,.noError)

/-- A `UopBase` and its address. -/
structure Object where
  address : ℕ
  alive : Bool
  deriving DecidableEq, Repr

/-- The objects by the order of their construction, the store, and what the last `Set_Reference`
returned. -/
structure World (V : τ → Type) where
  objects : List Object
  store : Store V
  lastReturn : Option ReturnCode

def World.init : World V := ⟨[],fun _ => ∅,none⟩

/-- What can happen; the lookups change nothing. -/
inductive Act (V : τ → Type)
  | construct (address : ℕ)
  | destroy (i : ℕ)
  | inject (i : ℕ) (t : τ) (name : StringType) (injected : V t)
  | setReference (i : ℕ) (t : τ) (name : StringType) (reference : V t)

/-- The object number `i`, unless it was destroyed. -/
def World.live? (w : World V) (i : ℕ) : Option Object := w.objects[i]?.filter Object.alive

/-- A step. Objects that exist at the same time have different addresses. `base` is the type
`FACE::TSS::Base*`, whose `Set_Reference` is that of `UopBase`. -/
def step (base : τ) (w : World V) (a : Act V) : Option (World V) :=
  match a with
  | .construct address =>
    if w.objects.all fun o => !(o.alive && o.address == address) then
      some { w with objects := w.objects ++ [⟨address,true⟩] }
    else none
  | .destroy i =>
    (w.live? i).map fun o => { w with objects := w.objects.set i { o with alive := false } }
  | .inject i t name injected =>
    (w.live? i).map fun o => { w with store := inject w.store o.address t name injected }
  | .setReference i t name reference =>
    (w.live? i).map fun o =>
      let r := if t = base then setReference w.store o.address t name reference
        else setTypedReference w.store o.address t name reference
      { w with store := r.1, lastReturn := some r.2 }

end Blush.Injection
