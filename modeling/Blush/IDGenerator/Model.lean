import Mathlib.Logic.Function.Basic
import Blush.Lib.MachineInt

/-! `IDGenerator<T>`: any number of threads that take their ids from one counter. -/
namespace Blush.IDGenerator
open MachineInt
variable {θ : Type} [DecidableEq θ]

/-- What the constructor accepts. -/
structure Initial (T : IntegralType) where
  value : ℤ
  holds : T.Holds value
  nonzero : value ≠ 0

/-- A generator and the calls of `Next`: what `fetch_add` has given to a thread that has not
returned yet, and what calls have returned. -/
structure World (θ : Type) where
  next : ℤ
  fetched : θ → Option ℤ
  returned : List ℤ

def World.create (initial : ℤ) : World θ := ⟨initial,fun _ => none,[]⟩

/-- A call of `Next` reads and increments the counter in one step and returns in another one. -/
inductive Act (θ : Type)
  | fetchAdd (t : θ)
  | ret (t : θ)
  deriving DecidableEq, Repr

def step (T : IntegralType) (w : World θ) (a : Act θ) : Option (World θ) :=
  match a with
  | .fetchAdd t =>
    if w.fetched t = none then
      some { w with
        next := T.wrap (w.next+1)
        fetched := Function.update w.fetched t (some w.next) }
    else none
  | .ret t =>
    (w.fetched t).map fun id => { w with
      fetched := Function.update w.fetched t none
      returned := w.returned ++ [id] }

end Blush.IDGenerator
