import Blush.Lib.MachineInt

/-! The callbacks of an `EventDispatcher`: a map from registration ids to callables, which is
kept as the list of its entries in the order of the ids. -/
namespace Blush.EventDispatcher
open MachineInt
variable {κ : Type}

/-- `State`: the callbacks and the id of the next registration, an `int`. -/
structure State (κ : Type) where
  callbacks : List (ℤ × κ)
  nextId : ℤ
  deriving DecidableEq, Repr

def State.empty : State κ := ⟨[],0⟩

/-- `std::map::emplace`: a key that is present keeps its value. -/
def emplace (id : ℤ) (callback : κ) : List (ℤ × κ) → List (ℤ × κ)
  | [] => [(id,callback)]
  | (i,x)::l =>
    if id < i then (id,callback)::(i,x)::l
    else if id = i then (i,x)::l
    else (i,x)::emplace id callback l

/-- `Register`, with the id its handle gets. -/
def register (s : State κ) (callback : κ) : State κ × ℤ :=
  ({ callbacks := emplace s.nextId callback s.callbacks, nextId := wrap 32 (s.nextId+1) },s.nextId)

/-- `std::map::erase` of a key. -/
def erase (s : State κ) (id : ℤ) : State κ :=
  { s with callbacks := s.callbacks.filter fun x => x.1 ≠ id }

/-- A key past all others goes to the end. -/
theorem emplace_of_lt {id : ℤ} {callback : κ} {l : List (ℤ × κ)} (h : ∀ x ∈ l, x.1 < id) :
    emplace id callback l = l ++ [(id,callback)] := by
  induction l with
  | nil => rfl
  | cons x l ih =>
    have hx := h x (by simp)
    rw [emplace,if_neg (by omega),if_neg (by omega),ih fun y hy => h y (by simp [hy])]
    rfl

/-- What `emplace` leaves in the map was there before or is new. -/
theorem mem_emplace {id : ℤ} {callback : κ} {l : List (ℤ × κ)} {x : ℤ × κ}
    (h : x ∈ emplace id callback l) : x = (id,callback) ∨ x ∈ l := by
  induction l with
  | nil => exact .inl (List.mem_singleton.mp h)
  | cons y l ih =>
    rw [emplace] at h
    split at h
    · exact List.mem_cons.mp h
    · split at h
      · exact .inr h
      · rcases List.mem_cons.mp h with rfl | h
        · exact .inr List.mem_cons_self
        · exact (ih h).imp_right (List.mem_cons_of_mem _)

end Blush.EventDispatcher
