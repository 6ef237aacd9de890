import Blush.Connections.EventDispatcher

/-! `EventDispatcher` objects that come, move and go. A dispatcher owns its state by a
`shared_ptr`, which a move takes along; a handle refers to it by a `weak_ptr` and an id. -/
namespace Blush.EventDispatcher
variable {κ : Type}

/-- An `EventDispatcher`; `m_state` is null after a move from it. -/
structure Dispatcher where
  alive : Bool
  state : Option ℕ
  deriving DecidableEq, Repr

/-- `RegistrationHandle`. -/
structure RegistrationHandle where
  state : Option ℕ
  id : ℤ
  deriving DecidableEq, Repr

/-- The objects by the order they were made in; a destroyed state is `none`. -/
structure World (κ : Type) where
  states : List (Option (State κ))
  dispatchers : List Dispatcher
  handles : List RegistrationHandle
  deriving DecidableEq, Repr

def World.init : World κ := ⟨[],[],[]⟩

/-- The callbacks that `operator()` calls. -/
def snapshot (s : State κ) : List κ := s.callbacks.map Prod.snd

namespace World
variable (w : World κ)

/-- The dispatcher number `d`, unless it was destroyed. -/
def live? (d : ℕ) : Option Dispatcher := w.dispatchers[d]?.filter Dispatcher.alive

/-- `lock` of a `weak_ptr` to the state number `s`. -/
def lock (s : ℕ) : Option (State κ) := w.states[s]?.join

def setState (s : ℕ) (state : State κ) : World κ :=
  { w with states := w.states.set s (some state) }

/-- A `shared_ptr` is gone; with the last one to it a state is destroyed. -/
def release : Option ℕ → World κ
  | none => w
  | some s =>
    if w.dispatchers.any fun x => x.state == some s then w
    else { w with states := w.states.set s none }

/-- `Cancel` on the handle number `h`. -/
def cancel (h : ℕ) (r : RegistrationHandle) : World κ :=
  match r.state with
  | none => w
  | some s =>
    match w.lock s with
    | none => w
    | some state =>
      { w.setState s (erase state r.id) with handles := w.handles.set h { r with state := none } }

/-- The callbacks that a dispatcher holds. -/
def callbacks (d : ℕ) : Option (List κ) :=
  (w.live? d).bind fun x => x.state.bind fun s => (w.lock s).map snapshot

end World

/-- What a program does with dispatchers and handles. -/
inductive Act (κ : Type)
  | construct
  | register (d : ℕ) (callback : κ)
  | cancel (h : ℕ)
  | moveConstruct (d : ℕ)
  | moveAssign (d d' : ℕ)
  | destroy (d : ℕ)
  deriving DecidableEq, Repr

/-- A step. `moveAssign d d'` is `d = std::move(d')`, by which the `shared_ptr` that was moved is
swapped with that of `d`. To register with a dispatcher that has no state is undefined. -/
def step (w : World κ) (a : Act κ) : Option (World κ) :=
  match a with
  | .construct => some { w with
      states := w.states ++ [some .empty]
      dispatchers := w.dispatchers ++ [⟨true,some w.states.length⟩] }
  | .register d callback =>
    (w.live? d).bind fun x => x.state.bind fun s => (w.lock s).map fun state =>
      let reg := register state callback
      { w.setState s reg.1 with handles := w.handles ++ [⟨some s,reg.2⟩] }
  | .cancel h => w.handles[h]?.map fun r => w.cancel h r
  | .moveConstruct d =>
    (w.live? d).map fun x =>
      { w with dispatchers := w.dispatchers.set d ⟨true,none⟩ ++ [⟨true,x.state⟩] }
  | .moveAssign d d' =>
    (w.live? d).bind fun _ => (w.live? d').map fun x =>
      let moved := w.dispatchers.set d' ⟨true,none⟩
      { w with dispatchers := moved.set d ⟨true,x.state⟩ }.release
        (moved[d]?.bind Dispatcher.state)
  | .destroy d =>
    (w.live? d).map fun x =>
      { w with dispatchers := w.dispatchers.set d ⟨false,none⟩ }.release x.state

end Blush.EventDispatcher
