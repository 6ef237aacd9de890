import Mathlib.Data.List.AList
import Blush.Face.Common

/-! `RequesterConnection`: any number of objects, the adapters their `send` calls make, and the
calls in progress. The typed TS keeps a raw pointer to each adapter; the connection owns it by a
local variable of `send` and later by an entry of its map. `η` is the type of the response
handlers, `ρ` that of the requests and `μ` that of the responses. -/
namespace Blush.Requests
open Face
variable {η ρ μ : Type}

/-- `AsyncCallbackAdapter`. -/
structure Adapter (η : Type) where
  handler : η
  complete : Bool
  destroyed : Bool
  deriving DecidableEq, Repr

/-- `m_ts`, by its number, and `m_connectionId`. -/
structure Channel where
  ts : ℕ
  connectionId : ℤ
  deriving DecidableEq, Repr

/-- A request: the adapter its `send` made, the message and where it was sent, what
`Send_Message_Async` returned, and whether `Callback_Handler` was called and what it returned. -/
structure Request (η ρ : Type) where
  adapter : Adapter η
  channel : Channel
  message : ρ
  result : Option (ℤ × ReturnCode)
  called : Bool
  callbackReturn : Option ReturnCode
  deriving DecidableEq, Repr

/-- A connection; `pending` is `m_pendingCallbacks`, an adapter being the number of its request. -/
structure Connection where
  alive : Bool
  channel : Channel
  pending : AList fun _ : ℤ => ℕ

/-- A call in progress: `send`, which is inside `Send_Message_Async` with its two inout variables,
or `Callback_Handler`, which is inside the response handler. -/
inductive Frame
  | send (connection request : ℕ) (transactionId : ℤ) (rc : ReturnCode)
  | callback (request : ℕ)
  deriving DecidableEq, Repr

/-- Connections by the order of their construction and requests by that of their `send`; the calls
in progress, innermost first; the calls of response handlers so far; and the request whose adapter
was used after its destruction, if that happened. -/
structure World (η ρ μ : Type) where
  connections : List Connection
  requests : List (Request η ρ)
  frames : List Frame
  calls : List (η × μ)
  fault : Option ℕ

def World.init : World η ρ μ := ⟨[],[],[],[],none⟩

/-- `CALLEE_PROVIDES_TID`. -/
def calleeProvidesTid : ℤ := 0

/-- The return codes with which `send` keeps the adapter. -/
def accepted (rc : ReturnCode) : Bool := rc == .noError || rc == .inProgress

/-- The transaction id of an accepted request. -/
def Request.transactionId? (q : Request η ρ) : Option ℤ :=
  q.result.bind fun r => if accepted r.2 then some r.1 else none

def Request.destroyAdapter (q : Request η ρ) : Request η ρ :=
  { q with adapter := { q.adapter with destroyed := true } }

/-- The last `shared_ptr` to each of these adapters goes away. -/
def destroyAdapters (ns : List ℕ) (requests : List (Request η ρ)) : List (Request η ρ) :=
  requests.mapIdx fun n q => if n ∈ ns then q.destroyAdapter else q

namespace Connection

/-- The adapters the map owns. -/
def owned (c : Connection) : List ℕ := c.pending.entries.map Sigma.snd

/-- `cleanupCompleted`, with the adapters it erases. -/
def cleanupCompleted (c : Connection) (complete : ℕ → Bool) : Connection × List ℕ :=
  ({ c with pending := ⟨c.pending.entries.filter fun x => !complete x.2,
      c.pending.nodupKeys.sublist List.filter_sublist⟩ },
    c.owned.filter complete)

/-- `m_pendingCallbacks[transactionId] = adapter`, with the adapter it overwrites. -/
def assign (c : Connection) (transactionId : ℤ) (n : ℕ) : Connection × List ℕ :=
  ({ c with pending := c.pending.insert transactionId n },(c.pending.lookup transactionId).toList)

/-- What a move or the destructor leaves of the map. -/
def emptied (c : Connection) : Connection := { c with pending := ∅ }

end Connection

namespace World
variable (w : World η ρ μ)

/-- The object number `k`, unless it was destroyed. -/
def live? (k : ℕ) : Option Connection := w.connections[k]?.filter Connection.alive

/-- No `send` on the object is in progress. -/
def idle (k : ℕ) : Bool := w.frames.all fun f =>
  match f with
  | .send j _ _ _ => j != k
  | .callback _ => true

/-- `m_complete` of an adapter. -/
def complete (n : ℕ) : Bool := w.requests[n]?.any (·.adapter.complete)

/-- `send` on the object number `k`, up to the call of `Send_Message_Async`. -/
def send (k : ℕ) (c : Connection) (handler : η) (message : ρ) : World η ρ μ :=
  let cleaned := c.cleanupCompleted w.complete
  { w with
    connections := w.connections.set k cleaned.1
    requests := destroyAdapters cleaned.2 w.requests ++
      [⟨⟨handler,false,false⟩,c.channel,message,none,false,none⟩]
    frames := .send k w.requests.length calleeProvidesTid .notAvailable::w.frames }

/-- The rest of `send` for the request number `n`. -/
def finish (k n : ℕ) (c : Connection) (q : Request η ρ) (transactionId : ℤ) (rc : ReturnCode)
    (frames : List Frame) : World η ρ μ :=
  let kept := if accepted rc then c.assign transactionId n else (c,[n])
  { w with
    connections := w.connections.set k kept.1
    requests := destroyAdapters kept.2
      (w.requests.set n { q with result := some (transactionId,rc) })
    frames := frames }

/-- `AsyncCallbackAdapter::Callback_Handler` up to the call of `m_handler`. -/
def callbackHandler (n : ℕ) (q : Request η ρ) (response : μ) : World η ρ μ :=
  if q.adapter.destroyed then { w with fault := some n }
  else { w with
    requests := w.requests.set n { q with called := true }
    frames := .callback n::w.frames
    calls := w.calls ++ [(q.adapter.handler,response)] }

/-- The rest of `Callback_Handler`. -/
def completed (n : ℕ) (q : Request η ρ) (frames : List Frame) : World η ρ μ :=
  if q.adapter.destroyed then { w with fault := some n }
  else { w with
    requests := w.requests.set n { q with
      adapter := { q.adapter with complete := true }, callbackReturn := some .noError }
    frames := frames }

end World

/-- What the application and the typed TS can do. `answer` writes the inout parameters of the
innermost `Send_Message_Async`, `returns` ends it, `deliver` calls the callback of a request and
`handled` is the return of its handler. `moveAssign` assigns to `k` from `j`. -/
inductive Act (η ρ μ : Type)
  | create (channel : Channel)
  | send (k : ℕ) (handler : η) (message : ρ)
  | answer (transactionId : ℤ) (rc : ReturnCode)
  | returns
  | deliver (n : ℕ) (response : μ)
  | handled
  | move (k : ℕ)
  | moveAssign (k j : ℕ)
  | destroy (k : ℕ)
  deriving DecidableEq, Repr

/-- A step of the system. There is none after a use of a destroyed adapter. An object is moved,
assigned or destroyed only outside its own `send`. -/
def step (w : World η ρ μ) (a : Act η ρ μ) : Option (World η ρ μ) :=
  if w.fault.isSome then none
  else
    match a with
    | .create channel => some { w with connections := w.connections ++ [⟨true,channel,∅⟩] }
    | .send k handler message => (w.live? k).map fun c => w.send k c handler message
    | .answer transactionId rc =>
      match w.frames with
      | .send k n _ _::frames => some { w with frames := .send k n transactionId rc::frames }
      | _ => none
    | .returns =>
      match w.frames with
      | .send k n transactionId rc::frames =>
        (w.live? k).bind fun c => w.requests[n]?.map fun q =>
          w.finish k n c q transactionId rc frames
      | _ => none
    | .deliver n response => w.requests[n]?.map fun q => w.callbackHandler n q response
    | .handled =>
      match w.frames with
      | .callback n::frames => w.requests[n]?.map fun q => w.completed n q frames
      | _ => none
    | .move k =>
      if w.idle k then
        (w.live? k).map fun c =>
          { w with connections := w.connections.set k c.emptied ++ [c] }
      else none
    | .moveAssign k j =>
      if w.idle k && w.idle j && k != j then
        (w.live? k).bind fun c => (w.live? j).map fun c' =>
          { w with
            connections := (w.connections.set k c').set j c'.emptied
            requests := destroyAdapters c.owned w.requests }
      else none
    | .destroy k =>
      if w.idle k then
        (w.live? k).map fun c =>
          { w with
            connections := w.connections.set k { c.emptied with alive := false }
            requests := destroyAdapters c.owned w.requests }
      else none

end Blush.Requests
