import Blush.Network.Model

/-! A process with responders, closer to the code than in the network: a call of `Send_Message`
takes time. While it is in progress the TS has a reference to the id of the sender, and it can
deliver further requests. -/
namespace Blush.Responders
open Network
variable {θ π ρ μ : Type}

/-- `INF_TIME_VALUE`. -/
def infTimeValue : ℤ := -1

/-- The arguments of `Send_Message` on entry. -/
structure SendMessage (μ : Type) where
  connectionId : ℤ
  timeout : ℤ
  transactionId : ℤ
  message : μ
  deriving DecidableEq, Repr

/-- `sendResponse` up to its call of the TS. -/
def sendResponse (sender : ResponseSender) (response : μ) : SendMessage μ :=
  ⟨sender.connectionId,infTimeValue,sender.transactionId,response⟩

/-- A call of `Callback_Handler`: the object it was made on, the request with its transaction id,
and the sender on its stack. -/
structure Request (ρ : Type) where
  connection : ℕ
  transactionId : ℤ
  message : ρ
  sender : ResponseSender
  deriving DecidableEq, Repr

/-- A call of `Send_Message` in progress: the request whose sender it has a reference to, and how
many calls of `Callback_Handler` were in progress when it began. -/
structure Sending where
  request : ℕ
  depth : ℕ
  deriving DecidableEq, Repr

/-- A process. The message of a delivery is the number of its request; the calls of `Send_Message`
are kept innermost first. -/
structure Process (θ π ρ : Type) where
  world : Connections.World θ π ℕ
  connectionIds : List ℤ
  requests : List (Request ρ)
  sending : List Sending
  deriving DecidableEq, Repr

def Process.init : Process θ π ρ := ⟨.init,[],[],[]⟩

/-- What the application and the TS can do. `callbackHandler` is given the id of the connection,
which it does not use. The application replies through the sender of the request number `n`; `write`
is the TS that assigns to the id `Send_Message` number `i` has a reference to, innermost first; and
`sent` is the return of the innermost call, whose code is not looked at. -/
inductive Act (θ π ρ μ : Type)
  | create (connectionId : ℤ)
  | callbackHandler (k : ℕ) (connectionId transactionId : ℤ) (message : ρ)
  | connection (a : Connections.Act θ π ℕ)
  | sendResponse (n : ℕ) (response : μ)
  | write (i : ℕ) (transactionId : ℤ)
  | sent
  deriving DecidableEq, Repr

namespace Process
variable (w : Process θ π ρ)

/-- The TS is at work in the innermost call of `Send_Message`. -/
def transporting : Bool := w.sending.head?.any fun s => s.depth == w.world.frames.length

/-- What the connections do by themselves. Application code does not return before the TS does. -/
def permits : Connections.Act θ π ℕ → Bool
  | .create | .callbackHandler .. => false
  | .predicate _ | .handled => !w.transporting
  | _ => true

/-- A sender exists as long as the call of `Callback_Handler` it is on the stack of. -/
def mayReply (n : ℕ) : Bool := w.world.mayCall && w.world.frames.any fun f => f.message == n

/-- `ResponseSenderImpl::m_transactionId` through a reference. -/
def setTransactionId (n : ℕ) (transactionId : ℤ) : Process θ π ρ :=
  { w with requests := w.requests.modify n fun r =>
      { r with sender := { r.sender with transactionId := transactionId } } }

end Process

/-- A step of the process. -/
def step (w : Process θ π ρ) (a : Act θ π ρ μ) : Option (Process θ π ρ) :=
  match a with
  | .create connectionId =>
    (Connections.step w.world .create).map fun v =>
      { w with world := v, connectionIds := w.connectionIds ++ [connectionId] }
  | .callbackHandler k _ transactionId message =>
    w.connectionIds[k]?.bind fun connectionId =>
      (Connections.step w.world (.callbackHandler k w.requests.length)).map fun v =>
        { w with
          world := v
          requests := w.requests ++
            [⟨k,transactionId,message,⟨connectionId,transactionId⟩⟩] }
  | .connection a =>
    if w.permits a then (Connections.step w.world a).map fun v => { w with world := v } else none
  | .sendResponse n _ =>
    if w.mayReply n then
      some { w with sending := ⟨n,w.world.frames.length⟩::w.sending }
    else none
  | .write i transactionId => w.sending[i]?.map fun s => w.setTransactionId s.request transactionId
  | .sent => if w.transporting then some { w with sending := w.sending.tail } else none

end Blush.Responders
