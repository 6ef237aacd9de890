import Blush.Connections.Model
import Blush.Requests.Model

/-! Requesters and responders joined by a typed TS. The processes of either side run on their own,
each with its calls in progress; between them the TS keeps the messages in flight and the callbacks
registered for transaction ids. Every message carries the request it belongs to, which no code
reads. -/
namespace Blush.Network
open Face
variable {η ρ μ θ π : Type}

/-- A request: the process that sent it and its number there. -/
structure Origin where
  site : ℕ
  request : ℕ
  deriving DecidableEq, Repr

/-- `ResponseSenderImpl`. -/
structure ResponseSender where
  connectionId : ℤ
  transactionId : ℤ
  deriving DecidableEq, Repr

/-- `Callback_Handler` of a `ResponderConnection`: the message it got and the sender it made. -/
structure Incoming (ρ : Type) where
  message : ρ
  sender : ResponseSender
  origin : Origin
  deriving DecidableEq, Repr

/-- A message in flight. -/
structure InFlight (β : Type) where
  transactionId : ℤ
  body : β
  origin : Origin
  deriving DecidableEq, Repr

/-- A process with responders, and the connection id each of them was made with. -/
structure ResponderSite (θ π ρ : Type) where
  world : Connections.World θ π (Incoming ρ)
  connectionIds : List ℤ

/-- A call of `Callback_Handler` changes, by its place among the calls in progress. -/
def ResponderSite.setFrame (v : ResponderSite θ π ρ) (j : ℕ)
    (f : Connections.Frame θ π (Incoming ρ)) : ResponderSite θ π ρ :=
  { v with world := { v.world with frames := v.world.frames.set j f } }

/-- The processes, the callbacks the TS holds by their transaction ids, and what is in flight. -/
structure World (η ρ μ θ π : Type) where
  requesters : List (Requests.World η ρ μ)
  responders : List (ResponderSite θ π ρ)
  registered : AList fun _ : ℤ => Origin
  requests : List (InFlight ρ)
  responses : List (InFlight μ)

/-- So many processes of either side, in their initial states. -/
def World.init (requesters responders : ℕ) : World η ρ μ θ π :=
  ⟨.replicate requesters .init,.replicate responders ⟨.init,[]⟩,∅,[],[]⟩

/-- `ResponderConnection::Callback_Handler` makes a sender for the id it is called with. -/
def Incoming.create (connectionId : ℤ) (x : InFlight ρ) : Incoming ρ :=
  ⟨x.body,⟨connectionId,x.transactionId⟩,x.origin⟩

/-- `ResponseSenderImpl::sendResponse`: the message given to `Send_Message`, and the sender after
the call, whose id is an inout argument. -/
def Incoming.sendResponse (x : Incoming ρ) (response : μ) (writtenBack : ℤ) :
    InFlight μ × Incoming ρ :=
  (⟨x.sender.transactionId,response,x.origin⟩,
    { x with sender := { x.sender with transactionId := writtenBack } })

/-- What a requester process does without the TS. -/
def requesterLocal : Requests.Act η ρ μ → Bool
  | .answer .. | .deliver .. => false
  | _ => true

/-- What a responder process does without the TS. -/
def responderLocal : Connections.Act θ π (Incoming ρ) → Bool
  | .create | .callbackHandler .. => false
  | _ => true

/-- The steps of the processes and of the TS. `submit` is `Send_Message_Async` at work for the
innermost `send` of a process: it gives the request its id and its return code. A message in flight
is delivered by its place in the list. `sendResponse` goes through the sender of the call of
`Callback_Handler` number `j`, innermost first, of a process. -/
inductive Act (η ρ μ θ π : Type)
  | requester (s : ℕ) (a : Requests.Act η ρ μ)
  | submit (s : ℕ) (transactionId : ℤ) (rc : ReturnCode)
  | deliverRequest (i d k : ℕ)
  | createResponder (d : ℕ) (connectionId : ℤ)
  | responder (d : ℕ) (a : Connections.Act θ π (Incoming ρ))
  | sendResponse (d j : ℕ) (response : μ) (writtenBack : ℤ) (accepted : Bool)
  | deliverResponse (i : ℕ)
  | dropRequest (i : ℕ)
  | dropResponse (i : ℕ)
  deriving DecidableEq, Repr

namespace World
variable (w : World η ρ μ θ π)

/-- A step of one requester process. -/
def requesterStep (s : ℕ) (a : Requests.Act η ρ μ) : Option (World η ρ μ θ π) :=
  w.requesters[s]?.bind fun v => (Requests.step v a).map fun v' =>
    { w with requesters := w.requesters.set s v' }

/-- A step of one responder process. -/
def responderStep (d : ℕ) (a : Connections.Act θ π (Incoming ρ)) : Option (World η ρ μ θ π) :=
  w.responders[d]?.bind fun v => (Connections.step v.world a).map fun v' =>
    { w with responders := w.responders.set d { v with world := v' } }

/-- The request that the process is sending, if `Send_Message_Async` has not accepted it yet. -/
def sending? (s : ℕ) : Option (ℕ × Requests.Request η ρ) :=
  w.requesters[s]?.bind fun v =>
    match v.frames with
    | .send _ n _ rc::_ =>
      if Requests.accepted rc then none else v.requests[n]?.map fun q => (n,q)
    | _ => none

/-- A process that runs application code, and its call of `Callback_Handler` number `j`, a handler
of which was called. -/
def replying? (d j : ℕ) : Option (ResponderSite θ π ρ × Connections.Frame θ π (Incoming ρ)) :=
  w.responders[d]?.bind fun v =>
    if v.world.mayCall then
      (v.world.frames[j]?.filter fun f =>
        match f.stage with
        | .handler _ => true
        | _ => false).map fun f => (v,f)
    else none

end World

/-- A step of the network. -/
def step (w : World η ρ μ θ π) (a : Act η ρ μ θ π) : Option (World η ρ μ θ π) :=
  match a with
  | .requester s a => if requesterLocal a then w.requesterStep s a else none
  | .submit s transactionId rc =>
    (w.sending? s).bind fun x =>
      (w.requesterStep s (.answer transactionId rc)).map fun w' =>
        if Requests.accepted rc then
          { w' with
            registered := w.registered.insert transactionId ⟨s,x.1⟩
            requests := w.requests ++ [⟨transactionId,x.2.message,⟨s,x.1⟩⟩] }
        else w'
  | .deliverRequest i d k =>
    w.requests[i]?.bind fun x => (w.responders[d]?.bind fun v => v.connectionIds[k]?).bind
      fun connectionId =>
        (w.responderStep d (.callbackHandler k (.create connectionId x))).map fun w' =>
          { w' with requests := w.requests.eraseIdx i }
  | .createResponder d connectionId =>
    w.responders[d]?.bind fun v => (Connections.step v.world .create).map fun v' =>
      { w with responders := w.responders.set d ⟨v',v.connectionIds ++ [connectionId]⟩ }
  | .responder d a => if responderLocal a then w.responderStep d a else none
  | .sendResponse d j response writtenBack accepted =>
    (w.replying? d j).map fun x =>
      let sent := x.2.message.sendResponse response writtenBack
      { w with
        responders := w.responders.set d (x.1.setFrame j { x.2 with message := sent.2 })
        responses := if accepted then w.responses ++ [sent.1] else w.responses }
  | .deliverResponse i =>
    w.responses[i]?.bind fun x => (w.registered.lookup x.transactionId).bind fun o =>
      (w.requesterStep o.site (.deliver o.request x.body)).map fun w' =>
        { w' with
          registered := w.registered.erase x.transactionId
          responses := w.responses.eraseIdx i }
  | .dropRequest i => some { w with requests := w.requests.eraseIdx i }
  | .dropResponse i => some { w with responses := w.responses.eraseIdx i }

end Blush.Network
