import Blush.Connections.EventDispatcher
import Blush.Face.Common

/-! `SubscriberConnection` and `ResponderConnection`: any number of objects of either class,
the registration handles the application keeps, and the deliveries in progress. The two classes
register, cancel, deliver and close by the same code; they differ in the type `μ` of what they
deliver and in the typed TS they receive on (`m_ts`, `m_requestTs`). A callback is a handler of
type `η` behind an optional predicate of type `π`. -/
namespace Blush.Connections
open Face MachineInt
variable {η π μ : Type}

/-- The lambda that `registerHandler` wraps. -/
structure Callback (η π : Type) where
  handler : η
  predicate : Option π
  deriving DecidableEq, Repr

/-- A call the connection made on its typed TS, and whether it reported `NO_ERROR`. -/
inductive TsCall
  | registerCallback (accepted : Bool)
  | unregisterCallback (accepted : Bool)
  deriving DecidableEq, Repr

/-- The typed TS as the connection sees it: whether it holds the callback, and the calls it
got. A call that is not accepted leaves it unchanged. -/
structure TypedTS where
  held : Bool
  calls : List TsCall
  deriving DecidableEq, Repr

namespace TypedTS

def registerCallback (ts : TypedTS) (accepted : Bool) : TypedTS :=
  ⟨ts.held || accepted,ts.calls ++ [.registerCallback accepted]⟩

def unregisterCallback (ts : TypedTS) (accepted : Bool) : TypedTS :=
  ⟨ts.held && !accepted,ts.calls ++ [.unregisterCallback accepted]⟩

end TypedTS

/-- `RegistrationHandle` of the dispatcher: a weak reference to its state, by the number of
the connection that owns it, and the id of the registration. -/
structure RegistrationHandle where
  state : Option ℕ
  id : ℤ
  deriving DecidableEq, Repr

/-- `HandlerRegistration`; `owner` is a raw pointer. -/
structure HandlerRegistration where
  inner : RegistrationHandle
  owner : ℕ
  cancelled : Bool
  deriving DecidableEq, Repr

/-- A connection. The typed TS it registers with outlives it. `lastReturn` is what the most
recent `registerHandler` call gave to its caller, if there was one. -/
structure Connection (η π : Type) where
  alive : Bool
  dispatcher : EventDispatcher.State (Callback η π)
  handlerCount : ℤ
  ts : TypedTS
  lastReturn : Option (Option ℕ)
  deriving DecidableEq, Repr

/-- Where a delivery stands: in the loop of the dispatcher, or in the application's code. -/
inductive Stage (η π : Type)
  | dispatch
  | predicate (callback : Callback η π)
  | handler (callback : Callback η π)
  deriving DecidableEq, Repr

/-- A call of `Callback_Handler` in progress; `snapshot` is the part still to be called. -/
structure Frame (η π μ : Type) where
  connection : ℕ
  message : μ
  snapshot : List (Callback η π)
  stage : Stage η π
  deriving DecidableEq, Repr

/-- Connections and handles by the order they were made in; the deliveries, innermost first, and
the return codes of those that are over, in the order they ended; and the connection whose storage
was used after its destruction, if that happened. -/
structure World (η π μ : Type) where
  connections : List (Connection η π)
  handles : List HandlerRegistration
  frames : List (Frame η π μ)
  returned : List ReturnCode
  fault : Option ℕ
  deriving DecidableEq, Repr

def World.init : World η π μ := ⟨[],[],[],[],none⟩

namespace World
variable (w : World η π μ)

/-- The object number `k`, unless it was destroyed. -/
def live? (k : ℕ) : Option (Connection η π) := w.connections[k]?.filter Connection.alive

def setConnection (k : ℕ) (c : Connection η π) : World η π μ :=
  { w with connections := w.connections.set k c }

def setHandle (h : ℕ) (r : HandlerRegistration) : World η π μ :=
  { w with handles := w.handles.set h r }

/-- Dereference a raw pointer to a connection. -/
def deref (k : ℕ) : Except ℕ (Connection η π) :=
  match w.live? k with
  | some c => .ok c
  | none => .error k

end World

/-- The constructor of either class. -/
def Connection.create : Connection η π := ⟨true,.empty,0,⟨false,[]⟩,none⟩

/-- `registerHandler` of `SubscriberConnection` and of `ResponderConnection`, on the object number
`k`; the handle it returns gets the number `h`. -/
def Connection.registerHandler (c : Connection η π) (k h : ℕ) (callback : Callback η π)
    (accepted : Bool) : Connection η π × HandlerRegistration :=
  let reg := EventDispatcher.register c.dispatcher callback
  let ts := if c.handlerCount = 0 then c.ts.registerCallback accepted else c.ts
  ({ c with
    dispatcher := reg.1
    ts := ts
    handlerCount := wrap 32 (c.handlerCount+1)
    lastReturn := some (some h) },
   { inner := ⟨some k,reg.2⟩, owner := k, cancelled := false })

/-- `RegistrationHandle::Cancel`: a no-op when the dispatcher is gone. -/
def RegistrationHandle.cancel (w : World η π μ) (r : RegistrationHandle) :
    World η π μ × RegistrationHandle :=
  match r.state with
  | none => (w,r)
  | some k =>
    match w.live? k with
    | none => (w,r)
    | some c =>
      (w.setConnection k { c with dispatcher := EventDispatcher.erase c.dispatcher r.id },
        { r with state := none })

/-- `HandlerRegistration::Cancel` of either class, on the handle number `h`. -/
def HandlerRegistration.cancel (w : World η π μ) (h : ℕ) (r : HandlerRegistration)
    (accepted : Bool) : Except ℕ (World η π μ) :=
  if r.cancelled then .ok w
  else do
    let inner := r.inner.cancel w
    let w := inner.1.setHandle h { r with inner := inner.2, cancelled := true }
    let c ← w.deref r.owner
    let count := wrap 32 (c.handlerCount-1)
    let ts := if count = 0 then c.ts.unregisterCallback accepted else c.ts
    return w.setConnection r.owner { c with handlerCount := count, ts := ts }

/-- The destructor of either class. -/
def Connection.destroy (c : Connection η π) (accepted : Bool) : Connection η π :=
  { c with
    alive := false
    ts := if 0 < c.handlerCount then c.ts.unregisterCallback accepted else c.ts }

/-- What the application and the TS can do, each call with the answer of the typed TS should
it be asked. `callbackHandler` starts a delivery; `next` lets the dispatcher go on; `predicate`
and `handled` are the returns of the application's code. -/
inductive Act (η π μ : Type)
  | create
  | registerHandler (k : ℕ) (callback : Callback η π) (accepted : Bool)
  | cancel (h : ℕ) (accepted : Bool)
  | destroy (k : ℕ) (accepted : Bool)
  | callbackHandler (k : ℕ) (message : μ)
  | next
  | predicate (passes : Bool)
  | handled
  deriving DecidableEq, Repr

/-- The application's code runs outside all deliveries and in its predicates and handlers. -/
def World.mayCall (w : World η π μ) : Bool :=
  match w.frames with
  | [] => true
  | f::_ =>
    match f.stage with
    | .dispatch => false
    | _ => true

/-- The loop of `EventDispatcher::operator()` with the wrapped lambda it calls, and after it the
end of `Callback_Handler`. -/
def World.next (w : World η π μ) : Option (World η π μ) :=
  match w.frames with
  | ⟨k,m,snapshot,.dispatch⟩::frames =>
    match snapshot with
    | [] => some { w with frames := frames, returned := w.returned ++ [.noError] }
    | callback::rest =>
      let stage := if callback.predicate.isSome then .predicate callback else .handler callback
      some { w with frames := ⟨k,m,rest,stage⟩::frames }
  | _ => none

/-- A step of the system. There is none after a use of destroyed storage. A connection is used
only while it exists, and not destroyed while it delivers. -/
def step (w : World η π μ) (a : Act η π μ) : Option (World η π μ) :=
  if w.fault.isSome then none
  else
    match a with
    | .create =>
      if w.mayCall then some { w with connections := w.connections ++ [.create] } else none
    | .registerHandler k callback accepted =>
      if w.mayCall then
        (w.live? k).map fun c =>
          let r := c.registerHandler k w.handles.length callback accepted
          { w.setConnection k r.1 with handles := w.handles ++ [r.2] }
      else none
    | .cancel h accepted =>
      if w.mayCall then
        w.handles[h]?.map fun r =>
          match r.cancel w h accepted with
          | .ok w' => w'
          | .error k => { w with fault := some k }
      else none
    | .destroy k accepted =>
      if w.mayCall && w.frames.all (·.connection != k) then
        (w.live? k).map fun c => w.setConnection k (c.destroy accepted)
      else none
    | .callbackHandler k message =>
      if w.mayCall then
        (w.live? k).map fun c =>
          { w with frames := ⟨k,message,c.dispatcher.callbacks.map Prod.snd,.dispatch⟩::w.frames }
      else none
    | .next => w.next
    | .predicate passes =>
      match w.frames with
      | ⟨k,m,snapshot,.predicate callback⟩::frames =>
        some { w with frames :=
          ⟨k,m,snapshot,if passes then .handler callback else .dispatch⟩::frames }
      | _ => none
    | .handled =>
      match w.frames with
      | ⟨k,m,snapshot,.handler _⟩::frames =>
        some { w with frames := ⟨k,m,snapshot,.dispatch⟩::frames }
      | _ => none

end Blush.Connections
