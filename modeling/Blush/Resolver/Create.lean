import Blush.Injection.UopBase
import Blush.Resolver.Model

/-! The factories of `ConnectionResolver`: they look up the injected pointers of a connection, call
`Create_Connection` and make an object of the pointers and the id. -/
namespace Blush.Resolver
open Face Injection

/-- `StandardRole` and `RequesterRole`. -/
inductive TraitsRole
  | standardRole
  | requesterRole
  deriving DecidableEq

/-- `Traits`: its specialisation for a data type and a role names a `TypedTS` class. -/
class Traits (D : Type) (T : outParam Type) where
  typedTS : D → TraitsRole → T

/-- Specialisations that name a class of their own each. -/
instance (priority := low) Traits.own (D : Type) : Traits D (D × TraitsRole) := ⟨Prod.mk⟩

/-- The types of injected references. `T` are the `TypedTS` classes. -/
inductive Interface (T : Type)
  | configuration
  | base
  | typedTS (type : T)
  deriving DecidableEq

/-- The injected pointers; `none` is the null pointer. -/
abbrev Injected (T : Type) := Store fun _ : Interface T => Option ℕ

/-- How a call of `Create_Connection` ends. -/
inductive Answer
  | threw
  | returned (connectionId : ℤ) (returnCode : ReturnCode)
  deriving DecidableEq

/-- A call of a `FACE::TSS::Base` object. -/
inductive Event
  | createConnection (base : ℕ) (connectionName : StringType) (answer : Answer)
  | destroyConnection (base : ℕ) (connectionId : ℤ)
  deriving DecidableEq

/-- A TSS answers a `Create_Connection` after the calls made so far. -/
abbrev Tss := List Event → ℕ → StringType → Answer

/-! ## The record of a TSS -/

/-- The connection that a call reported with `NO_ERROR`. -/
def Event.obtained : Event → Option (ℕ × ℤ)
  | createConnection base _ (.returned connectionId .noError) => some (base,connectionId)
  | _ => none

/-- The open connections after a call. -/
def Event.record (opened : List (ℕ × ℤ)) : Event → List (ℕ × ℤ)
  | destroyConnection base connectionId => opened.filter (· ≠ (base,connectionId))
  | e => opened ++ e.obtained.toList

/-- The open connections after all calls. -/
def openConnections (log : List Event) : List (ℕ × ℤ) := log.foldl Event.record []

/-- The connections obtained in all calls. -/
def obtained (log : List Event) : List (ℕ × ℤ) := log.filterMap Event.obtained

/-- The connection objects: the pointers to their `TypedTS` objects and the id. -/
inductive ConnectionObject
  | publisherConnection (ts : ℕ) (connectionId : ℤ)
  | subscriberConnection (ts : ℕ) (connectionId : ℤ)
  | requesterConnection (ts : ℕ) (connectionId : ℤ)
  | responderConnection (requestTs responseTs : ℕ) (connectionId : ℤ)
  deriving DecidableEq

namespace ConnectionResolver
variable {D T : Type} [Traits D T] (r : ConnectionResolver) (store : Injected T)

/-! ## Injected pointers -/

/-- The pointer injected under a name; none for the empty name. -/
def getPointer (t : Interface T) (name : List UInt8) : Option ℕ :=
  if name = [] then none
  else
    match getInjected store r.uopBase t (.ofCString (some name)) with
    | .ok pointer => pointer
    | .error _ => none

def getBase (connectionName : CString) : Option ℕ :=
  r.getPointer store .base (r.resolveBaseName connectionName)

def getTypedTs (type : T) (connectionName : CString) : Option ℕ :=
  r.getPointer store (.typedTS type) (r.resolveTypedTsName connectionName)

def getTypedTsResponse (type : T) (connectionName : CString) : Option ℕ :=
  r.getPointer store (.typedTS type) (r.resolveTypedTsResponseName connectionName)

/-! ## Connections -/
variable (tss : Tss) (log : List Event) (connectionName : CString)

/-- `createConnection`; there is no id when `Create_Connection` throws. -/
def createConnection : Option ℤ × List Event :=
  match r.getBase store connectionName with
  | none => (some (-1),log)
  | some base =>
    let name := StringType.ofCString (some connectionName.chars)
    let answer := tss log base name
    let log' := log ++ [.createConnection base name answer]
    match answer with
    | .threw => (none,log')
    | .returned connectionId returnCode =>
      (some (if returnCode ≠ .noError then -1 else connectionId),log')

/-- The body of a factory that has found `pointers`, or not. -/
def createFrom {P : Type} (pointers : Option P) (make : P → ℤ → ConnectionObject) :
    Option ConnectionObject × List Event :=
  match pointers with
  | none => (none,log)
  | some p =>
    match r.createConnection store tss log connectionName with
    | (none,log') => (none,log')
    | (some connectionId,log') =>
      (if connectionId < 0 then none else some (make p connectionId),log')

def createPubConnection (dataType : D) : Option ConnectionObject × List Event :=
  r.createFrom store tss log connectionName
    (r.getTypedTs store (Traits.typedTS dataType .standardRole) connectionName)
    .publisherConnection

def createSubConnection (dataType : D) : Option ConnectionObject × List Event :=
  r.createFrom store tss log connectionName
    (r.getTypedTs store (Traits.typedTS dataType .standardRole) connectionName)
    .subscriberConnection

def createReqConnection (requestType : D) : Option ConnectionObject × List Event :=
  r.createFrom store tss log connectionName
    (r.getTypedTs store (Traits.typedTS requestType .requesterRole) connectionName)
    .requesterConnection

def createRspConnection (requestType responseType : D) : Option ConnectionObject × List Event :=
  let requestTypedTS := Traits.typedTS requestType .standardRole
  let responseTypedTS := Traits.typedTS responseType .standardRole
  r.createFrom store tss log connectionName
    ((r.getTypedTs store requestTypedTS connectionName).bind fun requestTs =>
      (r.getTypedTsResponse store responseTypedTS connectionName).map fun responseTs =>
        (requestTs,responseTs))
    fun p => .responderConnection p.1 p.2

end ConnectionResolver
end Blush.Resolver
