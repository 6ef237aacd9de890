import Mathlib.Algebra.Ring.Int.Defs
import Mathlib.Algebra.Ring.Nat
import Blush.Lib.Transition
import Blush.Resolver.Create

/-! The generated base class of a UoP with the connection tables of its Integration Contexts: the
lifecycle operations, the `Configuration` service they read and the TSS they call. -/
namespace Blush.Uop
open Face Injection Resolver

/-- The bytes of a literal. -/
def ascii (s : String) : List UInt8 := s.toList.map fun c => c.val.toUInt8

/-- The role of a connection, with its data types. -/
inductive Role (D : Type)
  | producer (dataType : D)
  | consumer (dataType : D)
  | requester (requestType : D)
  | responder (requestType responseType : D)

structure Connection (D : Type) where
  name : CString
  role : Role D

/-- A UoP, the address of its object and the connections of its Integration Contexts. -/
structure UoP (D : Type) where
  name : CString
  address : ℕ
  integrationContexts : List (List (Connection D))

/-! ## `Configuration` -/

/-- What the service does in one `Framework_Connect`; `read` has the bytes that it writes. -/
structure Configuration where
  openContainer : Int32 × ReturnCode
  getSize : Int32 × ReturnCode
  read : List UInt8 × Int32 × ReturnCode
  close : ReturnCode

inductive ServiceCall
  | openContainer (containerName : StringType)
  | getSize (handle : Int32) (setName : StringType)
  | read (handle : Int32) (setName : StringType) (bufferLength : ℕ) (bufferSize : Int32)
  | close (handle : Int32)

/-- How the use of the service ends: with a return code, with the exception that `std::string`
throws, with bytes written behind the buffer, or with the contents of the buffer. -/
inductive Session
  | failed (returnCode : ReturnCode)
  | threw
  | overrun
  | text (xmlBuffer : List UInt8)

/-- `static_cast<std::size_t>(size) + 1u`. -/
def bufferLength (size : Int32) : ℕ := ((size.toInt % 2^64).toNat+1) % 2^64

/-- `std::string::max_size()`. -/
def maxSize : ℕ := 2^63-1

/-- From `Open` to `Close`, with the calls made. -/
def Configuration.session (service : Configuration) (containerName : StringType) :
    List ServiceCall × Session :=
  let setName := StringType.ofCString (some (ascii "configuration"))
  let handle := service.openContainer.1
  let calls := [.openContainer containerName]
  if service.openContainer.2 ≠ .noError then (calls,.failed service.openContainer.2)
  else
    let size := service.getSize.1
    let calls := calls ++ [.getSize handle setName]
    if service.getSize.2 ≠ .noError then (calls ++ [.close handle],.failed service.getSize.2)
    else if maxSize < bufferLength size then (calls,.threw)
    else
      let bytes := service.read.1
      let readRc := service.read.2.2
      let calls := calls ++ [.read handle setName (bufferLength size) size]
      if bufferLength size < bytes.length then (calls,.overrun)
      else
        let calls := calls ++ [.close handle]
        if readRc ≠ .noError ∧ readRc ≠ .notAvailable then (calls,.failed readRc)
        else (calls,.text (bytes ++ List.replicate (bufferLength size-bytes.length) 0))

/-- The C string at the beginning of `bytes`. -/
def cString (bytes : List UInt8) : CString where
  chars := bytes.takeWhile (· ≠ 0)
  noNul c hc := by simpa using List.mem_takeWhile_imp hc

/-! ## Connection tables -/

/-- The members of a `ConnectionTableImpl`, in the order of its connections. -/
abbrev ConnectionTableImpl := List (Option ConnectionObject)

/-- How a lifecycle operation ends. -/
inductive Outcome
  | returned (returnCode : ReturnCode)
  | threw
  deriving DecidableEq

/-- The object of a UoP, the injection store, and the calls made since the run began; `texts` are
those that resolvers were initialized from. -/
structure State (T : Type) where
  store : Injected T
  tables : List (Option ConnectionTableImpl)
  calls : List ServiceCall
  texts : List CString
  log : List Event
  lastOutcome : Option Outcome

section
variable {D T : Type} [Traits D T] (r : ConnectionResolver) (store : Injected T) (tss : Tss)

/-- The assignment to `m_<name>Connection`. -/
def Connection.create (conn : Connection D) (log : List Event) :
    Option ConnectionObject × List Event :=
  match conn.role with
  | .producer dataType => r.createPubConnection store tss log conn.name dataType
  | .consumer dataType => r.createSubConnection store tss log conn.name dataType
  | .requester requestType => r.createReqConnection store tss log conn.name requestType
  | .responder requestType responseType =>
    r.createRspConnection store tss log conn.name requestType responseType

/-- `ConnectionTableImpl::Initialize`. -/
def initializeTable : List (Connection D) → List Event → ConnectionTableImpl × List Event
  | [],log => ([],log)
  | conn::conns,log =>
    let created := conn.create r store tss log
    let others := initializeTable conns created.2
    (created.1::others.1,others.2)

/-- The loop over the Integration Contexts whose tables exist. -/
def initializeTables :
    List (List (Connection D)) → List (Option ConnectionTableImpl) → List Event →
      List (Option ConnectionTableImpl) × List Event
  | ic::ics,some _::tables,log =>
    let initialized := initializeTable r store tss ic log
    let others := initializeTables ics tables initialized.2
    (some initialized.1::others.1,others.2)
  | _::ics,none::tables,log =>
    let others := initializeTables ics tables log
    (none::others.1,others.2)
  | _,tables,log => (tables,log)

end

/-! ## Lifecycle operations -/

/-- `Framework_Disconnect`. -/
def State.frameworkDisconnect {T : Type} (s : State T) : State T :=
  { s with lastOutcome := some (.returned .noError) }

namespace UoP
variable {D T : Type} [Traits D T] [DecidableEq T] (u : UoP D)

/-- `Initialize`. -/
def initializeBase (s : State T) : State T :=
  { s with
    tables := u.integrationContexts.map fun ic => some (ic.map fun _ => none)
    lastOutcome := some (.returned .noError) }

/-- `Finalize`. -/
def finalizeBase (s : State T) : State T :=
  { s with
    tables := u.integrationContexts.map fun _ => none
    lastOutcome := some (.returned .noError) }

def containerName (configuration : StringType) : StringType :=
  if configuration ≠ .ofCString none then configuration
  else .ofCString (some (u.name.chars ++ ascii "-config"))

/-- The resolver that `Initialize` makes of a text. -/
def resolver (parse : CString → Option (List Element)) (xml : CString) : ConnectionResolver :=
  (ConnectionResolver.create u.address).initializeFrom parse (some xml) (some u.name)

/-- `resolver.Initialize(xmlBuffer.c_str(), "<UoP>")`, and the tables after it. -/
def wire (parse : CString → Option (List Element)) (tss : Tss) (s : State T) (xml : CString) :
    State T :=
  let initialized := initializeTables (u.resolver parse xml) s.store tss u.integrationContexts
    s.tables s.log
  { s with tables := initialized.1, texts := s.texts ++ [xml], log := initialized.2 }

/-- `Framework_Connect`; a call through a null pointer and an overrun are undefined. -/
def frameworkConnect (parse : CString → Option (List Element)) (tss : Tss) (s : State T)
    (configuration : StringType) (service : Configuration) : Option (State T) :=
  match getInjected s.store u.address .configuration (.ofCString (some (ascii "system"))) with
  | .error _ => some { s with lastOutcome := some (.returned .notAvailable) }
  | .ok none => none
  | .ok (some _) =>
    let session := service.session (u.containerName configuration)
    let s := { s with calls := s.calls ++ session.1 }
    match session.2 with
    | .failed returnCode => some { s with lastOutcome := some (.returned returnCode) }
    | .threw => some { s with lastOutcome := some .threw }
    | .overrun => none
    | .text xmlBuffer =>
      some { u.wire parse tss s (cString xmlBuffer) with
        lastOutcome := some (.returned .noError) }

/-- `Set_Reference`, that of `UopBase` for a `Base` and that of `FaceInjectable` otherwise. -/
def setReference (s : State T) (t : Interface T) (name : StringType) (reference : Option ℕ) :
    State T :=
  let r := if t = .base then Injection.setReference s.store u.address t name reference
    else setTypedReference s.store u.address t name reference
  { s with store := r.1, lastOutcome := some (.returned r.2) }

end UoP

inductive Act (T : Type)
  | setReference (t : Interface T) (name : StringType) (reference : Option ℕ)
  | initializeBase
  | frameworkConnect (configuration : StringType) (service : Configuration)
  | frameworkDisconnect
  | finalizeBase

section
variable {D T : Type} [Traits D T] [DecidableEq T] (u : UoP D)

/-- A UoP that has just been constructed. -/
def start (store : Injected T) : State T :=
  ⟨store,u.integrationContexts.map fun _ => none,[],[],[],none⟩

def step (parse : CString → Option (List Element)) (tss : Tss) (s : State T) :
    Act T → Option (State T)
  | .setReference t name reference => some (u.setReference s t name reference)
  | .initializeBase => some (u.initializeBase s)
  | .frameworkConnect configuration service =>
    u.frameworkConnect parse tss s configuration service
  | .frameworkDisconnect => some s.frameworkDisconnect
  | .finalizeBase => some (u.finalizeBase s)

end
end Blush.Uop
