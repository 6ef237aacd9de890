import Blush.Lib.FirstSeen

/-! What the templates of `data-model` and `uop-generator` make of the message types of an
architecture model: the specialisations of `Traits` they declare, the bases and members that use
them, and the generated headers that include each other. -/
namespace Blush.Codegen
open FirstSeen

/-- A message type, as the templates see it. -/
structure MessageType where
  uuid : String
  name : String
  modelNamespace : String
  compositeTemplate : Bool
  deriving DecidableEq, Repr

inductive ConnectionKind
  | clientServer
  | other (name : String)
  deriving DecidableEq, Repr

inductive ConnectionRole
  | producer
  | consumer
  | requester
  | responder
  deriving DecidableEq, Repr

/-- A connection, seen from one of its UoPs. -/
structure Connection where
  name : String
  kind : ConnectionKind
  role : ConnectionRole
  messageType : MessageType
  responseMessageType : Option MessageType
  response : kind = .clientServer → responseMessageType.isSome = true
  deriving DecidableEq

structure UoP where
  name : String
  connections : List Connection

structure IntegrationContext where
  name : String
  uopName : String
  connections : List Connection

/-- A model namespace with its `$namespaceTypes`. -/
structure ModelNamespace where
  name : String
  types : List MessageType

namespace Connection
variable (conn : Connection)

/-- The types a connection refers to. -/
def types : List MessageType := conn.messageType :: conn.responseMessageType.toList

/-- The types the connection uses with their standard `TypedTS` modules. -/
def standardTypes : List MessageType :=
  if conn.kind ≠ .clientServer then [conn.messageType]
  else if conn.role = .responder then conn.types
  else []

def isRequester : Bool := conn.kind = .clientServer ∧ conn.role = .requester

def responseName : String := (conn.responseMessageType.map MessageType.name).getD ""

end Connection

/-- A model; a type is identified by its UUID. -/
structure Model where
  uops : List UoP
  integrationContexts : List IntegrationContext
  namespaces : List ModelNamespace
  identified : ∀ u ∈ uops, ∀ conn ∈ u.connections, ∀ type ∈ conn.types,
    ∀ u' ∈ uops, ∀ conn' ∈ u'.connections, ∀ type' ∈ conn'.types,
      type.uuid = type'.uuid → type = type'

/-! ## C++ names -/

/-- `FACE::DM::<modelNamespace>::T_<name>::<name>`, or `FACE::DM::<modelNamespace>::<name>` for a
composite template. -/
structure DataType where
  modelNamespace : String
  name : String
  wrapped : Bool
  deriving DecidableEq, Repr

/-- `FACE::TSS::<modelNamespace>::<name>`. -/
structure TssModule where
  modelNamespace : String
  name : String
  deriving DecidableEq, Repr

def MessageType.dataType (type : MessageType) : DataType :=
  ⟨type.modelNamespace,type.name,!type.compositeTemplate⟩

/-- The combined module of a request and its response. -/
def Connection.combinedModule (conn : Connection) : TssModule where
  modelNamespace := conn.messageType.modelNamespace
  name := conn.messageType.name ++ "_" ++ conn.responseName

/-- `Traits<dataType, RequesterRole>` with its `TypedTS`, as `DECLARE_FACE_TYPE_TRAITS_REQRESP` and
its variant for composite templates declare it. -/
structure RequesterTraits where
  dataType : DataType
  typedTS : TssModule
  deriving DecidableEq, Repr

/-- `Traits<dataType>`, as `DECLARE_FACE_TYPE_TRAITS` and its variant declare it for `type`. -/
structure StandardTraits where
  type : MessageType
  dataType : DataType
  typedTS : TssModule
  deriving DecidableEq, Repr

/-- The generated headers. -/
inductive Header
  | modelNamespace (modelNamespace : String)
  | modelNamespaceTraits (modelNamespace : String)
  | typeTraits (uop : String)
  | base (uop : String)
  | connectionTable (uop integrationContext : String)
  | connectionTableImpl (uop integrationContext : String)
  deriving DecidableEq, Repr

/-! ## `UoPTypeTraits.h.vm` -/

namespace UoPTypeTraits
variable (uop : UoP)

def reqRespPairs : List Connection :=
  collect (fun conn => conn.messageType.uuid) (uop.connections.filter Connection.isRequester)

def uniqueTypes : List MessageType :=
  collect MessageType.uuid (uop.connections.flatMap Connection.standardTypes)

def modelNamespaces : List String :=
  collect id ((uniqueTypes uop).map MessageType.modelNamespace ++
    (reqRespPairs uop).map fun conn => conn.messageType.modelNamespace)

def includes : List Header := (modelNamespaces uop).map .modelNamespace

def declarations : List RequesterTraits :=
  (reqRespPairs uop).map fun conn => ⟨conn.messageType.dataType,conn.combinedModule⟩

end UoPTypeTraits

/-! ## `UoPBase.h.vm` -/

namespace UoPBase
variable (m : Model) (uop : UoP)

/-- The types of the `FaceInjectable` bases. -/
def uniqueTypes : List MessageType :=
  collect MessageType.uuid (uop.connections.flatMap Connection.standardTypes)

def modelNamespaces : List String := collect id ((uniqueTypes uop).map MessageType.modelNamespace)

def myIcs : List IntegrationContext :=
  m.integrationContexts.filter fun ic => ic.uopName = uop.name

def includes : List Header :=
  .typeTraits uop.name ::
    (myIcs m uop).map (fun ic => .connectionTable uop.name ic.name) ++
    (modelNamespaces uop).map .modelNamespace

end UoPBase

/-! ## `ConnectionTableImpl.h.vm` -/

namespace ConnectionTableImpl

/-- The connection class of a member, with its type arguments. -/
inductive Member
  | publisherConnection (dataType : MessageType)
  | subscriberConnection (dataType : MessageType)
  | requesterConnection (requestType : MessageType) (responseType : Option MessageType)
  | responderConnection (requestType : MessageType) (responseType : Option MessageType)
  deriving DecidableEq, Repr

def member (conn : Connection) : Member :=
  match conn.role with
  | .producer => .publisherConnection conn.messageType
  | .consumer => .subscriberConnection conn.messageType
  | .requester => .requesterConnection conn.messageType conn.responseMessageType
  | .responder => .responderConnection conn.messageType conn.responseMessageType

/-- The types whose bare `Traits` a connection class uses; `RequesterConnection` has the
specialisation of its own role. -/
def Member.standardTypes : Member → List MessageType
  | .publisherConnection dataType | .subscriberConnection dataType => [dataType]
  | .requesterConnection _ _ => []
  | .responderConnection requestType responseType => requestType :: responseType.toList

def members (ic : IntegrationContext) : List Member := ic.connections.map member

def includes (uop : UoP) (ic : IntegrationContext) : List Header :=
  [.connectionTable uop.name ic.name,.typeTraits uop.name]

end ConnectionTableImpl

/-! ## `ModelNamespace.hpp.vm` and `ModelNamespaceTraits.hpp.vm` -/

namespace ModelNamespace

def includes (ns : ModelNamespace) : List Header := [.modelNamespaceTraits ns.name]

end ModelNamespace

namespace ModelNamespaceTraits
variable (m : Model) (ns : ModelNamespace)

def typedTypeUuids : List String :=
  collect id ((m.uops.flatMap fun u => u.connections.flatMap Connection.standardTypes).map
    MessageType.uuid)

def tssTypes : List MessageType := ns.types.filter fun type => type.uuid ∈ typedTypeUuids m

def includes : List Header := [.modelNamespace ns.name]

def declarations : List StandardTraits :=
  (tssTypes m ns).map fun type =>
    { type
      dataType :=
        if type.compositeTemplate then ⟨ns.name,type.name,false⟩ else ⟨ns.name,type.name,true⟩
      typedTS := ⟨ns.name,type.name⟩ }

end ModelNamespaceTraits

end Blush.Codegen
