import Blush.Codegen.Standard

/-! `I<Name>ResponseSender` in the translation unit of a UoP: every connection table emits the
structs for its own response types, and all of them go to the one namespace of the UoP. -/
namespace Blush.Codegen
open FirstSeen

/-- `struct I<name>ResponseSender`, with the parameter type of its `sendResponse`. -/
structure ResponseSender where
  name : String
  parameter : DataType
  deriving DecidableEq, Repr

/-! ## `ConnectionTable.h.vm` -/

/-- `toUpperCase` of an identifier. -/
def toUpperCase (s : String) : String := String.ofList (s.toList.map Char.toUpper)

namespace ConnectionTable
variable (uop : UoP) (ic : IntegrationContext)

def uniqueRspTypes : List MessageType :=
  collect MessageType.uuid (ic.connections.filterMap Connection.responseMessageType)

def guardSymbol : String :=
  toUpperCase uop.name ++ "_" ++ toUpperCase ic.name ++ "_CONNECTION_TABLE_H"

def responseSenders : List ResponseSender :=
  (uniqueRspTypes ic).map fun rspType => ⟨rspType.name,rspType.dataType⟩

end ConnectionTable

namespace UoPBase
variable (m : Model) (uop : UoP)

/-- The contexts whose headers expand to something: those with an include guard of their own. -/
def expanded : List IntegrationContext := collect (ConnectionTable.guardSymbol uop) (myIcs m uop)

/-- The structs that the translation unit of the header defines. -/
def responseSenders : List ResponseSender :=
  (expanded m uop).flatMap ConnectionTable.responseSenders

end UoPBase

/-! ## What the translation unit needs -/

/-- A response type of an Integration Context. -/
def IntegrationContext.Responds (ic : IntegrationContext) (rspType : MessageType) : Prop :=
  ∃ conn ∈ ic.connections, conn.responseMessageType = some rspType

/-- Each struct is defined at most once, and for a RESPONDER or REQUESTER connection it is defined
with the connection's own response type. -/
structure SendersDefined (m : Model) (u : UoP) : Prop where
  once : ((UoPBase.responseSenders m u).map ResponseSender.name).Nodup
  own : ∀ ic ∈ UoPBase.myIcs m u, ∀ conn ∈ ic.connections, ∀ rspType,
    conn.role = .responder ∨ conn.role = .requester → conn.responseMessageType = some rspType →
      ∃ d ∈ UoPBase.responseSenders m u, d.name = rspType.name ∧ d.parameter = rspType.dataType

/-- Response types of one name belong to one Integration Context of the UoP and have one UUID; and
where the guard of an earlier header hides that of a context, its response types are among those of
the contexts not hidden. -/
structure SendersSeparate (m : Model) (u : UoP) : Prop where
  within : ∀ ic ∈ UoPBase.expanded m u, ∀ rspType rspType', ic.Responds rspType →
    ic.Responds rspType' → rspType.name = rspType'.name → rspType.uuid = rspType'.uuid
  between : (UoPBase.expanded m u).Pairwise fun ic ic' => ∀ rspType rspType', ic.Responds rspType →
    ic'.Responds rspType' → rspType.name ≠ rspType'.name
  hidden : ∀ ic ∈ UoPBase.myIcs m u, ∀ conn ∈ ic.connections, ∀ rspType,
    conn.role = .responder ∨ conn.role = .requester → conn.responseMessageType = some rspType →
      ∃ ic' ∈ UoPBase.expanded m u, ∃ rspType', ic'.Responds rspType' ∧
        rspType'.dataType = rspType.dataType

namespace ValidModel
variable (m : ValidModel) {u : UoP} {ic ic' : IntegrationContext} {rspType rspType' : MessageType}

/-- Response types in the contexts of a UoP are identified by their UUIDs. -/
theorem responds_identified (hu : u ∈ m.uops) (hic : ic ∈ UoPBase.myIcs m.toModel u)
    (hic' : ic' ∈ UoPBase.myIcs m.toModel u) (h : ic.Responds rspType) (h' : ic'.Responds rspType')
    (huuid : rspType.uuid = rspType'.uuid) : rspType = rspType' := by
  have hmem {ic : IntegrationContext} {rspType : MessageType}
      (hic : ic ∈ UoPBase.myIcs m.toModel u) (h : ic.Responds rspType) :
      ∃ conn ∈ u.connections, rspType ∈ conn.types := by
    obtain ⟨hic,hname⟩ := List.mem_filter.mp hic
    obtain ⟨conn,hconn,hrsp⟩ := h
    refine ⟨conn,m.contexts u hu ic hic (by simpa using hname) conn hconn,?_⟩
    simp [Connection.types,hrsp]
  obtain ⟨conn,hconn,hr⟩ := hmem hic h
  obtain ⟨conn',hconn',hr'⟩ := hmem hic' h'
  exact m.identified u hu conn hconn _ hr u hu conn' hconn' _ hr' huuid

theorem mem_uniqueRspTypes (hu : u ∈ m.uops) (hic : ic ∈ UoPBase.myIcs m.toModel u) :
    rspType ∈ ConnectionTable.uniqueRspTypes ic ↔ ic.Responds rspType := by
  have hresponds {rspType : MessageType} :
      rspType ∈ ic.connections.filterMap Connection.responseMessageType ↔ ic.Responds rspType :=
    List.mem_filterMap
  refine ⟨fun h => hresponds.mp (mem_of_mem_collect h),fun h => ?_⟩
  obtain ⟨y,hy,huuid⟩ := exists_mem_collect MessageType.uuid (hresponds.mpr h)
  have hyr := hresponds.mp (mem_of_mem_collect hy)
  exact m.responds_identified hu hic hic hyr h huuid ▸ hy

theorem expanded_subset (hic : ic ∈ UoPBase.expanded m.toModel u) :
    ic ∈ UoPBase.myIcs m.toModel u := mem_of_mem_collect hic

/-- The structs of the translation unit are those for the response types of its contexts. -/
theorem mem_responseSenders (hu : u ∈ m.uops) {d : ResponseSender} :
    d ∈ UoPBase.responseSenders m.toModel u ↔ ∃ ic ∈ UoPBase.expanded m.toModel u, ∃ rspType,
      ic.Responds rspType ∧ d = ⟨rspType.name,rspType.dataType⟩ := by
  rw [UoPBase.responseSenders,List.mem_flatMap]
  refine exists_congr fun ic => and_congr_right fun hic => ?_
  rw [ConnectionTable.responseSenders,List.mem_map]
  refine exists_congr fun rspType => and_congr ?_ eq_comm
  exact m.mem_uniqueRspTypes hu (m.expanded_subset hic)

/-- The names within one header are different exactly when response types of one name have one
UUID. -/
theorem nodup_responseSenders (hu : u ∈ m.uops) (hic : ic ∈ UoPBase.myIcs m.toModel u) :
    ((ConnectionTable.responseSenders ic).map ResponseSender.name).Nodup ↔
      ∀ rspType rspType', ic.Responds rspType → ic.Responds rspType' →
        rspType.name = rspType'.name → rspType.uuid = rspType'.uuid := by
  have huuids : ((ConnectionTable.uniqueRspTypes ic).map MessageType.uuid).Nodup :=
    nodup_collect _ _
  rw [ConnectionTable.responseSenders,List.map_map,List.nodup_map_iff_inj_on huuids.of_map]
  constructor
  · intro h rspType rspType' hr hr' hname
    exact congrArg _ (h _ ((m.mem_uniqueRspTypes hu hic).mpr hr) _
      ((m.mem_uniqueRspTypes hu hic).mpr hr') hname)
  · intro h rspType hr rspType' hr' hname
    exact collect_inj hr hr' (h _ _ ((m.mem_uniqueRspTypes hu hic).mp hr)
      ((m.mem_uniqueRspTypes hu hic).mp hr') hname)

/-- The names of two headers are different exactly when those of their response types are. -/
theorem disjoint_responseSenders (hu : u ∈ m.uops) (hic : ic ∈ UoPBase.myIcs m.toModel u)
    (hic' : ic' ∈ UoPBase.myIcs m.toModel u) :
    ((ConnectionTable.responseSenders ic).map ResponseSender.name).Disjoint
        ((ConnectionTable.responseSenders ic').map ResponseSender.name) ↔
      ∀ rspType rspType', ic.Responds rspType → ic'.Responds rspType' →
        rspType.name ≠ rspType'.name := by
  have hmem {ic : IntegrationContext} (hic : ic ∈ UoPBase.myIcs m.toModel u) {name : String} :
      name ∈ (ConnectionTable.responseSenders ic).map ResponseSender.name ↔
        ∃ rspType, ic.Responds rspType ∧ rspType.name = name := by
    rw [ConnectionTable.responseSenders,List.map_map,List.mem_map]
    exact exists_congr fun rspType => and_congr_left' (m.mem_uniqueRspTypes hu hic)
  constructor
  · intro h rspType rspType' hr hr' hname
    exact h ((hmem hic).mpr ⟨_,hr,rfl⟩) ((hmem hic').mpr ⟨_,hr',hname.symm⟩)
  · intro h name hn hn'
    obtain ⟨rspType,hr,rfl⟩ := (hmem hic).mp hn
    obtain ⟨rspType',hr',hname⟩ := (hmem hic').mp hn'
    exact h _ _ hr hr' hname.symm

end ValidModel

/-- The structs of a UoP are in order if and only if its response types are spread over its
Integration Contexts by their names. -/
theorem sendersDefined_iff (m : ValidModel) {u : UoP} (hu : u ∈ m.uops) :
    SendersDefined m.toModel u ↔ SendersSeparate m.toModel u := by
  have honce : ((UoPBase.responseSenders m.toModel u).map ResponseSender.name).Nodup ↔
      (∀ ic ∈ UoPBase.expanded m.toModel u, ∀ rspType rspType', ic.Responds rspType →
        ic.Responds rspType' → rspType.name = rspType'.name → rspType.uuid = rspType'.uuid) ∧
      (UoPBase.expanded m.toModel u).Pairwise fun ic ic' => ∀ rspType rspType',
        ic.Responds rspType → ic'.Responds rspType' → rspType.name ≠ rspType'.name := by
    rw [UoPBase.responseSenders,List.map_flatMap,List.nodup_flatMap]
    refine and_congr ?_ ?_
    · exact forall₂_congr fun ic hic => m.nodup_responseSenders hu (m.expanded_subset hic)
    · exact List.Pairwise.iff_of_mem fun hic hic' =>
        m.disjoint_responseSenders hu (m.expanded_subset hic) (m.expanded_subset hic')
  constructor
  · intro h
    refine ⟨(honce.mp h.once).1,(honce.mp h.once).2,fun ic hic conn hconn rspType hrole hr => ?_⟩
    obtain ⟨d,hd,-,hparameter⟩ := h.own ic hic conn hconn rspType hrole hr
    obtain ⟨ic',hic',rspType',hr',rfl⟩ := (m.mem_responseSenders hu).mp hd
    exact ⟨ic',hic',rspType',hr',hparameter⟩
  · intro h
    refine ⟨honce.mpr ⟨h.within,h.between⟩,fun ic hic conn hconn rspType hrole hr => ?_⟩
    obtain ⟨ic',hic',rspType',hr',htype⟩ := h.hidden ic hic conn hconn rspType hrole hr
    exact ⟨_,(m.mem_responseSenders hu).mpr ⟨ic',hic',rspType',hr',rfl⟩,
      congrArg DataType.name htype,htype⟩

/-- A responder whose connection is in so many Integration Contexts. -/
def respondingUop : UoP :=
  ⟨"Shop",[⟨"Prices",.clientServer,.responder,⟨"1","Query","Shop",false⟩,
    some ⟨"2","Price","Shop",false⟩,fun _ => rfl⟩]⟩

def respondingModel (contexts : List IntegrationContext)
    (h : ∀ ic ∈ contexts, ic.connections = respondingUop.connections) : ValidModel where
  uops := [respondingUop]
  integrationContexts := contexts
  namespaces := [⟨"Shop",[⟨"1","Query","Shop",false⟩,⟨"2","Price","Shop",false⟩]⟩]
  identified := by decide
  role_iff := by decide
  listed := by decide
  listedOnce := by decide
  namespace_eq := by decide
  contexts u hu ic hic _ conn hconn := by
    obtain rfl := List.mem_singleton.mp hu
    exact h ic hic ▸ hconn

def oneContext : ValidModel :=
  respondingModel [⟨"Local","Shop",respondingUop.connections⟩] (by decide)

theorem oneContext_sendersDefined : SendersDefined oneContext.toModel respondingUop := by
  have hexpanded : UoPBase.expanded oneContext.toModel respondingUop =
      oneContext.integrationContexts := rfl
  have hresponds : ∀ ic ∈ oneContext.integrationContexts, ∀ rspType, ic.Responds rspType →
      rspType.uuid = "2" := by
    intro ic hic rspType hr
    obtain rfl := List.mem_singleton.mp hic
    obtain ⟨conn,hconn,hr⟩ := hr
    obtain rfl := List.mem_singleton.mp hconn
    exact Option.some.inj hr ▸ rfl
  refine (sendersDefined_iff oneContext List.mem_cons_self).mpr
    ⟨fun ic hic rspType rspType' hr hr' _ => ?_,?_,fun ic hic conn hconn rspType _ hr => ?_⟩
  · rw [hresponds ic hic rspType hr,hresponds ic hic rspType' hr']
  · rw [hexpanded]
    exact List.pairwise_singleton _ _
  · exact ⟨ic,hexpanded ▸ List.mem_of_mem_filter hic,rspType,⟨conn,hconn,hr⟩,rfl⟩

def twoContexts : ValidModel :=
  respondingModel [⟨"Local","Shop",respondingUop.connections⟩,
    ⟨"Remote","Shop",respondingUop.connections⟩] (by decide)

/-- Both headers define the struct. -/
theorem twoContexts_not_sendersDefined : ¬SendersDefined twoContexts.toModel respondingUop :=
  fun h => absurd h.once (by decide)

end Blush.Codegen
