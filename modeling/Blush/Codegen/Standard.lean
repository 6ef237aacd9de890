import Mathlib.Data.List.Dedup
import Mathlib.Logic.Relation
import Blush.Codegen.Model

/-! Bare `Traits<T>`: where the generated code uses one, and where it is declared. -/
namespace Blush.Codegen
open FirstSeen

/-- A model whose roles fit its kinds of connections, whose types are each listed once, in their own
namespaces, and whose integration contexts refer to connections of their UoPs. -/
structure ValidModel extends Model where
  role_iff : ∀ u ∈ uops, ∀ conn ∈ u.connections,
    conn.kind = .clientServer ↔ conn.role = .requester ∨ conn.role = .responder
  listed : ∀ u ∈ uops, ∀ conn ∈ u.connections, ∀ type ∈ conn.types,
    ∃ ns ∈ namespaces, type ∈ ns.types
  listedOnce : ((namespaces.flatMap ModelNamespace.types).map MessageType.uuid).Nodup
  namespace_eq : ∀ ns ∈ namespaces, ∀ type ∈ ns.types, type.modelNamespace = ns.name
  contexts : ∀ u ∈ uops, ∀ ic ∈ integrationContexts, ic.uopName = u.name →
    ∀ conn ∈ ic.connections, conn ∈ u.connections

/-- A generated header includes another one. -/
inductive Includes (m : Model) : Header → Header → Prop
  | base {u h} (hu : u ∈ m.uops) (hh : h ∈ UoPBase.includes m u) : Includes m (.base u.name) h
  | typeTraits {u h} (hu : u ∈ m.uops) (hh : h ∈ UoPTypeTraits.includes u) :
      Includes m (.typeTraits u.name) h
  | connectionTableImpl {u ic h} (hu : u ∈ m.uops) (hic : ic ∈ UoPBase.myIcs m u)
      (hh : h ∈ ConnectionTableImpl.includes u ic) :
      Includes m (.connectionTableImpl u.name ic.name) h
  | modelNamespace {ns h} (hns : ns ∈ m.namespaces) (hh : h ∈ ns.includes) :
      Includes m (.modelNamespace ns.name) h
  | modelNamespaceTraits {ns h} (hns : ns ∈ m.namespaces)
      (hh : h ∈ ModelNamespaceTraits.includes ns) : Includes m (.modelNamespaceTraits ns.name) h

namespace Model
variable (m : Model)

/-- The declarations in all namespaces. -/
def declarations : List StandardTraits :=
  m.namespaces.flatMap (ModelNamespaceTraits.declarations m)

/-- A connection table of the UoP has a member whose class uses `Traits<T>`. -/
def Holds (u : UoP) (ic : IntegrationContext) (type : MessageType) : Prop :=
  ic ∈ UoPBase.myIcs m u ∧ ∃ member ∈ ConnectionTableImpl.members ic, type ∈ member.standardTypes

/-- The declarations of `Traits<dataType>`. -/
def declarationsOf (dataType : DataType) : List StandardTraits :=
  m.declarations.filter fun d => d.dataType = dataType

/-- Every connection with a message type of that data type is a REQUESTER's. -/
def RequesterOnly (dataType : DataType) : Prop :=
  ∀ u ∈ m.uops, ∀ conn ∈ u.connections, ∀ type ∈ conn.types, type.dataType = dataType →
    conn.isRequester = true

end Model

/-- The declaration of a type by the macro that fits it. -/
def MessageType.standardTraits (type : MessageType) : StandardTraits :=
  ⟨type,type.dataType,⟨type.modelNamespace,type.name⟩⟩

/-- For every type with a `FaceInjectable` base or in a connection member, the `Traits` of its data
type are declared once, by the macro that fits it, in a header that the header with the use
includes; for a data type that only requesters use they are not declared. -/
structure StandardTraitsDeclared (m : Model) : Prop where
  injected : ∀ u ∈ m.uops, ∀ type ∈ UoPBase.uniqueTypes u,
    m.declarationsOf type.dataType = [type.standardTraits] ∧
      .modelNamespace type.modelNamespace ∈ UoPBase.includes m u ∧
      Relation.TransGen (Includes m) (.base u.name) (.modelNamespaceTraits type.modelNamespace)
  held : ∀ u ∈ m.uops, ∀ ic type, m.Holds u ic type →
    m.declarationsOf type.dataType = [type.standardTraits] ∧
      .modelNamespace type.modelNamespace ∈ UoPTypeTraits.includes u ∧
      Relation.TransGen (Includes m) (.connectionTableImpl u.name ic.name)
        (.modelNamespaceTraits type.modelNamespace)
  requesterOnly : ∀ dataType, m.RequesterOnly dataType → m.declarationsOf dataType = []

/-- The types a UoP uses with their standard modules. -/
def UoP.standardTypes (u : UoP) : List MessageType :=
  u.connections.flatMap Connection.standardTypes

/-- Two types that are used with their standard modules have the same data type only if they are
the same type. -/
def Model.DataTypesDistinct (m : Model) : Prop :=
  ∀ u ∈ m.uops, ∀ type ∈ u.standardTypes, ∀ u' ∈ m.uops, ∀ type' ∈ u'.standardTypes,
    type.dataType = type'.dataType → type.uuid = type'.uuid

namespace Connection
variable {conn : Connection} {type : MessageType}

theorem mem_types_of_standard (h : type ∈ conn.standardTypes) : type ∈ conn.types := by
  rw [standardTypes] at h
  split at h
  · rw [List.mem_singleton.mp h]
    exact List.mem_cons_self
  · split at h
    · exact h
    · simp at h

/-- A requester uses no standard module. -/
theorem not_requester_of_standard (h : type ∈ conn.standardTypes) : conn.isRequester = false := by
  rw [standardTypes] at h
  split at h
  · rename_i hk
    simp [isRequester,hk]
  · split at h
    · rename_i hr
      simp [isRequester,hr]
    · simp at h

end Connection

namespace ValidModel
variable (m : ValidModel) {u : UoP} {conn : Connection} {type type' : MessageType}

/-- The table selects by the role what the other templates select by the kind. -/
theorem standardTypes_member (hu : u ∈ m.uops) (hc : conn ∈ u.connections) :
    (ConnectionTableImpl.member conn).standardTypes = conn.standardTypes := by
  have hrole := m.role_iff u hu conn hc
  rw [ConnectionTableImpl.member,Connection.standardTypes]
  cases hr : conn.role with
  | producer | consumer =>
    have hk : conn.kind ≠ .clientServer := by simp [hrole,hr]
    rw [if_pos hk]
    rfl
  | requester | responder =>
    have hk : ¬conn.kind ≠ .clientServer := by simp [hrole,hr]
    rw [if_neg hk]
    rfl

theorem mem_standardTypes_of_holds {ic : IntegrationContext} (hu : u ∈ m.uops)
    (h : m.Holds u ic type) : type ∈ u.standardTypes := by
  obtain ⟨hic,member,hm,htype⟩ := h
  obtain ⟨conn,hc,rfl⟩ := List.mem_map.mp hm
  obtain ⟨hic,hname⟩ := List.mem_filter.mp hic
  have hmem := m.contexts u hu ic hic (by simpa using hname) conn hc
  rw [m.standardTypes_member hu hmem] at htype
  exact List.mem_flatMap.mpr ⟨conn,hmem,htype⟩

/-- The namespace that lists a used type is its own. -/
theorem exists_namespace (hu : u ∈ m.uops) (h : type ∈ u.standardTypes) :
    ∃ ns ∈ m.namespaces, type ∈ ns.types ∧ ns.name = type.modelNamespace := by
  obtain ⟨conn,hc,htype⟩ := List.mem_flatMap.mp h
  obtain ⟨ns,hns,hl⟩ := m.listed u hu conn hc type (Connection.mem_types_of_standard htype)
  exact ⟨ns,hns,hl,(m.namespace_eq ns hns type hl).symm⟩

theorem eq_of_listed {ns ns' : ModelNamespace} (hns : ns ∈ m.namespaces) (ht : type ∈ ns.types)
    (hns' : ns' ∈ m.namespaces) (ht' : type' ∈ ns'.types) (h : type.uuid = type'.uuid) :
    type = type' :=
  List.inj_on_of_nodup_map m.listedOnce (List.mem_flatMap.mpr ⟨ns,hns,ht⟩)
    (List.mem_flatMap.mpr ⟨ns',hns',ht'⟩) h

/-- A listed type is among those with a standard module if and only if some UoP uses it so. -/
theorem uuid_mem_typed_iff {ns : ModelNamespace} (hns : ns ∈ m.namespaces) (ht : type ∈ ns.types) :
    type.uuid ∈ ModelNamespaceTraits.typedTypeUuids m.toModel ↔
      ∃ u ∈ m.uops, type ∈ u.standardTypes := by
  constructor
  · intro h
    obtain ⟨type',htype',huuid⟩ := List.mem_map.mp (mem_of_mem_collect h)
    obtain ⟨u,hu,hused⟩ := List.mem_flatMap.mp htype'
    obtain ⟨ns',hns',hl,-⟩ := m.exists_namespace hu hused
    obtain rfl := m.eq_of_listed hns' hl hns ht huuid
    exact ⟨u,hu,hused⟩
  · rintro ⟨u,hu,hused⟩
    have hmem : type.uuid ∈ (m.uops.flatMap UoP.standardTypes).map MessageType.uuid :=
      List.mem_map_of_mem (List.mem_flatMap.mpr ⟨u,hu,hused⟩)
    obtain ⟨uuid,hc,heq⟩ := exists_mem_collect id hmem
    obtain rfl : uuid = type.uuid := heq
    exact hc

/-- The declarations, in the order of the listing. -/
theorem declarations_eq : m.declarations =
    ((m.namespaces.flatMap ModelNamespace.types).filter fun type =>
      type.uuid ∈ ModelNamespaceTraits.typedTypeUuids m.toModel).map
        MessageType.standardTraits := by
  rw [Model.declarations,List.filter_flatMap,List.map_flatMap]
  refine List.flatMap_congr fun ns hns => List.map_congr_left fun type htype => ?_
  have hname := m.namespace_eq ns hns type (List.mem_of_mem_filter htype)
  cases hc : type.compositeTemplate <;>
    simp [MessageType.standardTraits,MessageType.dataType,hc,hname]

/-- The types whose `Traits` are declared are those used with their standard modules. -/
theorem mem_declarations {d : StandardTraits} : d ∈ m.declarations ↔
    ∃ u ∈ m.uops, ∃ type ∈ u.standardTypes, d = type.standardTraits := by
  rw [declarations_eq,List.mem_map]
  constructor
  · rintro ⟨type,htype,rfl⟩
    obtain ⟨hlisted,htyped⟩ := List.mem_filter.mp htype
    obtain ⟨ns,hns,hl⟩ := List.mem_flatMap.mp hlisted
    obtain ⟨u,hu,hused⟩ := (m.uuid_mem_typed_iff hns hl).mp (of_decide_eq_true htyped)
    exact ⟨u,hu,type,hused,rfl⟩
  · rintro ⟨u,hu,type,hused,rfl⟩
    obtain ⟨ns,hns,hl,-⟩ := m.exists_namespace hu hused
    have htyped := (m.uuid_mem_typed_iff hns hl).mpr ⟨u,hu,hused⟩
    exact ⟨type,List.mem_filter.mpr ⟨List.mem_flatMap.mpr ⟨ns,hns,hl⟩,decide_eq_true htyped⟩,rfl⟩

/-- A used type is declared once, under its UUID. -/
theorem declarations_of_type (hu : u ∈ m.uops) (h : type ∈ u.standardTypes) :
    m.declarations.filter (fun d => d.type = type) = [type.standardTraits] := by
  obtain ⟨ns,hns,hl,-⟩ := m.exists_namespace hu h
  have hlisted : type ∈ m.namespaces.flatMap ModelNamespace.types :=
    List.mem_flatMap.mpr ⟨ns,hns,hl⟩
  have htyped := (m.uuid_mem_typed_iff hns hl).mpr ⟨u,hu,h⟩
  have hmem : type ∈ (m.namespaces.flatMap ModelNamespace.types).filter fun type =>
      type.uuid ∈ ModelNamespaceTraits.typedTypeUuids m.toModel :=
    List.mem_filter.mpr ⟨hlisted,decide_eq_true htyped⟩
  have hcount := List.count_eq_one_of_mem (m.listedOnce.of_map.filter _) hmem
  rw [declarations_eq,List.filter_map]
  show List.map _ (List.filter (fun t => t = type) _) = _
  rw [List.filter_eq,hcount]
  rfl

/-- As long as the data types are distinct, the `Traits` of each used one are declared once. -/
theorem declaredOnce (hd : m.DataTypesDistinct) (hu : u ∈ m.uops) (h : type ∈ u.standardTypes) :
    m.declarationsOf type.dataType = [type.standardTraits] := by
  rw [← m.declarations_of_type hu h,Model.declarationsOf]
  refine List.filter_congr fun d hmem => decide_eq_decide.mpr ⟨fun he => ?_,fun he => ?_⟩
  · obtain ⟨u',hu',type',hused,rfl⟩ := m.mem_declarations.mp hmem
    obtain ⟨ns,hns,hl,-⟩ := m.exists_namespace hu h
    obtain ⟨ns',hns',hl',-⟩ := m.exists_namespace hu' hused
    exact m.eq_of_listed hns' hl' hns hl (hd u' hu' type' hused u hu type h he)
  · obtain ⟨u',hu',type',hused,rfl⟩ := m.mem_declarations.mp hmem
    exact congrArg MessageType.dataType he

/-- The namespaces of the first types of each UUID are those of all types. -/
theorem mem_uniqueTypes (hu : u ∈ m.uops) (h : type ∈ u.standardTypes) :
    type ∈ collect MessageType.uuid u.standardTypes := by
  obtain ⟨type',hc,huuid⟩ := exists_mem_collect MessageType.uuid h
  obtain ⟨ns,hns,hl,-⟩ := m.exists_namespace hu h
  obtain ⟨ns',hns',hl',-⟩ := m.exists_namespace hu (mem_of_mem_collect hc)
  exact m.eq_of_listed hns' hl' hns hl huuid ▸ hc

/-- Types of one data type with a declaration each make two declarations of its `Traits`. -/
theorem distinct_of_declared (h : StandardTraitsDeclared m.toModel) : m.DataTypesDistinct := by
  intro u hu type hused u' hu' type' hused' he
  have hdecl : type'.standardTraits ∈ m.declarationsOf type.dataType :=
    List.mem_filter.mpr ⟨m.mem_declarations.mpr ⟨u',hu',type',hused',rfl⟩,
      decide_eq_true he.symm⟩
  rw [(h.injected u hu type (m.mem_uniqueTypes hu hused)).1,List.mem_singleton] at hdecl
  exact congrArg (fun d => d.type.uuid) hdecl.symm

theorem not_declared {dataType : DataType} (h : m.RequesterOnly dataType) :
    m.declarationsOf dataType = [] := by
  refine List.filter_eq_nil_iff.mpr fun d hmem he => ?_
  obtain ⟨u,hu,type,hused,rfl⟩ := m.mem_declarations.mp hmem
  obtain ⟨conn,hc,hstandard⟩ := List.mem_flatMap.mp hused
  have hreq := h u hu conn hc type (Connection.mem_types_of_standard hstandard)
    (of_decide_eq_true he)
  simp [Connection.not_requester_of_standard hstandard] at hreq

/-- The convenience header of a used type includes its declaration. -/
theorem includes_traits (hu : u ∈ m.uops) (h : type ∈ u.standardTypes) :
    Includes m.toModel (.modelNamespace type.modelNamespace)
      (.modelNamespaceTraits type.modelNamespace) := by
  obtain ⟨ns,hns,-,hname⟩ := m.exists_namespace hu h
  rw [← hname]
  exact .modelNamespace hns List.mem_cons_self

end ValidModel

theorem mem_collect_id {k : String} {l : List String} (h : k ∈ l) : k ∈ collect id l := by
  obtain ⟨k',hc,rfl⟩ := exists_mem_collect id h
  exact hc

/-- In a model of distinct data types the bare `Traits` of the generated code are declared once
each. -/
theorem ValidModel.declared (m : ValidModel) (hd : m.DataTypesDistinct) :
    StandardTraitsDeclared m.toModel where
  injected u hu type h := by
    have hused : type ∈ u.standardTypes := mem_of_mem_collect h
    have hinclude : .modelNamespace type.modelNamespace ∈ UoPBase.includes m.toModel u := by
      have hns : type.modelNamespace ∈ UoPBase.modelNamespaces u :=
        mem_collect_id (List.mem_map_of_mem h)
      exact List.mem_append_right _ (List.mem_map_of_mem hns)
    exact ⟨m.declaredOnce hd hu hused,hinclude,
      .tail (.single (.base hu hinclude)) (m.includes_traits hu hused)⟩
  held u hu ic type h := by
    have hused := m.mem_standardTypes_of_holds hu h
    have hinclude : .modelNamespace type.modelNamespace ∈ UoPTypeTraits.includes u := by
      have hns : type.modelNamespace ∈ UoPTypeTraits.modelNamespaces u :=
        mem_collect_id (List.mem_append_left _ (List.mem_map_of_mem (m.mem_uniqueTypes hu hused)))
      exact List.mem_map_of_mem hns
    refine ⟨m.declaredOnce hd hu hused,hinclude,?_⟩
    have htable : Includes m.toModel (.connectionTableImpl u.name ic.name) (.typeTraits u.name) :=
      .connectionTableImpl hu h.1 (by simp [ConnectionTableImpl.includes])
    exact .tail (.tail (.single htable) (.typeTraits hu hinclude)) (m.includes_traits hu hused)
  requesterOnly _ h := m.not_declared h

/-- A UoP that publishes one type and sends requests of another. -/
instance : Inhabited ValidModel where
  default := {
    uops := [⟨"Tracker",[
      ⟨"Tracks",.other "queuing",.producer,⟨"1","Track","Air",false⟩,none,by decide⟩,
      ⟨"Lookup",.clientServer,.requester,⟨"2","Query","Air",true⟩,some ⟨"3","Reply","Air",true⟩,
        by decide⟩]⟩]
    integrationContexts := [⟨"Main","Tracker",
      [⟨"Tracks",.other "queuing",.producer,⟨"1","Track","Air",false⟩,none,by decide⟩]⟩]
    namespaces :=
      [⟨"Air",[⟨"1","Track","Air",false⟩,⟨"2","Query","Air",true⟩,⟨"3","Reply","Air",true⟩]⟩]
    identified := by decide
    role_iff := by decide
    listed := by decide
    listedOnce := by decide
    namespace_eq := by decide
    contexts := by decide }

/-- A UoP that publishes two types of one name in one namespace. -/
def twoTracks : ValidModel where
  uops := [⟨"Tracker",[
    ⟨"Radar",.other "queuing",.producer,⟨"1","Track","Air",false⟩,none,by decide⟩,
    ⟨"Sonar",.other "queuing",.producer,⟨"2","Track","Air",false⟩,none,by decide⟩]⟩]
  integrationContexts := []
  namespaces := [⟨"Air",[⟨"1","Track","Air",false⟩,⟨"2","Track","Air",false⟩]⟩]
  identified := by decide
  role_iff := by decide
  listed := by decide
  listedOnce := by decide
  namespace_eq := by decide
  contexts := by decide

end Blush.Codegen
