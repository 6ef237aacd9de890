import Blush.Codegen.Model

/-! `Traits<T, RequesterRole>` over all generated `<UoP>TypeTraits.h` headers. -/
namespace Blush.Codegen
open FirstSeen

def UoP.requesters (u : UoP) : List Connection := u.connections.filter Connection.isRequester

/-- Each specialisation is declared at most once in all headers, and the one that a UoP sees for
the request type of a REQUESTER connection names the combined module of that connection. -/
structure RequestersBound (m : Model) : Prop where
  once : ((m.uops.flatMap UoPTypeTraits.declarations).map RequesterTraits.dataType).Nodup
  declared : ∀ u ∈ m.uops, ∀ conn ∈ u.requesters, ∃ d ∈ UoPTypeTraits.declarations u,
    d.dataType = conn.messageType.dataType
  bound : ∀ u ∈ m.uops, ∀ conn ∈ u.requesters, ∀ d ∈ UoPTypeTraits.declarations u,
    d.dataType = conn.messageType.dataType → d.typedTS = conn.combinedModule

/-- REQUESTER connections with one C++ request type belong to one UoP, have one request type of the
model, and have response types of one name. -/
structure Unambiguous (m : Model) : Prop where
  within : ∀ u ∈ m.uops, ∀ conn ∈ u.requesters, ∀ conn' ∈ u.requesters,
    conn.messageType.dataType = conn'.messageType.dataType →
      conn.messageType.uuid = conn'.messageType.uuid ∧ conn.responseName = conn'.responseName
  between : m.uops.Pairwise fun u u' => ∀ conn ∈ u.requesters, ∀ conn' ∈ u'.requesters,
    conn.messageType.dataType ≠ conn'.messageType.dataType

namespace Connection
variable {conn conn' : Connection}

theorem messageType_mem : conn.messageType ∈ conn.types := List.mem_cons_self

/-- For one request type the combined module is that of the response name. -/
theorem combinedModule_eq_iff (h : conn.messageType.dataType = conn'.messageType.dataType) :
    conn.combinedModule = conn'.combinedModule ↔ conn.responseName = conn'.responseName := by
  obtain ⟨hns,hname,-⟩ := DataType.mk.inj h
  simp [combinedModule,hns,hname]

end Connection

/-- The declarations of a UoP are those of REQUESTER connections of it. -/
theorem exists_requester {u : UoP} {d : RequesterTraits} (h : d ∈ UoPTypeTraits.declarations u) :
    ∃ conn ∈ u.requesters, conn ∈ UoPTypeTraits.reqRespPairs u ∧
      d = ⟨conn.messageType.dataType,conn.combinedModule⟩ := by
  obtain ⟨conn,hc,rfl⟩ := List.mem_map.mp h
  exact ⟨conn,mem_of_mem_collect hc,hc,rfl⟩

/-- The request type of every REQUESTER connection of a UoP has a declaration there. -/
theorem Model.exists_pair (m : Model) {u : UoP} (hu : u ∈ m.uops) {conn : Connection}
    (hc : conn ∈ u.requesters) :
    ∃ pair ∈ UoPTypeTraits.reqRespPairs u, pair.messageType = conn.messageType := by
  obtain ⟨pair,hp,huuid⟩ := exists_mem_collect (fun conn => conn.messageType.uuid) hc
  have hmem := List.mem_of_mem_filter (mem_of_mem_collect hp)
  exact ⟨pair,hp,m.identified u hu pair hmem _ pair.messageType_mem u hu conn
    (List.mem_of_mem_filter hc) _ conn.messageType_mem huuid⟩

theorem Model.exists_declaration (m : Model) {u : UoP} (hu : u ∈ m.uops) {conn : Connection}
    (hc : conn ∈ u.requesters) :
    ∃ d ∈ UoPTypeTraits.declarations u, d.dataType = conn.messageType.dataType := by
  obtain ⟨pair,hp,htype⟩ := m.exists_pair hu hc
  exact ⟨_,List.mem_map_of_mem hp,congrArg MessageType.dataType htype⟩

namespace RequestersBound
variable {m : Model}

theorem within (h : RequestersBound m) {u : UoP} (hu : u ∈ m.uops) {conn conn' : Connection}
    (hc : conn ∈ u.requesters) (hc' : conn' ∈ u.requesters)
    (htype : conn.messageType.dataType = conn'.messageType.dataType) :
    conn.messageType.uuid = conn'.messageType.uuid ∧ conn.responseName = conn'.responseName := by
  obtain ⟨pair,hp,hpair⟩ := m.exists_pair hu hc
  obtain ⟨pair',hp',hpair'⟩ := m.exists_pair hu hc'
  have honce := h.once
  rw [List.map_flatMap,List.nodup_flatMap] at honce
  have hsame : pair = pair' := by
    have hnodup := honce.1 u hu
    rw [UoPTypeTraits.declarations,List.map_map] at hnodup
    exact List.inj_on_of_nodup_map hnodup hp hp' (by simp [hpair,hpair',htype])
  subst hsame
  refine ⟨by rw [← hpair,← hpair'],?_⟩
  have hd : (⟨pair.messageType.dataType,pair.combinedModule⟩ : RequesterTraits) ∈
      UoPTypeTraits.declarations u := List.mem_map_of_mem hp
  have hb := h.bound u hu conn hc _ hd (congrArg MessageType.dataType hpair)
  have hb' := h.bound u hu conn' hc' _ hd (congrArg MessageType.dataType hpair')
  exact (Connection.combinedModule_eq_iff htype).mp (hb.symm.trans hb')

theorem unambiguous (h : RequestersBound m) : Unambiguous m where
  within u hu conn hc conn' hc' := h.within hu hc hc'
  between := by
    have honce := h.once
    rw [List.map_flatMap,List.nodup_flatMap] at honce
    refine honce.2.imp_of_mem fun {u u'} hu hu' hdisjoint conn hc conn' hc' htype => ?_
    obtain ⟨d,hd,hdtype⟩ := m.exists_declaration hu hc
    obtain ⟨d',hd',hdtype'⟩ := m.exists_declaration hu' hc'
    have hmem : conn.messageType.dataType ∈
        (UoPTypeTraits.declarations u').map RequesterTraits.dataType := by
      rw [htype,← hdtype']
      exact List.mem_map_of_mem hd'
    exact hdisjoint (hdtype ▸ List.mem_map_of_mem hd) hmem

end RequestersBound

namespace Unambiguous
variable {m : Model}

theorem once (h : Unambiguous m) :
    ((m.uops.flatMap UoPTypeTraits.declarations).map RequesterTraits.dataType).Nodup := by
  rw [List.map_flatMap,List.nodup_flatMap]
  constructor
  · intro u hu
    rw [UoPTypeTraits.declarations,List.map_map]
    have hnodup := nodup_collect (fun conn => conn.messageType.uuid) u.requesters
    refine (List.nodup_map_iff_inj_on hnodup.of_map).mpr fun pair hp pair' hp' htype => ?_
    have huuid := (h.within u hu pair (mem_of_mem_collect hp) pair' (mem_of_mem_collect hp')
      htype).1
    exact collect_inj hp hp' huuid
  · refine h.between.imp fun {u u'} hne type htype htype' => ?_
    obtain ⟨d,hd,rfl⟩ := List.mem_map.mp htype
    obtain ⟨d',hd',heq⟩ := List.mem_map.mp htype'
    obtain ⟨conn,hc,-,rfl⟩ := exists_requester hd
    obtain ⟨conn',hc',-,rfl⟩ := exists_requester hd'
    exact hne conn hc conn' hc' heq.symm

theorem requestersBound (h : Unambiguous m) : RequestersBound m where
  once := h.once
  declared u hu conn hc := m.exists_declaration hu hc
  bound u hu conn hc d hd htype := by
    obtain ⟨pair,hp,-,rfl⟩ := exists_requester hd
    have hname := (h.within u hu pair hp conn hc htype).2
    exact (Connection.combinedModule_eq_iff htype).mpr hname

end Unambiguous

/-- The specialisations for requesters are unique and bound to their connections exactly in the
models where the request type of a REQUESTER connection determines its UoP and the name of its
response type. -/
theorem requestersBound_iff (m : Model) : RequestersBound m ↔ Unambiguous m :=
  ⟨RequestersBound.unambiguous,Unambiguous.requestersBound⟩

/-- A UoP that asks two servers for different answers to requests of one type. -/
def sharedRequest : Model where
  uops := [{
    name := "Client"
    connections := [
      ⟨"PriceRequest",.clientServer,.requester,⟨"1","Query","Shop",false⟩,
        some ⟨"2","Price","Shop",false⟩,by decide⟩,
      ⟨"StockRequest",.clientServer,.requester,⟨"1","Query","Shop",false⟩,
        some ⟨"3","Stock","Shop",false⟩,by decide⟩] }]
  integrationContexts := []
  namespaces := []
  identified := by decide

/-- The second connection is bound to the transport of the first one. -/
theorem sharedRequest_not_bound : ¬RequestersBound sharedRequest ∧
    sharedRequest.uops.flatMap UoPTypeTraits.declarations =
      [⟨⟨"Shop","Query",true⟩,⟨"Shop","Query_Price"⟩⟩] ∧
    (sharedRequest.uops.flatMap UoP.requesters).map Connection.combinedModule =
      [⟨"Shop","Query_Price"⟩,⟨"Shop","Query_Stock"⟩] := by
  refine ⟨fun h => ?_,by decide,by decide⟩
  exact absurd h.bound (by decide)

end Blush.Codegen
