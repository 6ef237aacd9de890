import Blush.Lib.Threads
import Blush.Resolver.Factories
import Blush.Uop.Release
import Blush.Uop.WholeSet

/-! The connection tables over the life of a UoP: there are none before `Initialize` and after
`Finalize`, and between them the members are what the last text that `Framework_Connect` has read
made of the injected pointers and of the answers of the TSS. -/
namespace Blush.Uop
open Face Injection Resolver Transition
variable {D T : Type}

/-! ## Wiring -/

/-- The factory that is called for a role. -/
def Role.factory : Role D → Factory D
  | producer dataType => .createPubConnection dataType
  | consumer dataType => .createSubConnection dataType
  | requester requestType => .createReqConnection requestType
  | responder request response => .createRspConnection request response

/-- The `Base` object that is asked for a connection, and what is made of the id it gives. -/
abbrev Routes (D : Type) := Connection D → ℕ → (ℤ → ConnectionObject) → Prop

/-- The pointers that a resolver finds. -/
def resolved [Traits D T] (r : ConnectionResolver) (store : Injected T) : Routes D :=
  fun conn base make => (Setup.mk r store []).Resolves conn.name conn.role.factory make ∧
    (Setup.mk r store []).ResolvesBase conn.name base

/-- An answer that gives the id of a connection. -/
def Accepted : Answer → Prop
  | .returned connectionId .noError => 0 ≤ connectionId
  | _ => False

/-- The member that a connection gets, and the calls before and after. -/
inductive Wires (routes : Routes D) (tss : Tss) (conn : Connection D) (log : List Event) :
    Option ConnectionObject → List Event → Prop
  | created {base make connectionId} (route : routes conn base make)
      (answered : tss log base (.ofCString (some conn.name.chars)) =
        .returned connectionId .noError) (nonneg : 0 ≤ connectionId) :
      Wires routes tss conn log (some (make connectionId))
        (log ++ [.createConnection base (.ofCString (some conn.name.chars))
          (.returned connectionId .noError)])
  | refused {base make answer} (route : routes conn base make)
      (answered : tss log base (.ofCString (some conn.name.chars)) = answer)
      (refused : ¬Accepted answer) :
      Wires routes tss conn log none
        (log ++ [.createConnection base (.ofCString (some conn.name.chars)) answer])
  | unrouted (unrouted : ¬∃ base make, routes conn base make) : Wires routes tss conn log none log

/-- The members of all tables, Integration Context by Integration Context. -/
abbrev WiresAll (routes : Routes D) (tss : Tss) :=
  Threads (Threads (Wires routes tss))

section
variable {routes routes' : Routes D} {tss : Tss} {conn : Connection D} {log log' : List Event}
  {member : Option ConnectionObject}

theorem Wires.congr (h : ∀ base make, routes conn base make ↔ routes' conn base make)
    (hw : Wires routes tss conn log member log') : Wires routes' tss conn log member log' := by
  cases hw with
  | created route answered nonneg => exact .created ((h _ _).mp route) answered nonneg
  | refused route answered refused => exact .refused ((h _ _).mp route) answered refused
  | unrouted unrouted => exact .unrouted (by simpa only [h] using unrouted)

theorem Wires.extends (hw : Wires routes tss conn log member log') : log <+: log' := by
  cases hw with
  | created | refused => exact List.prefix_append _ _
  | unrouted => exact List.prefix_rfl

end

section
variable [Traits D T] {r : ConnectionResolver} {store : Injected T} {tss : Tss}

/-- Earlier calls of the TSS do not matter for the pointers. -/
theorem resolves_of_log {f : Factory D} {c : CString} {make : ℤ → ConnectionObject}
    {log log' : List Event} (h : (Setup.mk r store log).Resolves c f make) :
    (Setup.mk r store log').Resolves c f make :=
  pointers_eq_some.mp (show f.pointers ⟨r,store,log'⟩ c = some make from
    (pointers_eq_some (s:=⟨r,store,log⟩)).mpr h)

theorem create_eq (conn : Connection D) (log : List Event) :
    conn.create r store tss log = conn.role.factory.call r store tss log conn.name := by
  obtain ⟨name,role⟩ := conn
  cases role <;> rfl

/-- The assignment to a member does what its pointers and the TSS say. -/
theorem create_wires (conn : Connection D) (log : List Event) :
    Wires (resolved r store) tss conn log (conn.create r store tss log).1
      (conn.create r store tss log).2 := by
  have hcall : conn.create r store tss log =
      r.createFrom store tss log conn.name (conn.role.factory.pointers ⟨r,store,log⟩ conn.name) id :=
    (create_eq conn log).trans (call_eq (s:=⟨r,store,log⟩))
  rw [hcall]
  by_cases h : ∃ base make, resolved r store conn base make
  · obtain ⟨base,make,hroute⟩ := h
    have hfrom := createFrom_of_resolves (s:=⟨r,store,log⟩) tss (resolves_of_log hroute.1) hroute.2
    rw [hfrom]
    generalize ha : tss log base (.ofCString (some conn.name.chars)) = answer
    cases answer with
    | threw => exact .refused hroute ha id
    | returned connectionId returnCode =>
      cases returnCode with
      | noError =>
        by_cases hid : connectionId < 0
        · simpa only [if_pos hid] using Wires.refused hroute ha (not_le.mpr hid)
        · simpa only [if_neg hid] using Wires.created hroute ha (not_lt.mp hid)
      | _ => exact .refused hroute ha id
  · have hfrom := createFrom_of_not (s:=⟨r,store,log⟩) (f:=conn.role.factory) (c:=conn.name) tss
      fun ⟨make,base,hm,hb⟩ => h ⟨base,make,resolves_of_log hm,hb⟩
    rw [hfrom]
    exact .unrouted h

variable (r store tss)

theorem initializeTable_wires (conns : List (Connection D)) (log : List Event) :
    Threads (Wires (resolved r store) tss) conns log (initializeTable r store tss conns log).1
      (initializeTable r store tss conns log).2 := by
  induction conns generalizing log with
  | nil => exact .nil
  | cons conn conns ih => exact .cons (create_wires conn log) (ih _)

/-- With all tables there every Integration Context is wired. -/
theorem initializeTables_wires (ics : List (List (Connection D)))
    (tables : List ConnectionTableImpl) (log : List Event) (hl : tables.length = ics.length) :
    ∃ tables', (initializeTables r store tss ics (tables.map some) log).1 = tables'.map some ∧
      WiresAll (resolved r store) tss ics log tables'
        (initializeTables r store tss ics (tables.map some) log).2 := by
  induction ics generalizing tables log with
  | nil =>
    obtain rfl := List.length_eq_zero_iff.mp hl
    exact ⟨[],rfl,.nil⟩
  | cons ic ics ih =>
    cases tables with
    | nil => simp at hl
    | cons table tables =>
      have hfirst := initializeTable_wires r store tss ic log
      obtain ⟨tables',htables,hrest⟩ := ih tables (initializeTable r store tss ic log).2
        (by simpa using hl)
      refine ⟨(initializeTable r store tss ic log).1::tables',?_,.cons hfirst hrest⟩
      rw [List.map_cons,initializeTables,htables,List.map_cons]

/-- Without tables nothing is asked for. -/
theorem initializeTables_of_none (ics : List (List (Connection D))) (log : List Event) :
    initializeTables r store tss ics (ics.map fun _ => none) log =
      (ics.map fun _ => none,log) := by
  induction ics with
  | nil => rfl
  | cons ic ics ih => rw [List.map_cons,initializeTables,ih]

end

/-! ## Phases -/

/-- Where a UoP is in its life; it was connected last in the state `before`, by a text. -/
inductive Phase (T : Type)
  | finalized
  | initialized
  | connected (before : State T) (xml : CString)

namespace UoP
variable (u : UoP D)

/-- The phase after a step. A `Framework_Connect` that reads no text connects nothing, and so does
any without tables. -/
def nextPhase (phase : Phase T) (p : State T × Act T) : Phase T :=
  match p.2 with
  | .initializeBase => .initialized
  | .finalizeBase => .finalized
  | .frameworkConnect configuration service =>
    match phase,u.configXml? p.1 configuration service with
    | .finalized,_ => .finalized
    | _,some xml => .connected p.1 xml
    | phase,none => phase
  | _ => phase

/-- The phase after a run. -/
def phase (steps : List (State T × Act T)) : Phase T := steps.foldl u.nextPhase .finalized

/-- The tables that belong to a phase. -/
def Tables [Traits D T] (parse : CString → Option (List Element)) (tss : Tss) (s : State T) :
    Phase T → Prop
  | .finalized => s.tables = u.integrationContexts.map fun _ => none
  | .initialized => s.tables = u.integrationContexts.map fun ic => some (ic.map fun _ => none)
  | .connected before xml => ∃ tables, s.tables = tables.map some ∧
      WiresAll (resolved (u.resolver parse xml) before.store) tss u.integrationContexts before.log
        tables s.log

end UoP

section
variable {u : UoP D} {parse : CString → Option (List Element)} {tss : Tss} {s s' : State T}
  {phase : Phase T} {configuration : StringType} {service : Configuration}

theorem nextPhase_of_no_configXml (h : u.configXml? s configuration service = none) :
    u.nextPhase phase (s,.frameworkConnect configuration service) = phase := by
  cases phase <;> simp [UoP.nextPhase,h]

theorem nextPhase_of_configXml {xml : CString} (hp : phase ≠ .finalized)
    (h : u.configXml? s configuration service = some xml) :
    u.nextPhase phase (s,.frameworkConnect configuration service) = .connected s xml := by
  cases phase with
  | finalized => exact absurd rfl hp
  | initialized | connected => simp [UoP.nextPhase,h]

variable [Traits D T]

theorem UoP.Tables.congr (h : u.Tables parse tss s phase) (ht : s'.tables = s.tables)
    (hl : s'.log = s.log) : u.Tables parse tss s' phase := by
  cases phase with
  | finalized | initialized => exact ht.trans h
  | connected before xml => simpa only [UoP.Tables,ht,hl] using h

/-- Without a text the tables and the TSS are left alone. -/
theorem frameworkConnect_of_no_configXml (h : u.configXml? s configuration service = none)
    (hc : u.frameworkConnect parse tss s configuration service = some s') :
    s'.tables = s.tables ∧ s'.log = s.log := by
  cases hp : u.service? s with
  | error what =>
    rw [frameworkConnect_of_error hp] at hc
    obtain rfl := Option.some.inj hc
    exact ⟨rfl,rfl⟩
  | ok pointer =>
    cases pointer with
    | none =>
      rw [frameworkConnect_of_null hp] at hc
      cases hc
    | some p =>
      rw [UoP.configXml?,hp] at h
      rw [frameworkConnect_of_some hp,UoP.afterSession] at hc
      cases hs : (service.session (u.containerName configuration)).2 with
      | text xmlBuffer => simp [hs] at h
      | overrun => simp [hs] at hc
      | failed | threw =>
        rw [hs] at hc
        obtain rfl := Option.some.inj hc
        exact ⟨rfl,rfl⟩

/-- `Framework_Connect` with tables: all of them are wired as the text says. -/
theorem frameworkConnect_wires {xml : CString} {tables : List ConnectionTableImpl}
    (hxml : u.configXml? s configuration service = some xml)
    (ht : s.tables = tables.map some) (hl : tables.length = u.integrationContexts.length)
    (hc : u.frameworkConnect parse tss s configuration service = some s') :
    u.Tables parse tss s' (.connected s xml) := by
  rw [frameworkConnect_of_configXml? hxml] at hc
  obtain rfl := Option.some.inj hc
  obtain ⟨tables',htables,hwires⟩ := initializeTables_wires (u.resolver parse xml) s.store tss
    u.integrationContexts tables s.log hl
  rw [← ht] at htables hwires
  exact ⟨tables',htables,hwires⟩

/-- The tables that belong to a phase with tables. -/
theorem UoP.Tables.exist (h : u.Tables parse tss s phase) (hp : phase ≠ .finalized) :
    ∃ tables : List ConnectionTableImpl, s.tables = tables.map some ∧
      tables.length = u.integrationContexts.length := by
  cases phase with
  | finalized => exact absurd rfl hp
  | initialized =>
    refine ⟨u.integrationContexts.map fun ic => ic.map fun _ => none,?_,List.length_map ..⟩
    rw [List.map_map]
    exact h
  | connected before xml =>
    obtain ⟨tables,ht,hwires⟩ := h
    exact ⟨tables,ht,hwires.length_eq⟩

variable [DecidableEq T]

/-- A step goes from the tables of a phase to those of the next one. -/
theorem step_tables {a : Act T} (h : step u parse tss s a = some s')
    (hs : u.Tables parse tss s phase) : u.Tables parse tss s' (u.nextPhase phase (s,a)) := by
  cases a with
  | setReference | frameworkDisconnect =>
    obtain rfl := Option.some.inj h
    exact hs.congr rfl rfl
  | initializeBase | finalizeBase =>
    obtain rfl := Option.some.inj h
    rfl
  | frameworkConnect configuration service =>
    have hc : u.frameworkConnect parse tss s configuration service = some s' := h
    cases hxml : u.configXml? s configuration service with
    | none =>
      obtain ⟨ht,hl⟩ := frameworkConnect_of_no_configXml hxml hc
      rw [nextPhase_of_no_configXml hxml]
      exact hs.congr ht hl
    | some xml =>
      by_cases hp : phase = .finalized
      · subst hp
        have hnext : u.nextPhase .finalized (s,.frameworkConnect configuration service) =
            .finalized := by simp [UoP.nextPhase]
        have htables : s.tables = u.integrationContexts.map fun _ => none := hs
        have hnone := initializeTables_of_none (u.resolver parse xml) s.store tss
          u.integrationContexts s.log
        rw [frameworkConnect_of_configXml? hxml] at hc
        obtain rfl := Option.some.inj hc
        rw [← htables] at hnone
        rw [hnext]
        exact (congrArg Prod.fst hnone).trans htables
      · obtain ⟨tables,ht,hl⟩ := hs.exist hp
        rw [nextPhase_of_configXml hp hxml]
        exact frameworkConnect_wires hxml ht hl hc

theorem run_tables {store : Injected T} {steps : List (State T × Act T)}
    (h : Run (step u parse tss) (start u store) steps s) :
    u.Tables parse tss s (u.phase steps) := by
  induction h with
  | refl => rfl
  | next _ hs ih =>
    rw [UoP.phase,List.foldl_concat]
    exact step_tables hs ih

end

/-! ## Connections of the TSS -/

/-- The id that a member uses. -/
def connectionId : ConnectionObject → ℤ
  | .publisherConnection _ connectionId | .subscriberConnection _ connectionId
  | .requesterConnection _ connectionId | .responderConnection _ _ connectionId => connectionId

/-- The name and the id of a connection that the TSS gave. -/
def accepted : Event → Option (StringType × ℤ)
  | .createConnection _ name (.returned connectionId .noError) =>
    if connectionId < 0 then none else some (name,connectionId)
  | _ => none

/-- The name and the id of a connection with a member. -/
def Connection.wired (conn : Connection D) (member : Option ConnectionObject) :
    List (StringType × ℤ) :=
  (member.map fun object => (.ofCString (some conn.name.chars),connectionId object)).toList

/-- The names and the ids of all members of a UoP. -/
def UoP.wired (u : UoP D) (s : State T) : List (StringType × ℤ) :=
  (List.zipWith (fun ic table => (List.zipWith Connection.wired ic (table.getD [])).flatten)
    u.integrationContexts s.tables).flatten

/-- The calls of the TSS since the last `Framework_Connect` that wired the tables. -/
def Phase.calls (phase : Phase T) (s : State T) : List Event :=
  match phase with
  | .connected before _ => s.log.drop before.log.length
  | _ => []

section
variable [Traits D T] {u : UoP D} {parse : CString → Option (List Element)} {tss : Tss}
  {s : State T}

theorem accepted_eq_none {base : ℕ} {name : StringType} {answer : Answer} (h : ¬Accepted answer) :
    accepted (.createConnection base name answer) = none := by
  cases answer with
  | threw => rfl
  | returned connectionId returnCode =>
    cases returnCode with
    | noError => exact if_pos (not_le.mp h)
    | _ => rfl

/-- A connection has a member with the id that was accepted for it, or none was. -/
theorem wires_accepted {r : ConnectionResolver} {store : Injected T} {conn : Connection D}
    {log log' : List Event} {member : Option ConnectionObject}
    (h : Wires (resolved r store) tss conn log member log') :
    ∃ calls, log' = log ++ calls ∧ calls.filterMap accepted = conn.wired member := by
  cases h with
  | @created base make id route answered nonneg =>
    have hid : connectionId (make id) = id := by
      have hmake := route.1
      generalize conn.role.factory = f at hmake
      cases hmake <;> rfl
    refine ⟨_,rfl,?_⟩
    simp [Connection.wired,accepted,hid,not_lt.mpr nonneg]
  | refused route answered refused =>
    refine ⟨_,rfl,?_⟩
    rw [List.filterMap_cons_none (accepted_eq_none refused)]
    rfl
  | unrouted => exact ⟨[],(List.append_nil _).symm,rfl⟩

/-- The members of a phase are the connections accepted in it. -/
theorem UoP.Tables.wired {phase : Phase T} (h : u.Tables parse tss s phase) :
    u.wired s = (phase.calls s).filterMap accepted := by
  cases phase with
  | finalized =>
    have ht : s.tables = u.integrationContexts.map fun _ => none := h
    rw [UoP.wired,ht,List.zipWith_map_right]
    simp [Phase.calls]
  | initialized =>
    have ht : s.tables = u.integrationContexts.map fun ic => some (ic.map fun _ => none) := h
    have hnone (ic : List (Connection D)) :
        (List.zipWith Connection.wired ic (ic.map fun _ => none)).flatten = [] := by
      rw [List.zipWith_map_right,List.zipWith_self]
      simp [Connection.wired]
    rw [UoP.wired,ht,List.zipWith_map_right,List.zipWith_self]
    simp only [Option.getD_some,hnone]
    simp [Phase.calls]
  | connected before xml =>
    obtain ⟨tables,ht,hwires⟩ := h
    obtain ⟨calls,hlog,hcalls⟩ := hwires.appends fun _ _ _ _ h =>
      h.appends fun _ _ _ _ h => wires_accepted h
    rw [Phase.calls,hlog,List.drop_left,hcalls,UoP.wired,ht,List.zipWith_map_right]
    rfl

/-- What holds of the tables after a run. -/
structure Wired (u : UoP D) (parse : CString → Option (List Element)) (tss : Tss)
    (steps : List (State T × Act T)) (s : State T) : Prop where
  tables : u.Tables parse tss s (u.phase steps)
  accepted : u.wired s = ((u.phase steps).calls s).filterMap accepted
  distinct : ((s.log.filterMap Uop.accepted).map Prod.snd).Nodup → ((u.wired s).map Prod.snd).Nodup

/-- After every run of the lifecycle the tables are those of the phase, their members are the
connections that the TSS has accepted in it, in order, and no two members have the same id unless
the TSS gave it twice. -/
theorem wired_of_run [DecidableEq T] {store : Injected T} {steps : List (State T × Act T)}
    (h : Run (step u parse tss) (start u store) steps s) : Wired u parse tss steps s := by
  have htables := run_tables h
  refine ⟨htables,htables.wired,fun hnodup => ?_⟩
  have hcalls : ((u.phase steps).calls s).Sublist s.log := by
    cases u.phase steps with
    | connected => exact List.drop_sublist _ _
    | finalized | initialized => exact List.nil_sublist _
  rw [htables.wired]
  exact ((hcalls.filterMap accepted).map Prod.snd).nodup hnodup

end

/-- The connection 7 that was created for `Out` is still a member after `Framework_Disconnect`. -/
theorem disconnectedRun_wired :
    Wired publisher parseXml (fun _ _ _ => .returned 7 .noError) disconnectedRun.steps
        disconnectedRun.final ∧
      (publisher.wired disconnectedRun.final).map Prod.snd = [7] :=
  ⟨wired_of_run disconnectedRun.run,by decide +kernel⟩

end Blush.Uop
