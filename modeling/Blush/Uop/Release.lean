import Blush.Uop.ConfigText

/-! No operation of the lifecycle releases a transport connection: what a UoP has obtained stays
open over `Framework_Disconnect` and `Finalize`. -/
namespace Blush.Uop
open Face Injection Resolver Transition
variable {D T : Type} [Traits D T] {u : UoP D} {r : ConnectionResolver} {store : Injected T}
  {tss : Tss} {log log' log'' : List Event}

/-- Calls of `Create_Connection` only. -/
def OnlyCreates (log : List Event) : Prop :=
  ∀ e ∈ log, ∃ base name answer, e = .createConnection base name answer

/-- Later calls of `Create_Connection`, and no others, come after the earlier ones. -/
def Extends (log log' : List Event) : Prop := ∃ calls, log' = log ++ calls ∧ OnlyCreates calls

theorem OnlyCreates.append (h : OnlyCreates log) (h' : OnlyCreates log') :
    OnlyCreates (log ++ log') := fun e he => (List.mem_append.mp he).elim (h e) (h' e)

/-- Without a `Destroy_Connection` everything obtained is open. -/
theorem OnlyCreates.openConnections_eq (h : OnlyCreates log) :
    openConnections log = obtained log := by
  have hfold : ∀ opened, log.foldl Event.record opened = opened ++ obtained log := by
    induction log with
    | nil => simp [obtained]
    | cons e log ih =>
      intro opened
      obtain ⟨base,name,answer,rfl⟩ := h e List.mem_cons_self
      rw [List.foldl_cons,ih fun e he => h e (List.mem_cons_of_mem _ he)]
      change (opened ++ _) ++ _ = _
      rw [List.append_assoc,obtained,obtained,List.filterMap_cons]
      cases Event.obtained (.createConnection base name answer) <;> rfl
  exact (hfold []).trans (List.nil_append _)

namespace Extends

theorem refl : Extends log log := ⟨[],by simp,by simp [OnlyCreates]⟩

theorem trans (h : Extends log log') (h' : Extends log' log'') : Extends log log'' := by
  obtain ⟨calls,rfl,hc⟩ := h
  obtain ⟨calls',rfl,hc'⟩ := h'
  exact ⟨calls ++ calls',by simp,hc.append hc'⟩

theorem onlyCreates (h : Extends log log') (hlog : OnlyCreates log) : OnlyCreates log' := by
  obtain ⟨calls,rfl,hc⟩ := h
  exact hlog.append hc

theorem mem_obtained (h : Extends log log') {c : ℕ × ℤ} (hc : c ∈ obtained log) :
    c ∈ obtained log' := by
  obtain ⟨calls,rfl,-⟩ := h
  rw [obtained,List.filterMap_append]
  exact List.mem_append_left _ hc

end Extends

/-! ## What the functions do to the record of calls -/

theorem createConnection_extends (connectionName : CString) :
    Extends log (r.createConnection store tss log connectionName).2 := by
  rw [ConnectionResolver.createConnection]
  cases r.getBase store connectionName with
  | none => exact .refl
  | some base =>
    have hcall : Extends log (log ++ [.createConnection base
        (StringType.ofCString (some connectionName.chars))
        (tss log base (StringType.ofCString (some connectionName.chars)))]) :=
      ⟨_,rfl,by simp [OnlyCreates]⟩
    cases h : tss log base (StringType.ofCString (some connectionName.chars)) <;>
      simpa [h] using hcall

theorem createFrom_extends {P : Type} (connectionName : CString) (pointers : Option P)
    (make : P → ℤ → ConnectionObject) :
    Extends log (r.createFrom store tss log connectionName pointers make).2 := by
  have hcreate : Extends log (r.createConnection store tss log connectionName).2 :=
    createConnection_extends connectionName
  cases pointers with
  | none => exact .refl
  | some p =>
    rw [ConnectionResolver.createFrom.eq_def]
    generalize r.createConnection store tss log connectionName = created at hcreate
    obtain ⟨_ | connectionId,log'⟩ := created <;> exact hcreate

theorem create_extends (conn : Connection D) : Extends log (conn.create r store tss log).2 := by
  rw [Connection.create]
  cases conn.role <;> exact createFrom_extends ..

theorem initializeTable_extends (conns : List (Connection D)) :
    Extends log (initializeTable r store tss conns log).2 := by
  induction conns generalizing log with
  | nil => exact .refl
  | cons conn conns ih => exact (create_extends conn).trans ih

theorem initializeTables_extends (ics : List (List (Connection D)))
    (tables : List (Option ConnectionTableImpl)) :
    Extends log (initializeTables r store tss ics tables log).2 := by
  induction ics generalizing tables log with
  | nil => cases tables <;> exact .refl
  | cons ic ics ih =>
    match tables with
    | [] => exact .refl
    | none::tables => exact ih tables
    | some _::tables => exact (initializeTable_extends ic).trans (ih tables)

variable {parse : CString → Option (List Element)} {s s' : State T} {a : Act T}

theorem frameworkConnect_extends {configuration : StringType} {service : Configuration}
    (h : u.frameworkConnect parse tss s configuration service = some s') :
    Extends s.log s'.log := by
  rw [UoP.frameworkConnect] at h
  split at h
  · cases h; exact .refl
  · cases h
  · dsimp only at h
    split at h
    · cases h; exact .refl
    · cases h; exact .refl
    · cases h
    · cases h; exact initializeTables_extends ..

variable [DecidableEq T]

/-- A step makes no call but `Create_Connection`. -/
theorem step_extends (h : step u parse tss s a = some s') : Extends s.log s'.log := by
  cases a with
  | frameworkConnect configuration service => exact frameworkConnect_extends h
  | _ => cases h; exact .refl

/-! ## Release -/

/-- `Framework_Disconnect` or `Finalize`. -/
def Act.Ends : Act T → Prop
  | .frameworkDisconnect => True
  | .finalizeBase => True
  | _ => False

instance (a : Act T) : Decidable a.Ends :=
  match a with
  | .frameworkDisconnect | .finalizeBase => inferInstanceAs (Decidable True)
  | .setReference _ _ _ | .initializeBase | .frameworkConnect _ _ =>
    inferInstanceAs (Decidable False)

/-- No connection is open after a `Framework_Disconnect` or a `Finalize`. -/
def Releases (e : Execution (step u parse tss) (start u store)) : Prop :=
  ∀ p ∈ e.steps, p.2.Ends → ∀ s', step u parse tss p.1 p.2 = some s' →
    ∀ c ∈ obtained s'.log, c ∉ openConnections s'.log

/-- The two operations make no call. -/
theorem log_of_ends (h : step u parse tss s a = some s') (ha : a.Ends) : s'.log = s.log := by
  cases a with
  | frameworkDisconnect => cases h; rfl
  | finalizeBase => cases h; rfl
  | _ => exact ha.elim

/-- Every connection that a UoP has obtained is open at the end of the run, whatever operations came
after; so `Framework_Disconnect` and `Finalize` leave none open only where none was obtained. -/
theorem connections_stay_open (e : Execution (step u parse tss) (start u store)) :
    (∀ s ∈ e.visited, ∀ c ∈ obtained s.log, c ∈ openConnections e.final.log) ∧
      (Releases e ↔ ∀ p ∈ e.steps, p.2.Ends → obtained p.1.log = []) := by
  have hopen : ∀ s ∈ e.visited, openConnections s.log = obtained s.log := by
    refine e.forall_visited fun steps s _ hr => OnlyCreates.openConnections_eq ?_
    refine hr.invariant (I:=fun s => OnlyCreates s.log) (by simp [start,OnlyCreates]) ?_
    exact fun s a s' hs h => (step_extends h).onlyCreates hs
  constructor
  · intro s hs c hc
    have hlater : Extends s.log e.final.log := e.run.rel_final
      (R:=fun s s' => Extends s.log s'.log) (fun _ => .refl) (fun _ _ _ => .trans)
      (fun _ _ _ => step_extends) hs
    rw [hopen e.final e.final_mem_visited]
    exact hlater.mem_obtained hc
  · constructor
    · intro h p hp hends
      obtain ⟨s',hs'⟩ := e.run.exists_target hp
      refine List.eq_nil_iff_forall_not_mem.mpr fun c hc => ?_
      rw [← log_of_ends hs' hends] at hc
      have hclosed := h p hp hends s' hs' c hc
      rw [hopen s' (e.target_mem_visited hp hs')] at hclosed
      exact hclosed hc
    · intro h p hp hends s' hs' c hc
      rw [log_of_ends hs' hends,h p hp hends] at hc
      exact absurd hc List.not_mem_nil

/-- A UoP that publishes one message type, configured by the element `all-connections`. -/
def publisher : UoP Unit where
  name := cString (ascii "Pub")
  address := 1
  integrationContexts := [[⟨cString (ascii "Out"),.producer ()⟩]]

/-- The objects `system`, `ts` and `out` are injected. -/
def injections : Injected (Unit × TraitsRole) := fun t =>
  let name := match t with
    | .configuration => ascii "system"
    | .base => ascii "ts"
    | .typedTS _ => ascii "out"
  AList.singleton 1 (AList.singleton name (some 2))

/-- The table of `publisher`, with one name for all `Base` objects and one for all `TypedTS`. -/
def publisherConfig : List ConnectionTable :=
  [⟨⟨ascii "Pub",by decide,by decide⟩,.allConnections
    (some ⟨ascii "ts",by decide,by decide⟩) (some ⟨ascii "out",by decide,by decide⟩)⟩]

/-- A service that has the table as a text. -/
def publisherService : Configuration :=
  ⟨(1,.noError),(200,.noError),((configText true publisherConfig).chars,200,.noError),.noError⟩

/-- The configuration set is read, connection 7 is created, and the UoP is disconnected. -/
def disconnectedRun : Execution (step publisher parseXml fun _ _ _ => .returned 7 .noError)
    (start publisher injections) :=
  .ofLabels [.initializeBase,.frameworkConnect (.ofCString none) publisherService,
    .frameworkDisconnect] (by decide +kernel)

/-- Connection 7 is still open. -/
theorem disconnected_not_released : ¬Releases disconnectedRun := by
  intro h
  have hopen : ∃ p ∈ disconnectedRun.steps, p.2.Ends ∧
      ∃ s' ∈ step publisher parseXml (fun _ _ _ => .returned 7 .noError) p.1 p.2,
        (2,7) ∈ obtained s'.log ∧ (2,7) ∈ openConnections s'.log := by decide +kernel
  obtain ⟨p,hp,hends,s',hs',hobtained,hopened⟩ := hopen
  exact h p hp hends s' hs' _ hobtained hopened

end Blush.Uop
