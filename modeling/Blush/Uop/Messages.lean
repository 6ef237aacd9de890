import Blush.Responders.Model
import Blush.Uop.ConfigText
import Blush.Uop.Lifecycle

/-! The `send` methods of a connection table. A message goes to the `TypedTS` object that is
injected under the name the configuration has for its connection, and on the connection that the
TSS has made for its name; it goes nowhere else, and without these the code says so. -/
namespace Blush.Uop
open Face Injection Resolver Responders Transition
variable {D T M : Type}

/-! ## Sending -/

/-- `TID_NOT_APPLICABLE`. -/
def tidNotApplicable : ℤ := -1

/-- A call of `Send_Message`, or of `Send_Message_Async`, with the return code before it. -/
structure TsCall (M : Type) where
  ts : ℕ
  async : Bool
  arguments : SendMessage M
  returnCode : ReturnCode

/-- `PublisherConnection::send` up to its call of the TS. -/
def publisherSend (ts : ℕ) (connectionId : ℤ) (message : M) : TsCall M :=
  ⟨ts,false,⟨connectionId,infTimeValue,tidNotApplicable,message⟩,.notAvailable⟩

/-- `RequesterConnection::send` up to its call of the TS. -/
def requesterSend (ts : ℕ) (connectionId : ℤ) (message : M) : TsCall M :=
  ⟨ts,true,⟨connectionId,infTimeValue,Requests.calleeProvidesTid,message⟩,.notAvailable⟩

/-- `send` of a connection object; subscribers and responders have none. -/
def sendCall : ConnectionObject → M → Option (TsCall M)
  | .publisherConnection ts connectionId,message => some (publisherSend ts connectionId message)
  | .requesterConnection ts connectionId,message => some (requesterSend ts connectionId message)
  | _,_ => none

/-- `send<name>` of a table: what it returns and its calls. -/
def sendMember (typedTs : TsCall M → ReturnCode) (member : Option ConnectionObject) (message : M) :
    Option (ReturnCode × List (TsCall M)) :=
  match member with
  | none => some (.notAvailable,[])
  | some object => (sendCall object message).map fun call => (typedTs call,[call])

/-- The member for a connection, by the numbers of its Integration Context and its own there. -/
def State.member? (s : State T) (i j : ℕ) : Option (Option ConnectionObject) :=
  s.tables[i]?.join.bind fun table => table[j]?

/-- Roles with a `send` method. -/
def Role.Sends : Role D → Prop
  | producer _ | requester _ => True
  | _ => False

/-! ## The routes of a configuration -/

/-- A pointer other than the null pointer is injected into a UoP under a name that is not empty. -/
def InjectedUnder (u : UoP D) (store : Injected T) (t : Interface T) (name : List UInt8) (p : ℕ) :
    Prop :=
  name ≠ [] ∧ find? store u.address t (.ofCString (some name)) = some (some p)

/-- The `TypedTS` pointers for a connection, with the object made of them and of an id. -/
inductive Objects [Traits D T] (config : List ConnectionTable) (u : UoP D) (store : Injected T)
    (c : CString) : Role D → (ℤ → ConnectionObject) → Prop
  | producer {dataType ts}
      (h : InjectedUnder u store (.typedTS (Traits.typedTS dataType .standardRole))
        (nameIn config u.name (TableForm.typedTsName c)) ts) :
      Objects config u store c (.producer dataType) (.publisherConnection ts)
  | consumer {dataType ts}
      (h : InjectedUnder u store (.typedTS (Traits.typedTS dataType .standardRole))
        (nameIn config u.name (TableForm.typedTsName c)) ts) :
      Objects config u store c (.consumer dataType) (.subscriberConnection ts)
  | requester {requestType ts}
      (h : InjectedUnder u store (.typedTS (Traits.typedTS requestType .requesterRole))
        (nameIn config u.name (TableForm.typedTsName c)) ts) :
      Objects config u store c (.requester requestType) (.requesterConnection ts)
  | responder {requestType responseType requestTs responseTs}
      (h : InjectedUnder u store (.typedTS (Traits.typedTS requestType .standardRole))
        (nameIn config u.name (TableForm.typedTsName c)) requestTs)
      (h' : InjectedUnder u store (.typedTS (Traits.typedTS responseType .standardRole))
        (nameIn config u.name (TableForm.typedTsResponseName c)) responseTs) :
      Objects config u store c (.responder requestType responseType)
        (.responderConnection requestTs responseTs)

/-- The pointers that a configuration and the injections give a connection. -/
def configuredRoutes [Traits D T] (config : List ConnectionTable) (u : UoP D)
    (store : Injected T) : Routes D := fun conn base make =>
  Objects config u store conn.name conn.role make ∧
    InjectedUnder u store .base (nameIn config u.name (TableForm.baseName conn.name)) base

section
variable {config : List ConnectionTable} {u : UoP D} {store : Injected T} {compact : Bool}

theorem injectedUnder_configured {t : Interface T} {name : List UInt8} {p : ℕ} :
    (Setup.mk (configured compact config u.address u.name) store []).InjectedUnder t name p ↔
      InjectedUnder u store t name p := by
  have haddress : (configured compact config u.address u.name).uopBase = u.address := by
    rw [configured_eq,ConnectionResolver.uopBase_foldl]
    rfl
  rw [injectedUnder_iff,haddress]
  rfl

variable [Traits D T]

theorem resolves_configured {c : CString} {role : Role D} {make : ℤ → ConnectionObject} :
    (Setup.mk (configured compact config u.address u.name) store []).Resolves c role.factory make ↔
      Objects config u store c role make := by
  obtain ⟨-,htypedTs,hresponse⟩ := configured_names compact config u.address u.name c
  constructor
  · intro h
    cases role with
    | producer dataType =>
      cases h with
      | pub h => exact .producer (injectedUnder_configured.mp (htypedTs ▸ h))
    | consumer dataType =>
      cases h with
      | sub h => exact .consumer (injectedUnder_configured.mp (htypedTs ▸ h))
    | requester requestType =>
      cases h with
      | req h => exact .requester (injectedUnder_configured.mp (htypedTs ▸ h))
    | responder requestType responseType =>
      cases h with
      | rsp h h' =>
        exact .responder (injectedUnder_configured.mp (htypedTs ▸ h))
          (injectedUnder_configured.mp (hresponse ▸ h'))
  · intro h
    cases h with
    | producer h => exact .pub (htypedTs ▸ injectedUnder_configured.mpr h)
    | consumer h => exact .sub (htypedTs ▸ injectedUnder_configured.mpr h)
    | requester h => exact .req (htypedTs ▸ injectedUnder_configured.mpr h)
    | responder h h' =>
      exact .rsp (htypedTs ▸ injectedUnder_configured.mpr h)
        (hresponse ▸ injectedUnder_configured.mpr h')

/-- What a resolver that has read a configuration finds is what the configuration says. -/
theorem resolved_configured (compact : Bool) (conn : Connection D) (base : ℕ)
    (make : ℤ → ConnectionObject) :
    resolved (configured compact config u.address u.name) store conn base make ↔
      configuredRoutes config u store conn base make := by
  have hbase := (configured_names compact config u.address u.name conn.name).1
  refine and_congr resolves_configured ?_
  rw [Setup.ResolvesBase,hbase]
  exact injectedUnder_configured

end

/-! ## From the text to the messages -/

/-- A service hands a set over in one piece. -/
structure Configuration.Delivers (service : Configuration) (content : List UInt8) : Prop where
  opened : service.openContainer.2 = .noError
  sized : service.getSize.2 = .noError
  size : (content.length : ℤ) ≤ service.getSize.1.toInt
  read : service.read.1 = content
  succeeds : service.readSucceeds = true

/-- A step after which the tables are as before: neither `Initialize` nor `Finalize`, nor a
`Framework_Connect` that reads a text. -/
def UoP.Keeps (u : UoP D) (p : State T × Act T) : Prop :=
  match p.2 with
  | .initializeBase | .finalizeBase => False
  | .frameworkConnect configuration service => u.configXml? p.1 configuration service = none
  | _ => True

/-- What comes of sending a message: it goes to the object and on the connection of its route, or
it is `NOT_AVAILABLE`, since the TSS has refused the connection or the configuration has no route
for it. -/
inductive Sent (routes : Routes D) (calls : List Event) (typedTs : TsCall M → ReturnCode)
    (conn : Connection D) (message : M) : Option (ReturnCode × List (TsCall M)) → Prop
  | sent {base make connectionId call} (route : routes conn base make)
      (obtained : .createConnection base (.ofCString (some conn.name.chars))
        (.returned connectionId .noError) ∈ calls) (nonneg : 0 ≤ connectionId)
      (send : sendCall (make connectionId) message = some call) :
      Sent routes calls typedTs conn message (some (typedTs call,[call]))
  | refused {base make answer} (route : routes conn base make)
      (asked : .createConnection base (.ofCString (some conn.name.chars)) answer ∈ calls)
      (refused : ¬Accepted answer) :
      Sent routes calls typedTs conn message (some (.notAvailable,[]))
  | unrouted (unrouted : ¬∃ base make, routes conn base make) :
      Sent routes calls typedTs conn message (some (.notAvailable,[]))

section
variable {u : UoP D} {tss : Tss} {s s' : State T} {configuration : StringType}
  {service : Configuration} {config : List ConnectionTable} {store : Injected T}

theorem configXml?_of_delivers {p : ℕ} {xml : CString} (hp : u.service? s = .ok (some p))
    (h : service.Delivers xml.chars) : u.configXml? s configuration service = some xml := by
  have hsize : -1 ≤ service.getSize.1.toInt := by
    have := h.size
    omega
  have hbuffer : service.read.1.length ≤ bufferLength service.getSize.1 := by
    have := bufferLength_of_le hsize
    have := h.size
    rw [h.read]
    omega
  have hsession := Configuration.session_eq_text (u.containerName configuration) h.opened h.sized
    (not_lt.mp (maxSize_lt_bufferLength.not.mpr (Int.not_lt.mpr hsize))) hbuffer h.succeeds
  have hxml : cString (service.read.1 ++
      List.replicate (bufferLength service.getSize.1-service.read.1.length) 0) = xml := by
    obtain ⟨chars,hchars⟩ := xml
    rw [CString.mk.injEq,chars_cString_append_replicate,h.read]
    exact List.takeWhile_eq_self_iff.mpr fun c hc => decide_eq_true (hchars c hc)
  rw [configXml?_of_text hp hsession,hxml]

theorem nextPhase_of_keeps {phase : Phase T} {p : State T × Act T} (h : u.Keeps p) :
    u.nextPhase phase p = phase := by
  obtain ⟨s,a⟩ := p
  cases a with
  | setReference | frameworkDisconnect => rfl
  | initializeBase | finalizeBase => exact h.elim
  | frameworkConnect configuration service => exact nextPhase_of_no_configXml h

/-- The phase lasts as long as the tables are kept. -/
theorem phase_of_keeps {before later : List (State T × Act T)} (h : ∀ p ∈ later, u.Keeps p) :
    u.phase (before ++ later) = u.phase before := by
  induction later generalizing before with
  | nil => rw [List.append_nil]
  | cons p later ih =>
    rw [List.append_cons,ih fun q hq => h q (List.mem_cons_of_mem _ hq),UoP.phase,List.foldl_concat]
    exact nextPhase_of_keeps (h p List.mem_cons_self)

theorem mem_drop_of_extends {log log' t : List Event} {e : Event} (h : log <+: t)
    (h' : t ++ [e] <+: log') : e ∈ log'.drop log.length := by
  obtain ⟨before,rfl⟩ := h
  obtain ⟨after,rfl⟩ := h'
  simp

variable [Traits D T]

/-- A connection whose role has a `send` sends through its member. -/
theorem sent_of_wires {conn : Connection D} {log t t' : List Event}
    {member : Option ConnectionObject} (typedTs : TsCall M → ReturnCode) (message : M)
    (hsends : conn.role.Sends) (h : Wires (configuredRoutes config u store) tss conn t member t')
    (hlog : s.log <+: t) (ht : t' <+: log) :
    Sent (configuredRoutes config u store) (log.drop s.log.length) typedTs conn message
      (sendMember typedTs member message) := by
  cases h with
  | @created base make connectionId route answered nonneg =>
    have hcall : ∃ call, sendCall (make connectionId) message = some call := by
      have hobject := route.1
      generalize conn.role = role at hobject hsends
      cases hobject with
      | producer | requester => exact ⟨_,rfl⟩
      | consumer | responder => exact hsends.elim
    obtain ⟨call,hcall⟩ := hcall
    rw [sendMember,hcall]
    exact .sent route (mem_drop_of_extends hlog ht) nonneg hcall
  | refused route answered refused => exact .refused route (mem_drop_of_extends hlog ht) refused
  | unrouted unrouted => exact .unrouted unrouted

variable [DecidableEq T]

/-- After a `Framework_Connect` that was given the text of a configuration, and as long as the
tables are kept, every message goes where the configuration, the injections at that time and the
answers of the TSS send it, and nowhere else. -/
theorem messages_follow_configuration (compact : Bool) {before later : List (State T × Act T)}
    {p : ℕ} (hrun : Run (step u parseXml tss) (start u store)
      (before ++ (s,.frameworkConnect configuration service)::later) s')
    (htables : u.phase before ≠ .finalized) (hservice : u.service? s = .ok (some p))
    (hdelivers : service.Delivers (configText compact config).chars)
    (hlater : ∀ q ∈ later, u.Keeps q) {i j : ℕ} {ic : List (Connection D)} {conn : Connection D}
    (hic : u.integrationContexts[i]? = some ic) (hconn : ic[j]? = some conn)
    (hsends : conn.role.Sends) (typedTs : TsCall M → ReturnCode) (message : M) :
    ∃ member, s'.member? i j = some member ∧
      Sent (configuredRoutes config u s.store) (s'.log.drop s.log.length) typedTs conn message
        (sendMember typedTs member message) := by
  have hphase : u.phase (before ++ (s,.frameworkConnect configuration service)::later) =
      .connected s (configText compact config) := by
    rw [List.append_cons,phase_of_keeps hlater,UoP.phase,List.foldl_concat]
    exact nextPhase_of_configXml htables (configXml?_of_delivers hservice hdelivers)
  have hall := run_tables hrun
  rw [hphase] at hall
  obtain ⟨tables,ht,hwires⟩ := hall
  have hextends {conns : List (Connection D)} {log members log'} (h : Threads (Wires (resolved
      (u.resolver parseXml (configText compact config)) s.store) tss) conns log members log') :
      log <+: log' :=
    h.rel (fun _ => List.prefix_rfl) (fun _ _ _ => List.IsPrefix.trans) fun _ _ _ _ => Wires.extends
  obtain ⟨table,log₁,log₂,htable,hic',hbefore,hafter⟩ := hwires.get (fun _ => List.prefix_rfl)
    (fun _ _ _ => List.IsPrefix.trans) (fun _ _ _ _ => hextends) hic
  obtain ⟨member,log₃,log₄,hmember,hwire,hbefore',hafter'⟩ := hic'.get (fun _ => List.prefix_rfl)
    (fun _ _ _ => List.IsPrefix.trans) (fun _ _ _ _ => Wires.extends) hconn
  refine ⟨member,?_,sent_of_wires typedTs message hsends
    (hwire.congr (resolved_configured compact conn)) (hbefore.trans hbefore')
      (hafter'.trans hafter)⟩
  rw [State.member?,ht,List.getElem?_map,htable]
  exact hmember

end

/-- The state after `Initialize`. -/
def publisherState : State (Unit × TraitsRole) :=
  publisher.initializeBase (start publisher injections)

theorem publisherService_delivers :
    publisherService.Delivers (configText true publisherConfig).chars :=
  ⟨rfl,rfl,by decide +kernel,rfl,rfl⟩

theorem publisher_sends : ∃ s' : State (Unit × TraitsRole), ∃ member,
    s'.member? 0 0 = some member ∧
      Sent (configuredRoutes publisherConfig publisher injections) s'.log (fun _ => .noError)
        ⟨cString (ascii "Out"),.producer ()⟩ 'm' (sendMember (fun _ => .noError) member 'm') := by
  have hservice : publisher.service? publisherState = .ok (some 2) :=
    getInjected_of_some (by decide)
  have hxml : publisher.configXml? publisherState (.ofCString none) publisherService = some _ :=
    configXml?_of_delivers hservice publisherService_delivers
  obtain ⟨s',hs'⟩ : ∃ s', publisher.frameworkConnect parseXml (fun _ _ _ => .returned 7 .noError)
      publisherState (.ofCString none) publisherService = some s' :=
    ⟨_,frameworkConnect_of_configXml? hxml⟩
  have hrun : Run (step publisher parseXml fun _ _ _ => .returned 7 .noError)
      (start publisher injections) ([(start publisher injections,.initializeBase)] ++
        [(publisherState,.frameworkConnect (.ofCString none) publisherService)]) s' :=
    .next (.next .refl rfl) hs'
  exact ⟨s',messages_follow_configuration true hrun (by simp [UoP.phase,UoP.nextPhase]) hservice
    publisherService_delivers (by simp) (i:=0) (j:=0) rfl rfl trivial _ _⟩

end Blush.Uop
