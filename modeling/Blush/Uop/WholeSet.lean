import Blush.Uop.Session

/-! `Framework_Connect` reads once, so it parses the whole configuration set exactly when the
service delivers the set in one piece. -/
namespace Blush.Uop
open Face Injection Resolver
variable {D T : Type} {u : UoP D} {parse : CString → Option (List Element)} {tss : Tss}
  {s s' : State T} {configuration : StringType} {service : Configuration} {content : List UInt8}

/-- A service delivers a set within the contract of `Read`: a piece from the beginning of the set,
of at most `buffer_size` bytes, with its length, and `NOT_AVAILABLE` only when nothing remains. -/
structure Configuration.Serves (service : Configuration) (content : List UInt8) : Prop where
  piece : service.read.1 <+: content
  size : (service.read.1.length : ℤ) ≤ max service.getSize.1.toInt 0
  bytesRead : service.read.2.1.toInt = service.read.1.length
  exhausted : service.read.2.2 = .notAvailable → service.read.1 = content

/-- The text that a session of `Framework_Connect` ends with. -/
def UoP.configXml? (u : UoP D) (s : State T) (configuration : StringType)
    (service : Configuration) : Option CString :=
  match u.service? s,(service.session (u.containerName configuration)).2 with
  | .ok (some _),.text xmlBuffer => some (cString xmlBuffer)
  | _,_ => none

/-- When `Framework_Connect` returns `NO_ERROR` it has initialized one resolver, from the complete
set, and the tables are wired by it. -/
def ParsesWhole [Traits D T] (u : UoP D) (parse : CString → Option (List Element)) (tss : Tss)
    (s : State T) (configuration : StringType) (service : Configuration) (content : List UInt8) :
    Prop :=
  ∀ s', u.frameworkConnect parse tss s configuration service = some s' →
    s'.lastOutcome = some (.returned .noError) →
      ∃ xml : CString, xml.chars = content ∧ s'.texts = s.texts ++ [xml] ∧ (s'.tables,s'.log) =
        initializeTables (u.resolver parse xml) s.store tss u.integrationContexts s.tables s.log

/-- The first `Read` of a session that gets so far delivers the complete set, which has no NUL in
it. -/
def ReadsWhole (u : UoP D) (s : State T) (service : Configuration) (content : List UInt8) : Prop :=
  ∀ p, u.service? s = .ok (some p) → service.openContainer.2 = .noError →
    service.getSize.2 = .noError → -1 ≤ service.getSize.1.toInt → service.readSucceeds = true →
      service.read.1.length = content.length ∧ 0 ∉ content

/-- The NULs behind the text do not count. -/
theorem chars_cString_append_replicate (bytes : List UInt8) (n : ℕ) :
    (cString (bytes ++ List.replicate n 0)).chars = bytes.takeWhile (· ≠ 0) := by
  show (bytes ++ List.replicate n 0).takeWhile (· ≠ 0) = _
  induction bytes with
  | nil => cases n <;> simp [List.replicate_succ]
  | cons b bytes ih =>
    rw [List.cons_append,List.takeWhile_cons,List.takeWhile_cons,ih]

/-- A piece of the set is the text of the whole set when it is the whole set. -/
theorem takeWhile_eq_iff {bytes : List UInt8} (h : bytes <+: content) :
    bytes.takeWhile (· ≠ 0) = content ↔ bytes.length = content.length ∧ 0 ∉ content := by
  constructor
  · intro he
    have hle := (List.takeWhile_prefix (· ≠ (0 : UInt8)) (l:=bytes)).length_le
    rw [he] at hle
    refine ⟨le_antisymm h.length_le hle,fun h0 => ?_⟩
    rw [← he] at h0
    simpa using List.mem_takeWhile_imp h0
  · rintro ⟨hlen,h0⟩
    obtain rfl := h.eq_of_length hlen
    refine List.takeWhile_eq_self_iff.mpr fun b hb => ?_
    rw [decide_eq_true_eq]
    rintro rfl
    exact h0 hb

/-- A session that ends with a text. -/
theorem Configuration.session_eq_text (containerName : StringType)
    (ho : service.openContainer.2 = .noError)
    (hs : service.getSize.2 = .noError) (hl : bufferLength service.getSize.1 ≤ maxSize)
    (hb : service.read.1.length ≤ bufferLength service.getSize.1)
    (hr : service.readSucceeds = true) :
    (service.session containerName).2 = .text (service.read.1 ++
      List.replicate (bufferLength service.getSize.1-service.read.1.length) 0) := by
  have hexit := service.session_exit containerName
  generalize service.session containerName = session at hexit
  cases hexit with
  | openFailed ho' => exact absurd ho ho'
  | sizeFailed _ hs' => exact absurd hs hs'
  | threw _ _ hl' => exact absurd hl (not_le.mpr hl')
  | overrun _ _ _ hb' => exact absurd hb (not_le.mpr hb')
  | readFailed _ _ _ _ hr' => simp [hr] at hr'
  | text => rfl

theorem configXml?_of_text {p : ℕ} {xmlBuffer : List UInt8} (hp : u.service? s = .ok (some p))
    (h : (service.session (u.containerName configuration)).2 = .text xmlBuffer) :
    u.configXml? s configuration service = some (cString xmlBuffer) := by
  rw [UoP.configXml?,hp,h]

/-- A text that was handed on is what a session has read. -/
theorem configXml?_cases {xml : CString} (h : u.configXml? s configuration service = some xml) :
    ∃ p, u.service? s = .ok (some p) ∧ service.openContainer.2 = .noError ∧
      service.getSize.2 = .noError ∧ -1 ≤ service.getSize.1.toInt ∧ service.readSucceeds = true ∧
        xml = cString (service.read.1 ++
          List.replicate (bufferLength service.getSize.1-service.read.1.length) 0) := by
  unfold UoP.configXml? at h
  split at h
  · rename_i p xmlBuffer hp hsession
    obtain rfl := Option.some.inj h
    have hexit := service.session_exit (u.containerName configuration)
    generalize service.session (u.containerName configuration) = session at hexit hsession
    cases hexit with
    | text ho hs hl hb hr =>
      obtain rfl := Session.text.inj hsession
      exact ⟨p,hp,ho,hs,Int.not_lt.mp (maxSize_lt_bufferLength.not.mp (not_lt.mpr hl)),hr,rfl⟩
    | openFailed | sizeFailed | threw | overrun | readFailed => simp at hsession
  · simp at h

variable [Traits D T]

/-- What the resolver gets is what the wiring is made from. -/
theorem frameworkConnect_of_configXml? {xml : CString}
    (h : u.configXml? s configuration service = some xml) :
    u.frameworkConnect parse tss s configuration service =
      some { u.wire parse tss s xml with
        calls := s.calls ++ (service.session (u.containerName configuration)).1
        lastOutcome := some (.returned .noError) } := by
  unfold UoP.configXml? at h
  split at h
  · rename_i p xmlBuffer hp hsession
    obtain rfl := Option.some.inj h
    rw [frameworkConnect_of_some hp,UoP.afterSession,hsession]
    rfl
  · simp at h

/-- `NO_ERROR` is returned only after a text was handed on. -/
theorem configXml?_of_noError
    (h : u.frameworkConnect parse tss s configuration service = some s')
    (hrc : s'.lastOutcome = some (.returned .noError)) :
    ∃ xml, u.configXml? s configuration service = some xml := by
  cases hp : u.service? s with
  | error what =>
    rw [frameworkConnect_of_error hp] at h
    obtain rfl := Option.some.inj h
    simp at hrc
  | ok pointer =>
    cases pointer with
    | none =>
      rw [frameworkConnect_of_null hp] at h
      simp at h
    | some p =>
      have hexit := service.session_exit (u.containerName configuration)
      rw [frameworkConnect_of_some hp] at h
      generalize hsession : service.session (u.containerName configuration) = session at hexit h
      have hfailed {rc : ReturnCode} {calls : List ServiceCall} (hne : rc ≠ .noError)
          (h : u.afterSession parse tss s (calls,.failed rc) = some s') : False := by
        obtain rfl := Option.some.inj h
        exact hne (Outcome.returned.inj (Option.some.inj hrc))
      cases hexit with
      | openFailed ho => exact (hfailed ho h).elim
      | sizeFailed ho hs => exact (hfailed hs h).elim
      | threw ho hs hl =>
        obtain rfl := Option.some.inj h
        simp at hrc
      | overrun ho hs hl hb => simp [UoP.afterSession] at h
      | readFailed ho hs hl hb hr =>
        refine (hfailed (fun hrc => ?_) h).elim
        simp [Configuration.readSucceeds,hrc] at hr
      | text ho hs hl hb hr => exact ⟨_,configXml?_of_text hp (congrArg Prod.snd hsession)⟩

/-- `Framework_Connect` parses the complete set if and only if the service delivers it at once. -/
theorem parsesWhole_iff (u : UoP D) (parse : CString → Option (List Element)) (tss : Tss)
    (s : State T) (configuration : StringType) {service : Configuration} {content : List UInt8}
    (hserves : service.Serves content) :
    ParsesWhole u parse tss s configuration service content ↔ ReadsWhole u s service content := by
  constructor
  · intro h p hp ho hs hsize hr
    have hl := not_lt.mp (maxSize_lt_bufferLength.not.mpr (Int.not_lt.mpr hsize))
    have hb : service.read.1.length ≤ bufferLength service.getSize.1 := by
      have := bufferLength_of_le hsize
      have := hserves.size
      omega
    have hxml := configXml?_of_text hp
      (Configuration.session_eq_text (u.containerName configuration) ho hs hl hb hr)
    obtain ⟨xml,hchars,htexts,-⟩ := h _ (frameworkConnect_of_configXml? hxml) rfl
    obtain rfl := List.singleton_inj.mp (List.append_cancel_left htexts)
    rw [chars_cString_append_replicate] at hchars
    exact (takeWhile_eq_iff hserves.piece).mp hchars
  · intro h s' hc hrc
    obtain ⟨xml,hxml⟩ := configXml?_of_noError hc hrc
    obtain ⟨p,hp,ho,hs,hsize,hr,htext⟩ := configXml?_cases hxml
    rw [frameworkConnect_of_configXml? hxml] at hc
    obtain rfl := Option.some.inj hc
    refine ⟨xml,?_,rfl,rfl⟩
    rw [htext,chars_cString_append_replicate]
    exact (takeWhile_eq_iff hserves.piece).mpr (h p hp ho hs hsize hr)

/-- A set of two bytes in one piece. -/
def onePiece : Configuration := ⟨(5,.noError),(2,.noError),([60,47],2,.notAvailable),.noError⟩

theorem onePiece_parsesWhole : ParsesWhole plainUop (fun _ => none) (fun _ _ _ => .threw) plainState
    (.ofCString none) onePiece [60,47] :=
  (parsesWhole_iff _ _ _ _ _ ⟨List.prefix_rfl,by decide,by decide,fun _ => rfl⟩).mpr
    fun _ _ _ _ _ _ => ⟨rfl,by decide⟩

/-- The same set, of which the service delivers the first byte. -/
def shortRead : Configuration := ⟨(5,.noError),(2,.noError),([60],1,.noError),.noError⟩

theorem shortRead_not_parsesWhole : shortRead.Serves [60,47] ∧ ¬ParsesWhole plainUop (fun _ => none)
    (fun _ _ _ => .threw) plainState (.ofCString none) shortRead [60,47] := by
  refine ⟨⟨⟨[47],rfl⟩,by decide,by decide,fun h => by simp [shortRead] at h⟩,fun h => ?_⟩
  have hxml : plainUop.configXml? plainState (.ofCString none) shortRead = some _ :=
    configXml?_of_text service?_plainState rfl
  obtain ⟨xml,hchars,htexts,-⟩ := h _ (frameworkConnect_of_configXml? hxml) rfl
  obtain rfl := List.singleton_inj.mp (List.append_cancel_left htexts)
  exact absurd hchars (by decide)

end Blush.Uop
