import Blush.Injection.Isolation
import Blush.Uop.Model

/-! The session of `Framework_Connect` with the `Configuration` service. It is closed unless the
buffer for the reported size cannot be made, and what it reads is handed on as it is, however much
of the set that was. -/
namespace Blush.Uop
open Face Injection Resolver
variable {D T : Type} {u : UoP D} {parse : CString → Option (List Element)} {tss : Tss}
  {s s' : State T} {configuration : StringType} {service : Configuration}

/-! ## The exits -/

def setName : StringType := .ofCString (some (ascii "configuration"))

namespace Configuration
variable (service : Configuration) (containerName : StringType)

/-- `NOT_AVAILABLE` from `Read` counts as success. -/
def readSucceeds : Bool :=
  service.read.2.2 == .noError || service.read.2.2 == .notAvailable

/-- The first failing code of `Open`, `Get_Size` and `Read`, else `NO_ERROR`. -/
def firstFailure : ReturnCode :=
  if service.openContainer.2 ≠ .noError then service.openContainer.2
  else if service.getSize.2 ≠ .noError then service.getSize.2
  else if service.readSucceeds then .noError else service.read.2.2

def openCalls : List ServiceCall := [.openContainer containerName]

def sizeCalls : List ServiceCall :=
  openCalls containerName ++ [.getSize service.openContainer.1 setName]

def readCalls : List ServiceCall :=
  service.sizeCalls containerName ++
    [.read service.openContainer.1 setName (bufferLength service.getSize.1) service.getSize.1]

/-- What a session does, by the exit it takes. -/
inductive Exit : List ServiceCall × Session → Prop
  | openFailed (ho : service.openContainer.2 ≠ .noError) :
      Exit (openCalls containerName,.failed service.openContainer.2)
  | sizeFailed (ho : service.openContainer.2 = .noError) (hs : service.getSize.2 ≠ .noError) :
      Exit (service.sizeCalls containerName ++ [.close service.openContainer.1],
        .failed service.getSize.2)
  | threw (ho : service.openContainer.2 = .noError) (hs : service.getSize.2 = .noError)
      (hl : maxSize < bufferLength service.getSize.1) :
      Exit (service.sizeCalls containerName,.threw)
  | overrun (ho : service.openContainer.2 = .noError) (hs : service.getSize.2 = .noError)
      (hl : bufferLength service.getSize.1 ≤ maxSize)
      (hb : bufferLength service.getSize.1 < service.read.1.length) :
      Exit (service.readCalls containerName,.overrun)
  | readFailed (ho : service.openContainer.2 = .noError) (hs : service.getSize.2 = .noError)
      (hl : bufferLength service.getSize.1 ≤ maxSize)
      (hb : service.read.1.length ≤ bufferLength service.getSize.1)
      (hr : service.readSucceeds = false) :
      Exit (service.readCalls containerName ++ [.close service.openContainer.1],
        .failed service.read.2.2)
  | text (ho : service.openContainer.2 = .noError) (hs : service.getSize.2 = .noError)
      (hl : bufferLength service.getSize.1 ≤ maxSize)
      (hb : service.read.1.length ≤ bufferLength service.getSize.1)
      (hr : service.readSucceeds = true) :
      Exit (service.readCalls containerName ++ [.close service.openContainer.1],
        .text (service.read.1 ++
          List.replicate (bufferLength service.getSize.1-service.read.1.length) 0))

theorem session_exit : service.Exit containerName (service.session containerName) := by
  unfold session
  dsimp only
  by_cases ho : service.openContainer.2 = .noError
  · rw [if_neg (not_not_intro ho)]
    by_cases hs : service.getSize.2 = .noError
    · rw [if_neg (not_not_intro hs)]
      by_cases hl : maxSize < bufferLength service.getSize.1
      · rw [if_pos hl]
        exact .threw ho hs hl
      · rw [if_neg hl]
        by_cases hb : bufferLength service.getSize.1 < service.read.1.length
        · rw [if_pos hb]
          exact .overrun ho hs (not_lt.mp hl) hb
        · rw [if_neg hb]
          by_cases hr : service.readSucceeds = true
          · rw [if_neg (by simpa [readSucceeds,or_iff_not_imp_left] using hr)]
            exact .text ho hs (not_lt.mp hl) (not_lt.mp hb) hr
          · rw [if_pos (by simpa [readSucceeds] using hr)]
            exact .readFailed ho hs (not_lt.mp hl) (not_lt.mp hb) (by simpa using hr)
    · rw [if_pos hs]
      exact .sizeFailed ho hs
  · rw [if_pos ho]
    exact .openFailed ho

end Configuration

/-! ## The size of the buffer -/

/-- A reported size of -1 gives no buffer, one below gives more than a string can have. -/
theorem bufferLength_of_le {size : Int32} (h : -1 ≤ size.toInt) :
    (bufferLength size : ℤ) = size.toInt+1 := by
  have hlt := size.toInt_lt
  rw [bufferLength]
  omega

theorem maxSize_lt_bufferLength {size : Int32} :
    maxSize < bufferLength size ↔ size.toInt < -1 := by
  have hlt := size.toInt_lt
  have hle := size.le_toInt
  rw [bufferLength,maxSize]
  omega

/-! ## Sessions -/

/-- What `Framework_Connect` finds under the name of the service. -/
def UoP.service? (u : UoP D) (s : State T) : Except String (Option ℕ) :=
  getInjected s.store u.address .configuration (.ofCString (some (ascii "system")))

/-- The handles of the sessions that calls have opened. -/
def openedSessions (service : Configuration) (calls : List ServiceCall) : List Int32 :=
  calls.filterMap fun
    | .openContainer _ =>
      if service.openContainer.2 = .noError then some service.openContainer.1 else none
    | _ => none

/-- The handles of the sessions that calls have closed. -/
def closedSessions (calls : List ServiceCall) : List Int32 :=
  calls.filterMap fun
    | .close handle => some handle
    | _ => none

/-- What a call of `Framework_Connect` that leads to the state `s'` has to do: the sessions it
opened are closed, each once; `Read` is given a buffer with a NUL behind `buffer_size` bytes; and
the code it reports is that of the first failure. -/
structure Orderly (u : UoP D) (s : State T) (service : Configuration) (calls : List ServiceCall)
    (s' : State T) : Prop where
  made : s'.calls = s.calls ++ calls
  closed : closedSessions calls = openedSessions service calls
  read : ∀ handle name (length : ℕ) (size : Int32), .read handle name length size ∈ calls →
    size.toInt+1 ≤ length
  code : ∀ returnCode, s'.lastOutcome = some (.returned returnCode) → returnCode =
    match u.service? s with
    | .error _ => ReturnCode.notAvailable
    | .ok _ => service.firstFailure

/-- The pointer to the service is not the null pointer; no size below -1 is reported with
`NO_ERROR`; and `Read` writes no more than the buffer holds. -/
structure Sized (u : UoP D) (s : State T) (service : Configuration) : Prop where
  pointer : u.service? s ≠ .ok none
  size : ∀ p, u.service? s = .ok (some p) → service.openContainer.2 = .noError →
    service.getSize.2 = .noError →
      -1 ≤ service.getSize.1.toInt ∧ service.read.1.length ≤ bufferLength service.getSize.1

section
variable {p : ℕ} {calls : List ServiceCall} {returnCode : ReturnCode}

/-- A call that returns a code. -/
theorem Orderly.of_some (hp : u.service? s = .ok (some p))
    (made : s'.calls = s.calls ++ calls)
    (closed : closedSessions calls = openedSessions service calls)
    (read : ∀ handle name (length : ℕ) (size : Int32), .read handle name length size ∈ calls →
      size.toInt+1 ≤ length)
    (hcode : s'.lastOutcome = some (.returned returnCode))
    (hfirst : returnCode = service.firstFailure) : Orderly u s service calls s' := by
  refine ⟨made,closed,read,fun rc hrc => ?_⟩
  obtain rfl : returnCode = rc := by simpa using hcode.symm.trans hrc
  rw [hp]
  exact hfirst

theorem closedSessions_readCalls (ho : service.openContainer.2 = .noError) :
    closedSessions (service.readCalls configuration ++ [.close service.openContainer.1]) =
      openedSessions service (service.readCalls configuration ++
        [.close service.openContainer.1]) := by
  simp [Configuration.readCalls,Configuration.sizeCalls,Configuration.openCalls,closedSessions,
    openedSessions,ho]

theorem le_of_mem_readCalls {handle : Int32} {name : StringType} {length : ℕ} {size : Int32}
    (hsize : -1 ≤ service.getSize.1.toInt)
    (h : .read handle name length size ∈ service.readCalls configuration ++
      [.close service.openContainer.1]) : size.toInt+1 ≤ length := by
  obtain ⟨-,-,rfl,rfl⟩ : handle = service.openContainer.1 ∧ name = setName ∧
      length = bufferLength service.getSize.1 ∧ size = service.getSize.1 := by
    simpa [Configuration.readCalls,Configuration.sizeCalls,Configuration.openCalls] using h
  exact Int.le_of_eq (bufferLength_of_le hsize).symm

/-- A call in which the size was read, whatever `Read` answers. -/
theorem Orderly.of_read (hp : u.service? s = .ok (some p))
    (ho : service.openContainer.2 = .noError) (hsize : -1 ≤ service.getSize.1.toInt)
    (made : s'.calls = s.calls ++
      (service.readCalls configuration ++ [.close service.openContainer.1]))
    (hcode : s'.lastOutcome = some (.returned returnCode))
    (hfirst : returnCode = service.firstFailure) :
    Orderly u s service (service.readCalls configuration ++ [.close service.openContainer.1]) s' :=
  .of_some hp made (closedSessions_readCalls ho) (fun _ _ _ _ h => le_of_mem_readCalls hsize h)
    hcode hfirst

/-- A session that is opened and never closed. -/
theorem not_orderly_of_open (hs' : s'.calls = s.calls ++ service.sizeCalls configuration)
    (ho : service.openContainer.2 = .noError) : ¬Orderly u s service calls s' := by
  intro h
  obtain rfl := List.append_cancel_left (h.made.symm.trans hs')
  have hclosed := h.closed
  simp [Configuration.sizeCalls,Configuration.openCalls,closedSessions,openedSessions,ho] at hclosed

end

variable [Traits D T]

theorem frameworkConnect_of_error {what : String} (h : u.service? s = .error what) :
    u.frameworkConnect parse tss s configuration service =
      some { s with lastOutcome := some (.returned .notAvailable) } := by
  rw [UoP.frameworkConnect,← UoP.service?,h]

theorem frameworkConnect_of_null (h : u.service? s = .ok none) :
    u.frameworkConnect parse tss s configuration service = none := by
  rw [UoP.frameworkConnect,← UoP.service?,h]

/-- What `Framework_Connect` makes of a session. -/
def UoP.afterSession (u : UoP D) (parse : CString → Option (List Element)) (tss : Tss) (s : State T)
    (session : List ServiceCall × Session) : Option (State T) :=
  let s := { s with calls := s.calls ++ session.1 }
  match session.2 with
  | .failed returnCode => some { s with lastOutcome := some (.returned returnCode) }
  | .threw => some { s with lastOutcome := some .threw }
  | .overrun => none
  | .text xmlBuffer =>
    some { u.wire parse tss s (cString xmlBuffer) with lastOutcome := some (.returned .noError) }

theorem frameworkConnect_of_some {p : ℕ} (h : u.service? s = .ok (some p)) :
    u.frameworkConnect parse tss s configuration service =
      u.afterSession parse tss s (service.session (u.containerName configuration)) := by
  rw [UoP.frameworkConnect,← UoP.service?,h]
  rfl

/-- `Framework_Connect` ends in good order if and only if the pointer to the service is not null, the
size that it reports is at least -1, and `Read` does not write behind the buffer. -/
theorem orderly_iff (u : UoP D) (parse : CString → Option (List Element)) (tss : Tss) (s : State T)
    (configuration : StringType) (service : Configuration) :
    (∃ s' calls, u.frameworkConnect parse tss s configuration service = some s' ∧
      Orderly u s service calls s') ↔ Sized u s service := by
  cases hp : u.service? s with
  | error what =>
    refine iff_of_true ⟨_,[],frameworkConnect_of_error hp,(List.append_nil _).symm,rfl,by simp,
      fun rc hrc => ?_⟩ ⟨by simp [hp],by simp [hp]⟩
    rw [hp]
    simpa using hrc.symm
  | ok pointer =>
    cases pointer with
    | none =>
      refine iff_of_false ?_ fun h => h.pointer hp
      rintro ⟨s',calls,hc,-⟩
      rw [frameworkConnect_of_null hp] at hc
      simp at hc
    | some p =>
      have hexit := service.session_exit (u.containerName configuration)
      rw [frameworkConnect_of_some hp]
      generalize service.session (u.containerName configuration) = session at hexit
      have hpointer : u.service? s ≠ .ok none := by simp [hp]
      cases hexit with
      | openFailed ho =>
        refine iff_of_true ⟨_,_,rfl,.of_some hp rfl ?_ ?_ rfl ?_⟩
          ⟨hpointer,fun _ _ h => absurd h ho⟩
        · simp [Configuration.openCalls,closedSessions,openedSessions,ho]
        · simp [Configuration.openCalls]
        · rw [Configuration.firstFailure,if_pos ho]
      | sizeFailed ho hs =>
        refine iff_of_true ⟨_,_,rfl,.of_some hp rfl ?_ ?_ rfl ?_⟩
          ⟨hpointer,fun _ _ _ h => absurd h hs⟩
        · simp [Configuration.sizeCalls,Configuration.openCalls,closedSessions,openedSessions,ho]
        · simp [Configuration.sizeCalls,Configuration.openCalls]
        · rw [Configuration.firstFailure,if_neg (not_not_intro ho),if_pos hs]
      | threw ho hs hl =>
        refine iff_of_false ?_ fun h => ?_
        · rintro ⟨s',calls,hc,horderly⟩
          obtain rfl := Option.some.inj hc
          exact not_orderly_of_open rfl ho horderly
        · have := (h.size p hp ho hs).1
          have := maxSize_lt_bufferLength.mp hl
          omega
      | overrun ho hs hl hb =>
        refine iff_of_false ?_ fun h => absurd hb (not_lt.mpr (h.size p hp ho hs).2)
        rintro ⟨s',calls,hc,-⟩
        simp [UoP.afterSession] at hc
      | readFailed ho hs hl hb hr | text ho hs hl hb hr =>
        have hsize := Int.not_lt.mp (maxSize_lt_bufferLength.not.mp (not_lt.mpr hl))
        refine iff_of_true ⟨_,_,rfl,.of_read hp ho hsize rfl rfl ?_⟩
          ⟨hpointer,fun _ _ _ _ => ⟨hsize,hb⟩⟩
        simp [Configuration.firstFailure,ho,hs,hr]

/-- A UoP without Integration Contexts. -/
def plainUop : UoP Unit := ⟨⟨[85],by simp⟩,9,[]⟩

/-- The `Configuration` service is injected. -/
def plainState : State (Unit × TraitsRole) :=
  start plainUop
    (inject (fun _ => ∅) 9 .configuration (.ofCString (some (ascii "system"))) (some 3))

theorem service?_plainState : plainUop.service? plainState = .ok (some 3) :=
  getInjected_of_some (find?_inject_self _ _ _ _ _)

/-- `Get_Size` reports the size -2. -/
def negativeSize : Configuration := ⟨(5,.noError),(-2,.noError),([],0,.noError),.noError⟩

theorem negativeSize_not_orderly : ¬∃ s' calls, plainUop.frameworkConnect (fun _ => none)
    (fun _ _ _ => .threw) plainState (.ofCString none) negativeSize = some s' ∧
      Orderly plainUop plainState negativeSize calls s' := by
  rintro ⟨s',calls,hc,h⟩
  rw [frameworkConnect_of_some service?_plainState] at hc
  obtain rfl := Option.some.inj hc
  exact not_orderly_of_open rfl rfl h

end Blush.Uop
