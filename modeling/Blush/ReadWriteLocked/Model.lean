import Blush.Lib.Atomic
import Blush.Lib.Slots

/-! `ReadWriteLocked`, one lock operation or one access to the value at a time. The callable
handed to `read` or `write` loads and stores the value, and its guard releases the mutex
whether the callable returns or throws. -/
namespace Blush.ReadWriteLocked
open Transition
variable {T ρ ε : Type}

/-- A callable `fn(const T&)`: it can only load. What it loads decides how it goes on. -/
inductive Reader (T ρ ε : Type)
  | ends (result : Except ε ρ)
  | load (next : T → Reader T ρ ε)

/-- A callable `fn(T&)`. A store changes part of the value, so that a value half written can be
seen by whoever is let in before the callable ends. -/
inductive Writer (T ρ ε : Type)
  | ends (result : Except ε ρ)
  | load (next : T → Writer T ρ ε)
  | store (change : T → T) (next : Writer T ρ ε)

/-- The callable run by itself. -/
def Reader.run : Reader T ρ ε → T → Except ε ρ
  | .ends result,_ => result
  | .load next,v => (next v).run v

def Writer.run : Writer T ρ ε → T → Except ε ρ × T
  | .ends result,v => (result,v)
  | .load next,v => (next v).run v
  | .store change next,v => next.run (change v)

/-- A call of one of the two member functions. -/
inductive Op (T ρ ε : Type)
  | read (fn : Reader T ρ ε)
  | write (fn : Writer T ρ ε)

/-- What the call amounts to when nobody else is there. -/
def Op.apply : Op T ρ ε → T → Except ε ρ × T
  | read fn,v => (fn.run v,v)
  | write fn,v => fn.run v

/-- Where a thread stands in `read` or `write`. -/
inductive Call (T ρ ε : Type)
  | idle
  | lockShared (fn : Reader T ρ ε)
  | reading (fn : Reader T ρ ε)
  | unlockShared (result : Except ε ρ)
  | lock (fn : Writer T ρ ε)
  | writing (fn : Writer T ρ ε)
  | unlock (result : Except ε ρ)
  | leaving (result : Except ε ρ)

/-- `std::shared_timed_mutex`: one exclusive owner, or any number of sharers. -/
structure SharedMutex where
  owner : Option ℕ
  sharers : List ℕ
  deriving DecidableEq, Repr

structure State (T ρ ε : Type) where
  mutex : SharedMutex
  value : T
  calls : List (Call T ρ ε)

/-- A thread calls a member function, takes its next step in it, or returns from it. -/
inductive Act (T ρ ε : Type)
  | call (t : ℕ) (op : Op T ρ ε)
  | thread (t : ℕ)
  | leave (t : ℕ)

/-- The constructor forwards its arguments to the value; `threads` threads share the object. -/
def init (v : T) (threads : ℕ) : State T ρ ε where
  mutex := ⟨none,[]⟩
  value := v
  calls := List.replicate threads .idle

namespace State
variable (s : State T ρ ε)

def setCall (t : ℕ) (c : Call T ρ ε) : State T ρ ε := { s with calls := s.calls.set t c }
def setMutex (m : SharedMutex) : State T ρ ε := { s with mutex := m }
def setValue (v : T) : State T ρ ε := { s with value := v }

end State

/-- A member function begins with its lock. -/
def Op.enter : Op T ρ ε → Call T ρ ε
  | read fn => .lockShared fn
  | write fn => .lock fn

/-- The next step of thread `t` inside `read` or `write`. -/
def threadStep (s : State T ρ ε) (t : ℕ) : Option (State T ρ ε) :=
  match s.calls[t]? with
  | some (.lockShared fn) =>
    if s.mutex.owner.isNone then
      some ((s.setCall t (.reading fn)).setMutex ⟨none,t::s.mutex.sharers⟩)
    else none
  | some (.reading (.load next)) => some (s.setCall t (.reading (next s.value)))
  | some (.reading (.ends result)) => some (s.setCall t (.unlockShared result))
  | some (.unlockShared result) =>
    some ((s.setCall t (.leaving result)).setMutex ⟨s.mutex.owner,s.mutex.sharers.erase t⟩)
  | some (.lock fn) =>
    if s.mutex.owner.isNone && s.mutex.sharers.isEmpty then
      some ((s.setCall t (.writing fn)).setMutex ⟨some t,[]⟩)
    else none
  | some (.writing (.load next)) => some (s.setCall t (.writing (next s.value)))
  | some (.writing (.store change next)) =>
    some ((s.setCall t (.writing next)).setValue (change s.value))
  | some (.writing (.ends result)) => some (s.setCall t (.unlock result))
  | some (.unlock result) =>
    some ((s.setCall t (.leaving result)).setMutex ⟨none,s.mutex.sharers⟩)
  | _ => none

def step (s : State T ρ ε) : Act T ρ ε → Option (State T ρ ε)
  | .call t op =>
    match s.calls[t]? with
    | some .idle => some (s.setCall t op.enter)
    | _ => none
  | .thread t => threadStep s t
  | .leave t =>
    match s.calls[t]? with
    | some (.leaving _) => some (s.setCall t .idle)
    | _ => none

/-- What the callers see of a step. -/
def event (s : State T ρ ε) : Act T ρ ε → Option (Atomic.Event (Op T ρ ε) (Except ε ρ))
  | .call t op => some (.invoked t op)
  | .thread _ => none
  | .leave t =>
    match s.calls[t]? with
    | some (.leaving result) => some (.responded t result)
    | _ => none

/-- Everything one step can do, guards included: the inversion of `step`. -/
inductive Step (s : State T ρ ε) : Act T ρ ε → State T ρ ε → Prop
  | call {t op} (hc : s.calls[t]? = some .idle) : Step s (.call t op) (s.setCall t op.enter)
  | lockShared {t fn} (hc : s.calls[t]? = some (.lockShared fn)) (hm : s.mutex.owner = none) :
      Step s (.thread t) ((s.setCall t (.reading fn)).setMutex ⟨none,t::s.mutex.sharers⟩)
  | readLoad {t next} (hc : s.calls[t]? = some (.reading (.load next))) :
      Step s (.thread t) (s.setCall t (.reading (next s.value)))
  | readEnds {t result} (hc : s.calls[t]? = some (.reading (.ends result))) :
      Step s (.thread t) (s.setCall t (.unlockShared result))
  | unlockShared {t result} (hc : s.calls[t]? = some (.unlockShared result)) :
      Step s (.thread t)
        ((s.setCall t (.leaving result)).setMutex ⟨s.mutex.owner,s.mutex.sharers.erase t⟩)
  | lock {t fn} (hc : s.calls[t]? = some (.lock fn)) (hm : s.mutex = ⟨none,[]⟩) :
      Step s (.thread t) ((s.setCall t (.writing fn)).setMutex ⟨some t,[]⟩)
  | writeLoad {t next} (hc : s.calls[t]? = some (.writing (.load next))) :
      Step s (.thread t) (s.setCall t (.writing (next s.value)))
  | writeStore {t change next} (hc : s.calls[t]? = some (.writing (.store change next))) :
      Step s (.thread t) ((s.setCall t (.writing next)).setValue (change s.value))
  | writeEnds {t result} (hc : s.calls[t]? = some (.writing (.ends result))) :
      Step s (.thread t) (s.setCall t (.unlock result))
  | unlock {t result} (hc : s.calls[t]? = some (.unlock result)) :
      Step s (.thread t) ((s.setCall t (.leaving result)).setMutex ⟨none,s.mutex.sharers⟩)
  | leave {t result} (hc : s.calls[t]? = some (.leaving result)) :
      Step s (.leave t) (s.setCall t .idle)

variable {s s' : State T ρ ε}

theorem threadStep_cases {t : ℕ} (h : threadStep s t = some s') : Step s (.thread t) s' := by
  unfold threadStep at h
  split at h
  · rename_i fn hc
    split at h
    · cases h; exact .lockShared hc (by simpa using ‹s.mutex.owner.isNone = true›)
    · cases h
  · rename_i next hc
    cases h; exact .readLoad hc
  · rename_i result hc
    cases h; exact .readEnds hc
  · rename_i result hc
    cases h; exact .unlockShared hc
  · rename_i fn hc
    split at h
    · rename_i hm
      simp only [Bool.and_eq_true,Option.isNone_iff_eq_none,List.isEmpty_iff] at hm
      cases h
      exact .lock hc (by
        obtain ⟨ho,hs⟩ := hm
        cases hm : s.mutex
        simp_all)
    · cases h
  · rename_i next hc
    cases h; exact .writeLoad hc
  · rename_i change next hc
    cases h; exact .writeStore hc
  · rename_i result hc
    cases h; exact .writeEnds hc
  · rename_i result hc
    cases h; exact .unlock hc
  · cases h

theorem step_cases {a : Act T ρ ε} (h : step s a = some s') : Step s a s' := by
  cases a with
  | call t op =>
    simp only [step] at h
    split at h
    · rename_i hc
      cases h; exact .call hc
    · cases h
  | thread t => exact threadStep_cases h
  | leave t =>
    simp only [step] at h
    split at h
    · rename_i result hc
      cases h; exact .leave hc
    · cases h

end Blush.ReadWriteLocked
