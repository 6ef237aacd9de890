import Blush.Lib.Transition
import Blush.Lib.Slots

/-! The worker pool `TaskRunner`, one lock operation, queue access, wait or notification
at a time. Threads are numbered: thread `w < threads.length` is worker `w`, and the
others are application threads. A task is an opaque value of type `τ`; while it runs, its
own progress is a frame of type `φ`, which the pool neither reads nor writes. -/
namespace Blush.TaskRunner
variable {τ φ : Type}

/-- Where a thread stands inside `AddTask` or `~TaskRunner`. -/
inductive Call (τ : Type)
  | idle
  | addTaskLock (task : τ)
  | addTaskPush (task : τ)
  | addTaskUnlock
  | addTaskNotify
  | stopLock
  | stopStore
  | stopUnlock
  | stopNotify
  | stopJoin
  deriving DecidableEq, Repr

/-- Where a worker stands in `WorkerThread`. `wait` holds the lock and is about to test the
predicate of `m_condition.wait`; `blocked` is inside that wait, the lock released. -/
inductive Worker (τ φ : Type)
  | lock
  | wait
  | blocked
  | front
  | unlock (task : τ)
  | running (task : τ) (frame : φ)
  | exited
  deriving DecidableEq, Repr

/-- The members of `TaskRunner`, the calls in progress, and what happened so far. The
mutex names its owner. The last four fields are history: the code does not store them. -/
structure State (τ φ : Type) where
  mutex : Option ℕ
  taskQueue : List τ
  stop : Bool
  threads : List (Worker τ φ)
  calls : List (Call τ)
  destroying : Bool
  pushed : List τ
  dequeued : List τ
  started : List τ
  finished : List τ
  deriving Repr

/-- The labels say who moves, and resolve what the scheduler is free to choose: which
waiter a notification wakes, when a wait ends by itself, and how a task progresses. -/
inductive Act (τ φ : Type)
  | addTask (t : ℕ) (task : τ)
  | destroy (t : ℕ)
  | call (t : ℕ) (waiter : Option ℕ)
  | worker (w : ℕ)
  | spurious (w : ℕ)
  | frame (w : ℕ) (f : φ)
  | returned (w : ℕ)
  deriving DecidableEq, Repr

/-- The constructor spawns the workers; `outside` application threads exist. -/
def init (workers outside : ℕ) : State τ φ where
  mutex := none
  taskQueue := []
  stop := false
  threads := List.replicate workers .lock
  calls := List.replicate (workers+outside) .idle
  destroying := false
  pushed := []
  dequeued := []
  started := []
  finished := []

namespace State
variable (s : State τ φ)

def setCall (t : ℕ) (c : Call τ) : State τ φ := { s with calls := s.calls.set t c }
def setWorker (w : ℕ) (x : Worker τ φ) : State τ φ := { s with threads := s.threads.set w x }

/-- A worker can only call from inside a task it is running. -/
def mayCall (t : ℕ) : Bool :=
  match s.threads[t]? with
  | some (.running _ _) => true
  | some _ => false
  | none => true

end State

def Worker.isBlocked : Worker τ φ → Bool
  | .blocked => true
  | _ => false

def Worker.isExited : Worker τ φ → Bool
  | .exited => true
  | _ => false

/-- A notified worker leaves the wait and has to take the lock again. -/
def Worker.notified : Worker τ φ → Worker τ φ
  | .blocked => .lock
  | x => x

/-- `notify_one` wakes one blocked worker, or nobody when none is blocked. -/
def notifyOne (s : State τ φ) : Option ℕ → Option (State τ φ)
  | some w =>
    match s.threads[w]? with
    | some .blocked => some (s.setWorker w .lock)
    | _ => none
  | none => if s.threads.any Worker.isBlocked then none else some s

/-- The next step of thread `t` inside `AddTask` or `~TaskRunner`. -/
def callStep (s : State τ φ) (t : ℕ) (waiter : Option ℕ) : Option (State τ φ) :=
  match s.calls[t]? with
  | some (.addTaskLock task) =>
    if s.mutex.isNone then some { s.setCall t (.addTaskPush task) with mutex := some t } else none
  | some (.addTaskPush task) =>
    some { s.setCall t .addTaskUnlock with
      taskQueue := s.taskQueue ++ [task], pushed := s.pushed ++ [task] }
  | some .addTaskUnlock => some { s.setCall t .addTaskNotify with mutex := none }
  | some .addTaskNotify => (notifyOne s waiter).map (·.setCall t .idle)
  | some .stopLock =>
    if s.mutex.isNone then some { s.setCall t .stopStore with mutex := some t } else none
  | some .stopStore => some { s.setCall t .stopUnlock with stop := true }
  | some .stopUnlock => some { s.setCall t .stopNotify with mutex := none }
  | some .stopNotify =>
    some { s.setCall t .stopJoin with threads := s.threads.map Worker.notified }
  | some .stopJoin => if s.threads.all Worker.isExited then some (s.setCall t .idle) else none
  | _ => none

/-- The next step of worker `w` in the loop of `WorkerThread`, up to the call of the task. -/
def workerThread (enter : τ → φ) (s : State τ φ) (w : ℕ) : Option (State τ φ) :=
  match s.threads[w]? with
  | some .lock => if s.mutex.isNone then some { s.setWorker w .wait with mutex := some w } else none
  | some .wait =>
    if s.stop || !s.taskQueue.isEmpty then some (s.setWorker w .front)
    else some { s.setWorker w .blocked with mutex := none }
  | some .front =>
    if s.stop && s.taskQueue.isEmpty then some { s.setWorker w .exited with mutex := none }
    else
      match s.taskQueue with
      | [] => none
      | task::rest =>
        some { s.setWorker w (.unlock task) with
          taskQueue := rest, dequeued := s.dequeued ++ [task] }
  | some (.unlock task) =>
    some { s.setWorker w (.running task (enter task)) with
      mutex := none, started := s.started ++ [task] }
  | _ => none

def step (enter : τ → φ) (s : State τ φ) : Act τ φ → Option (State τ φ)
  | .addTask t task =>
    match s.calls[t]? with
    | some .idle => if s.mayCall t then some (s.setCall t (.addTaskLock task)) else none
    | _ => none
  | .destroy t =>
    match s.calls[t]?,s.threads[t]? with
    | some .idle,none => some { s.setCall t .stopLock with destroying := true }
    | _,_ => none
  | .call t waiter => callStep s t waiter
  | .worker w => workerThread enter s w
  | .spurious w =>
    match s.threads[w]? with
    | some .blocked => some (s.setWorker w .lock)
    | _ => none
  | .frame w f =>
    match s.threads[w]? with
    | some (.running task _) => some (s.setWorker w (.running task f))
    | _ => none
  | .returned w =>
    match s.threads[w]?,s.calls[w]? with
    | some (.running task _),some .idle =>
      some { s.setWorker w .lock with finished := s.finished ++ [task] }
    | _,_ => none

/-- Everything one step can do, guards included: the inversion of `step`. -/
inductive Step (enter : τ → φ) (s : State τ φ) : Act τ φ → State τ φ → Prop
  | addTask {t task} (hc : s.calls[t]? = some .idle) (ho : s.mayCall t = true) :
      Step enter s (.addTask t task) (s.setCall t (.addTaskLock task))
  | destroy {t} (hc : s.calls[t]? = some .idle) (ht : s.threads[t]? = none) :
      Step enter s (.destroy t) { s.setCall t .stopLock with destroying := true }
  | addTaskLock {t waiter task} (hc : s.calls[t]? = some (.addTaskLock task))
      (hm : s.mutex = none) :
      Step enter s (.call t waiter) { s.setCall t (.addTaskPush task) with mutex := some t }
  | addTaskPush {t waiter task} (hc : s.calls[t]? = some (.addTaskPush task)) :
      Step enter s (.call t waiter) { s.setCall t .addTaskUnlock with
        taskQueue := s.taskQueue ++ [task], pushed := s.pushed ++ [task] }
  | addTaskUnlock {t waiter} (hc : s.calls[t]? = some .addTaskUnlock) :
      Step enter s (.call t waiter) { s.setCall t .addTaskNotify with mutex := none }
  | notifyWaiter {t w} (hc : s.calls[t]? = some .addTaskNotify)
      (hw : s.threads[w]? = some .blocked) :
      Step enter s (.call t (some w)) ((s.setWorker w .lock).setCall t .idle)
  | notifyNobody {t} (hc : s.calls[t]? = some .addTaskNotify)
      (hn : s.threads.any Worker.isBlocked = false) :
      Step enter s (.call t none) (s.setCall t .idle)
  | stopLock {t waiter} (hc : s.calls[t]? = some .stopLock) (hm : s.mutex = none) :
      Step enter s (.call t waiter) { s.setCall t .stopStore with mutex := some t }
  | stopStore {t waiter} (hc : s.calls[t]? = some .stopStore) :
      Step enter s (.call t waiter) { s.setCall t .stopUnlock with stop := true }
  | stopUnlock {t waiter} (hc : s.calls[t]? = some .stopUnlock) :
      Step enter s (.call t waiter) { s.setCall t .stopNotify with mutex := none }
  | stopNotify {t waiter} (hc : s.calls[t]? = some .stopNotify) :
      Step enter s (.call t waiter)
        { s.setCall t .stopJoin with threads := s.threads.map Worker.notified }
  | stopJoin {t waiter} (hc : s.calls[t]? = some .stopJoin)
      (he : s.threads.all Worker.isExited = true) :
      Step enter s (.call t waiter) (s.setCall t .idle)
  | lock {w} (hw : s.threads[w]? = some .lock) (hm : s.mutex = none) :
      Step enter s (.worker w) { s.setWorker w .wait with mutex := some w }
  | awake {w} (hw : s.threads[w]? = some .wait) (hp : s.stop = true ∨ s.taskQueue ≠ []) :
      Step enter s (.worker w) (s.setWorker w .front)
  | block {w} (hw : s.threads[w]? = some .wait) (hs : s.stop = false) (hq : s.taskQueue = []) :
      Step enter s (.worker w) { s.setWorker w .blocked with mutex := none }
  | exit {w} (hw : s.threads[w]? = some .front) (hs : s.stop = true) (hq : s.taskQueue = []) :
      Step enter s (.worker w) { s.setWorker w .exited with mutex := none }
  | dequeue {w task rest} (hw : s.threads[w]? = some .front) (hq : s.taskQueue = task::rest) :
      Step enter s (.worker w) { s.setWorker w (.unlock task) with
        taskQueue := rest, dequeued := s.dequeued ++ [task] }
  | unlock {w task} (hw : s.threads[w]? = some (.unlock task)) :
      Step enter s (.worker w) { s.setWorker w (.running task (enter task)) with
        mutex := none, started := s.started ++ [task] }
  | spurious {w} (hw : s.threads[w]? = some .blocked) :
      Step enter s (.spurious w) (s.setWorker w .lock)
  | frame {w task f f'} (hw : s.threads[w]? = some (.running task f)) :
      Step enter s (.frame w f') (s.setWorker w (.running task f'))
  | returned {w task f} (hw : s.threads[w]? = some (.running task f))
      (hc : s.calls[w]? = some .idle) :
      Step enter s (.returned w) { s.setWorker w .lock with finished := s.finished ++ [task] }

variable {enter : τ → φ} {s s' : State τ φ}

theorem callStep_cases {t : ℕ} {waiter : Option ℕ} (h : callStep s t waiter = some s') :
    Step enter s (.call t waiter) s' := by
  unfold callStep at h
  split at h
  · rename_i task hc
    split at h
    · cases h; exact .addTaskLock hc (by simpa using ‹s.mutex.isNone = true›)
    · cases h
  · rename_i task hc
    cases h; exact .addTaskPush hc
  · rename_i hc
    cases h; exact .addTaskUnlock hc
  · rename_i hc
    cases waiter with
    | none =>
      simp only [notifyOne] at h
      split at h
      · cases h
      · rename_i hn
        cases h
        exact .notifyNobody hc (by simpa using hn)
    | some w =>
      simp only [notifyOne] at h
      split at h
      · rename_i hw
        cases h
        exact .notifyWaiter hc hw
      · cases h
  · rename_i hc
    split at h
    · cases h; exact .stopLock hc (by simpa using ‹s.mutex.isNone = true›)
    · cases h
  · rename_i hc
    cases h; exact .stopStore hc
  · rename_i hc
    cases h; exact .stopUnlock hc
  · rename_i hc
    cases h; exact .stopNotify hc
  · rename_i hc
    split at h
    · cases h; exact .stopJoin hc ‹_›
    · cases h
  · cases h

theorem workerThread_cases {w : ℕ} (h : workerThread enter s w = some s') :
    Step enter s (.worker w) s' := by
  unfold workerThread at h
  split at h
  · rename_i hw
    split at h
    · cases h; exact .lock hw (by simpa using ‹s.mutex.isNone = true›)
    · cases h
  · rename_i hw
    split at h
    · rename_i hp
      cases h; exact .awake hw (by simpa using hp)
    · rename_i hp
      simp only [Bool.or_eq_true,Bool.not_eq_true',not_or,Bool.not_eq_true,Bool.not_eq_false,
        List.isEmpty_iff] at hp
      cases h; exact .block hw hp.1 hp.2
  · rename_i hw
    split at h
    · rename_i hp
      simp only [Bool.and_eq_true,List.isEmpty_iff] at hp
      cases h; exact .exit hw hp.1 hp.2
    · split at h
      · cases h
      · rename_i task rest hq
        cases h; exact .dequeue hw hq
  · rename_i task hw
    cases h; exact .unlock hw
  · cases h

theorem step_cases {a : Act τ φ} (h : step enter s a = some s') : Step enter s a s' := by
  cases a with
  | addTask t task =>
    simp only [step] at h
    split at h
    · rename_i hc
      split at h
      · cases h; exact .addTask hc ‹_›
      · cases h
    · cases h
  | destroy t =>
    simp only [step] at h
    split at h
    · rename_i hc ht
      cases h; exact .destroy hc ht
    · cases h
  | call t waiter => exact callStep_cases h
  | worker w => exact workerThread_cases h
  | spurious w =>
    simp only [step] at h
    split at h
    · rename_i hw
      cases h; exact .spurious hw
    · cases h
  | frame w f =>
    simp only [step] at h
    split at h
    · rename_i task f₀ hw
      cases h; exact .frame hw
    · cases h
  | returned w =>
    simp only [step] at h
    split at h
    · rename_i task f hw hc
      cases h; exact .returned hw hc
    · cases h

end Blush.TaskRunner
