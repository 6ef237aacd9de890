import Blush.TaskRunner.Model
import Blush.TaskScheduler.Cancellable
import Blush.Lib.Heap
import Blush.Lib.MachineInt
import Mathlib.Logic.Function.Basic

/-! `TaskScheduler` on top of the worker pool: the timer thread, the calls of the
application, and the closures the timer hands to the pool, one atomic step at a time.
Threads are numbered as in the pool; the first number past the workers is the timer. -/
namespace Blush.TaskScheduler
open Function Heap

/-- A clock reading or a duration: a signed 64-bit count of nanoseconds. -/
abbrev TimePoint := ℤ

/-- The sum of two 64-bit counts. -/
def TimePoint.add (a b : TimePoint) : TimePoint := MachineInt.wrap 64 (a+b)

inductive OverlapPolicy
  | skip
  | queue
  deriving DecidableEq, Repr

/-- An element of the heap. The task itself is known by its handle. -/
structure ScheduledItem where
  nextFireTime : TimePoint
  cancellable : Handle
  repeating : Bool := false
  period : TimePoint := 0
  policy : OverlapPolicy := .skip
  repeating_eq : repeating = cancellable.isRepeating
  deriving DecidableEq, Repr

/-- The item of the next recurrence. -/
def ScheduledItem.next (item : ScheduledItem) : ScheduledItem :=
  { item with nextFireTime := TimePoint.add item.nextFireTime item.period }

/-- The overloads of `ScheduleTask` and `ScheduleRepeatingTask`. -/
inductive Request
  | after (delay : TimePoint)
  | at (when : TimePoint)
  | repeating (initialDelay period : TimePoint) (policy : OverlapPolicy)
  deriving DecidableEq, Repr

/-- Without an initial delay the first execution fires after one period. -/
def Request.every (period : TimePoint) (policy : OverlapPolicy := .skip) : Request :=
  .repeating period period policy

/-- The item a call builds around the `n`-th `CancellableImpl`, at the clock reading `now`. -/
def Request.item (now : TimePoint) (n : ℕ) : Request → ScheduledItem
  | .after delay =>
    { nextFireTime := TimePoint.add now delay, cancellable := .oneShot n, repeating_eq := rfl }
  | .at when => { nextFireTime := when, cancellable := .oneShot n, repeating_eq := rfl }
  | .repeating initialDelay period policy =>
    { nextFireTime := TimePoint.add now initialDelay, cancellable := .repeating n,
      repeating := true, period, policy, repeating_eq := rfl }

/-- What the pool executes: a task the application submitted itself, or the lambda that the
timer thread builds around a scheduled task. -/
inductive Closure
  | external (n : ℕ)
  | invoke (c : Handle)
  deriving DecidableEq, Repr

/-- Where a worker stands in a closure. -/
inductive Frame
  | trySetRunning
  | task
  | finish
  | done
  deriving DecidableEq, Repr

def Closure.isExternal : Closure → Bool
  | .external _ => true
  | .invoke _ => false

/-- The first statement of a closure. -/
def Closure.enter : Closure → Frame
  | .external _ => .task
  | .invoke _ => .trySetRunning

/-- Where a thread stands inside `Cancel`, `Schedule...Task` or `~TaskScheduler`. -/
inductive Call
  | idle
  | cancelScheduled (c : Handle)
  | cancelRunning (c : Handle)
  | pushLock (item : ScheduledItem)
  | push (item : ScheduledItem)
  | pushUnlock (c : Handle)
  | pushNotify (c : Handle)
  | stopLock
  | stopStore
  | stopUnlock
  | stopNotify
  | stopJoin
  deriving DecidableEq, Repr

/-- Where the timer thread stands in `Run`. `wait` and `waitUntil` hold the lock and are
about to enter the waits of phases 1 and 2; `pass` is the head of the loop of phase 3, and
the points after it hold the item that was popped. -/
inductive Timer
  | lock
  | wait
  | blocked
  | stopCheck
  | waitUntil
  | blockedUntil (deadline : TimePoint)
  | relock
  | stopCheckUntil
  | now
  | pass (now : TimePoint)
  | popped (now : TimePoint) (item : ScheduledItem)
  | overlap (now : TimePoint) (item : ScheduledItem)
  | slide (now : TimePoint) (item : ScheduledItem)
  | reinsert (now : TimePoint) (item : ScheduledItem)
  | dispatch (now : TimePoint) (item : ScheduledItem)
  | adding (now : TimePoint) (item : ScheduledItem)
  | exited
  deriving DecidableEq, Repr

/-- Who holds the mutex of the scheduler. -/
inductive Owner
  | timer
  | caller (t : ℕ)
  deriving DecidableEq, Repr

/-- What can happen to a task: an entry of it is pushed or, found cancelled, discarded; an
invocation starts, finds the status word not `scheduled`, or completes; `Cancel` returns. -/
inductive Event
  | pushed
  | discarded
  | started
  | refused
  | completed
  | cancelReturned
  deriving DecidableEq, Repr

/-- The pool, the members of `TaskScheduler::Impl`, the status words, the handles the
application has been given, and the calls in progress. `history` lists what happened to which
task; the code does not store it. -/
structure State where
  runner : TaskRunner.State Closure Frame
  words : Handle → ScheduleStatus
  allocated : ℕ
  handles : List Handle
  heap : MinHeap ScheduledItem.nextFireTime
  mutex : Option Owner
  stop : Bool
  timer : Timer
  calls : List Call
  clock : TimePoint
  destroying : Bool
  destroyed : Bool
  history : List (Event × Handle)

/-- The labels say who moves: the pool, a worker inside a closure, an application thread or
the timer. A wait of the timer can end by itself, by its deadline or spuriously. -/
inductive Act
  | runner (a : TaskRunner.Act Closure Frame)
  | closure (w : ℕ)
  | schedule (t : ℕ) (request : Request)
  | cancel (t : ℕ) (c : Handle)
  | destroy (t : ℕ)
  | call (t : ℕ)
  | timer
  | timerWake
  | tick (d : ℕ)
  deriving DecidableEq, Repr

/-- A scheduler on a pool of its own; besides the workers and the timer there are `outside`
application threads. -/
def init (workers outside : ℕ) : State where
  runner := TaskRunner.init workers (outside+1)
  words _ := .scheduled
  allocated := 0
  handles := []
  heap := MinHeap.empty _
  mutex := none
  stop := false
  timer := .lock
  calls := List.replicate (workers+(outside+1)) .idle
  clock := 0
  destroying := false
  destroyed := false
  history := []

def Call.isIdle : Call → Bool
  | .idle => true
  | _ => false

/-- Inside `Schedule...Task`, which uses the members of the scheduler. -/
def Call.isSchedule : Call → Bool
  | .pushLock _ | .push _ | .pushUnlock _ | .pushNotify _ => true
  | _ => false

def Timer.isExited : Timer → Bool
  | .exited => true
  | _ => false

/-- A wait that ends has to take the lock again. -/
def Timer.notified : Timer → Timer
  | .blocked => .lock
  | .blockedUntil _ => .relock
  | x => x

def Timer.isBlocked : Timer → Bool
  | .blocked | .blockedUntil _ => true
  | _ => false

namespace State
variable (s : State)

def setCall (t : ℕ) (c : Call) : State := { s with calls := s.calls.set t c }
def setWord (c : Handle) (v : ScheduleStatus) : State := { s with words := update s.words c v }
def record (e : Event) (c : Handle) : State := { s with history := s.history ++ [(e,c)] }

/-- The closure a worker is in gets to the statement `f`. -/
def setFrame (w : ℕ) (closure : Closure) (f : Frame) : State :=
  { s with runner := s.runner.setWorker w (.running closure f) }

def timerThread : ℕ := s.runner.threads.length

/-- No call of the thread is in progress. -/
def betweenCalls (t : ℕ) : Bool :=
  match s.calls[t]?,s.runner.calls[t]? with
  | some .idle,some .idle => true
  | _,_ => false

/-- The application's code runs outside the pool, and in the tasks. -/
def mayCall (t : ℕ) : Bool :=
  s.betweenCalls t && t != s.timerThread &&
    match s.runner.threads[t]? with
    | some (.running _ .task) => true
    | some _ => false
    | none => true

/-- The steps of the pool that its own code takes, the calls the application makes on it,
and the return from a closure that has come to its end. -/
def mayRun : TaskRunner.Act Closure Frame → Bool
  | .addTask t closure => s.mayCall t && closure.isExternal
  | .destroy t => s.mayCall t && s.destroyed
  | .frame _ _ => false
  | .returned w =>
    match s.runner.threads[w]? with
    | some (.running _ .done) => true
    | _ => false
  | _ => true

end State

/-- The next step of thread `t` inside `Cancel`, `Schedule...Task` or `~TaskScheduler`. The
timer is the only thread that waits on the condition variable. The members are freed when no
`Schedule...Task` call uses them any more. -/
def callStep (H : Algorithms ScheduledItem.nextFireTime) (s : State) (t : ℕ) : Option State :=
  match s.calls[t]? with
  | some (.cancelScheduled c) =>
    if (s.words c).cancelScheduled.1 then
      some (((s.setWord c (s.words c).cancelScheduled.2).setCall t .idle).record .cancelReturned c)
    else some (s.setCall t (.cancelRunning c))
  | some (.cancelRunning c) =>
    some (((s.setWord c (s.words c).cancelRunning.2).setCall t .idle).record .cancelReturned c)
  | some (.pushLock item) =>
    if s.mutex.isNone then some { s.setCall t (.push item) with mutex := some (.caller t) }
    else none
  | some (.push item) =>
    some ({ s.setCall t (.pushUnlock item.cancellable) with
      heap := s.heap.push H item }.record .pushed item.cancellable)
  | some (.pushUnlock c) => some { s.setCall t (.pushNotify c) with mutex := none }
  | some (.pushNotify c) =>
    some { s.setCall t .idle with timer := s.timer.notified, handles := c::s.handles }
  | some .stopLock =>
    if s.mutex.isNone then some { s.setCall t .stopStore with mutex := some (.caller t) }
    else none
  | some .stopStore => some { s.setCall t .stopUnlock with stop := true }
  | some .stopUnlock => some { s.setCall t .stopNotify with mutex := none }
  | some .stopNotify => some { s.setCall t .stopJoin with timer := s.timer.notified }
  | some .stopJoin =>
    if s.timer.isExited && s.calls.all (!·.isSchedule) then
      some { s.setCall t .idle with destroyed := true, heap := MinHeap.empty _ }
    else none
  | _ => none

/-- The next step of the timer thread in `Run`. -/
def timerStep (H : Algorithms ScheduledItem.nextFireTime) (s : State) : Option State :=
  match s.timer with
  | .lock =>
    if s.mutex.isNone then some { s with timer := .wait, mutex := some .timer } else none
  | .wait =>
    if s.stop || !s.heap.items.isEmpty then some { s with timer := .stopCheck }
    else some { s with timer := .blocked, mutex := none }
  | .stopCheck =>
    if s.stop then some { s with timer := .exited, mutex := none }
    else some { s with timer := .waitUntil }
  | .waitUntil => s.heap.front?.map fun item =>
      { s with timer := .blockedUntil item.nextFireTime, mutex := none }
  | .relock =>
    if s.mutex.isNone then some { s with timer := .stopCheckUntil, mutex := some .timer }
    else none
  | .stopCheckUntil =>
    if s.stop then some { s with timer := .exited, mutex := none }
    else some { s with timer := .now }
  | .now => some { s with timer := .pass s.clock }
  | .pass now =>
    if s.heap.front?.any (·.nextFireTime ≤ now) then
      (s.heap.pop H).map fun r => { s with timer := .popped now r.1, heap := r.2 }
    else some { s with timer := .wait }
  | .popped now item =>
    if s.words item.cancellable = .cancelled then
      some ({ s with timer := .pass now }.record .discarded item.cancellable)
    else if item.repeating then
      if item.policy = .skip then some { s with timer := .overlap now item }
      else some { s with timer := .reinsert now item }
    else some { s with timer := .dispatch now item }
  | .overlap now item =>
    if s.words item.cancellable = .running then some { s with timer := .slide now item }
    else some { s with timer := .reinsert now item }
  | .slide now item =>
    some ({ s with
      timer := .pass now
      heap := s.heap.push H item.next }.record .pushed item.cancellable)
  | .reinsert now item =>
    some ({ s with
      timer := .dispatch now item
      heap := s.heap.push H item.next }.record .pushed item.cancellable)
  | .dispatch now item =>
    (TaskRunner.step Closure.enter s.runner (.addTask s.timerThread (.invoke item.cancellable))).map
      fun r => { s with runner := r, timer := .adding now item }
  | .adding now _ =>
    -- `AddTask` has returned
    if s.runner.calls[s.timerThread]? = some .idle then some { s with timer := .pass now } else none
  | _ => none

/-- The next step of worker `w` inside the closure it runs. The task is left only between
the calls it makes. -/
def closureStep (s : State) (w : ℕ) : Option State :=
  match s.runner.threads[w]? with
  | some (.running (.invoke c) .trySetRunning) =>
    if (s.words c).trySetRunning.1 then
      some (((s.setWord c (s.words c).trySetRunning.2).setFrame w (.invoke c) .task).record
        .started c)
    else some ((s.setFrame w (.invoke c) .done).record .refused c)
  | some (.running (.invoke c) .task) =>
    if s.betweenCalls w then some ((s.setFrame w (.invoke c) .finish).record .completed c)
    else none
  | some (.running (.invoke c) .finish) =>
    some ((s.setWord c (c.finish (s.words c))).setFrame w (.invoke c) .done)
  | some (.running (.external n) .task) =>
    if s.betweenCalls w then some (s.setFrame w (.external n) .done) else none
  | _ => none

def step (H : Algorithms ScheduledItem.nextFireTime) (s : State) : Act → Option State
  | .runner a =>
    if s.mayRun a then
      (TaskRunner.step Closure.enter s.runner a).map fun r => { s with runner := r }
    else none
  | .closure w => closureStep s w
  | .schedule t request =>
    if s.mayCall t && !s.destroyed then
      some { s.setCall t (.pushLock (request.item s.clock s.allocated)) with
        allocated := s.allocated+1
        words := update s.words (request.item s.clock s.allocated).cancellable .scheduled }
    else none
  | .cancel t c =>
    if s.mayCall t && s.handles.contains c then some (s.setCall t (.cancelScheduled c)) else none
  | .destroy t =>
    if s.mayCall t && !s.destroying then
      some { s.setCall t .stopLock with destroying := true }
    else none
  | .call t => callStep H s t
  | .timer => timerStep H s
  | .timerWake =>
    if s.timer.isBlocked then some { s with timer := s.timer.notified } else none
  | .tick d => some { s with clock := s.clock+d }

end Blush.TaskScheduler
