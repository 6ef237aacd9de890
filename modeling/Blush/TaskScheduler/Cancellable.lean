import Mathlib.Data.Nat.Notation

/-! The status word of `CancellableImpl`. Every transition is one compare-exchange. -/
namespace Blush.TaskScheduler

inductive ScheduleStatus
  | scheduled
  | running
  | completed
  | cancelled
  deriving DecidableEq, Repr

namespace ScheduleStatus

/-- `compare_exchange_strong`: whether it succeeded, and the word it leaves. -/
def compareExchange (word expected desired : ScheduleStatus) : Bool × ScheduleStatus :=
  if word = expected then (true,desired) else (false,word)

/-- The first compare-exchange of `Cancel`. -/
def cancelScheduled (word : ScheduleStatus) := word.compareExchange .scheduled .cancelled

/-- The second compare-exchange of `Cancel`. -/
def cancelRunning (word : ScheduleStatus) := word.compareExchange .running .cancelled

def trySetRunning (word : ScheduleStatus) := word.compareExchange .scheduled .running
def setCompleted (word : ScheduleStatus) := word.compareExchange .running .completed
def resetToScheduled (word : ScheduleStatus) := word.compareExchange .running .scheduled

end ScheduleStatus

/-- The `CancellableImpl` objects, by the call that made them: the `n`-th object is handed
out by `ScheduleTask` or by `ScheduleRepeatingTask`. -/
inductive Handle
  | oneShot (n : ℕ)
  | repeating (n : ℕ)
  deriving DecidableEq, Repr

namespace Handle

def number : Handle → ℕ
  | .oneShot n | .repeating n => n

def isRepeating : Handle → Bool
  | .oneShot _ => false
  | .repeating _ => true

/-- What the dispatched closure does to the status word after the task has returned. -/
def finish : Handle → ScheduleStatus → ScheduleStatus
  | .oneShot _,word => word.setCompleted.2
  | .repeating _,word => word.resetToScheduled.2

end Handle
end Blush.TaskScheduler
