import Blush.TaskRunner.Wakeup
import Blush.TaskScheduler.Mutex
import Blush.Lib.Transition

/-! No wake-up of a worker or of the timer thread is lost. -/
namespace Blush.TaskScheduler
open Heap Slots Transition
variable {H : Algorithms ScheduledItem.nextFireTime} {s s' : State} {a : Act} {t : ℕ}
  {x y : Call} {k : Timer}

/-- Between a push or a stop store and its notification. -/
def Call.isPending : Call → Bool
  | .pushUnlock _ | .pushNotify _ | .stopUnlock | .stopNotify => true
  | _ => false

namespace State

def NotifyPending (s : State) : Prop := ∃ c ∈ s.calls, c.isPending = true

/-- What the timer may sleep on: an empty heap, or a deadline that no entry precedes. -/
def Asleep (s : State) : Timer → Prop
  | .blocked => s.heap.items = [] ∧ s.stop = false
  | .blockedUntil d => (∀ item ∈ s.heap.items, d ≤ item.nextFireTime) ∧ s.stop = false
  | _ => True

/-- The timer goes to sleep only before the stop store, and on a heap it has looked at. -/
structure TimerInv (s : State) : Prop where
  locked : s.Locked
  waitUntil : s.timer = .waitUntil → s.stop = false ∧ s.heap.items ≠ []
  stopCheck : s.timer = .stopCheck → s.stop = true ∨ s.heap.items ≠ []
  asleep : s.Asleep s.timer ∨ s.NotifyPending

end State

open State

theorem init_timerInv (workers outside : ℕ) : (init workers outside).TimerInv :=
  ⟨.init _ _,by simp [init],by simp [init],.inl trivial⟩

theorem NotifyPending.setCall (hp : s.NotifyPending) (hc : s.calls[t]? = some x)
    (hy : x.isPending = false ∨ y.isPending = true) : (s.setCall t y).NotifyPending := by
  rcases hy with h | h
  · exact exists_set hc (by simp [h]) hp
  · exact ⟨y,mem_set_self hc,h⟩

/-- A call moves on without touching the heap, the stop flag or the timer. -/
theorem State.TimerInv.setCall (hi : s.TimerInv) (hl : s'.Locked) (hc : s.calls[t]? = some x)
    (hy : x.isPending = false ∨ y.isPending = true) (hh : s'.heap = s.heap)
    (hs : s'.stop = s.stop) (ht : s'.timer = s.timer) (he : s'.calls = s.calls.set t y) :
    s'.TimerInv := by
  refine ⟨hl,by rw [ht,hs,hh]; exact hi.waitUntil,by rw [ht,hs,hh]; exact hi.stopCheck,?_⟩
  rcases hi.asleep with h | h
  · left
    rw [ht]
    revert h
    cases s.timer <;> simp [Asleep,hh,hs]
  · right
    have := NotifyPending.setCall (y:=y) h hc hy
    simpa [NotifyPending,he,State.setCall] using this

/-- An awake timer thread sleeps on nothing. -/
theorem asleep_of_awake (h : k.isBlocked = false) : s.Asleep k := by
  cases k <;> first | exact trivial | cases h

/-- A timer thread that is neither asleep nor about to sleep has nothing to keep. -/
theorem State.TimerInv.of_awake (hl : s.Locked) (hb : s.timer.isBlocked = false)
    (hw : s.timer ≠ .waitUntil) (hc : s.timer ≠ .stopCheck) : s.TimerInv :=
  ⟨hl,fun h => absurd h hw,fun h => absurd h hc,.inl (asleep_of_awake hb)⟩

@[simp] theorem isBlocked_notified (k : Timer) : k.notified.isBlocked = false := by
  cases k <;> rfl

/-- A notification wakes the timer thread, whatever it sleeps on. -/
theorem State.TimerInv.notified (hi : s.TimerInv) (hl : s'.Locked) (hh : s'.heap = s.heap)
    (hs : s'.stop = s.stop) (ht : s'.timer = s.timer.notified) : s'.TimerInv := by
  refine ⟨hl,fun h => ?_,fun h => ?_,.inl (asleep_of_awake (by simp [ht]))⟩
  · rw [hh,hs]
    refine hi.waitUntil ?_
    rw [ht] at h
    cases hk : s.timer <;> simp_all [Timer.notified]
  · rw [hh,hs]
    refine hi.stopCheck ?_
    rw [ht] at h
    cases hk : s.timer <;> simp_all [Timer.notified]

/-- A store made under the lock finds the timer before or inside a wait, and is announced. -/
theorem State.TimerInv.store (hi : s.TimerInv) (hl : s'.Locked) (hc : s.calls[t]? = some x)
    (hx : x.holds = true) (hy : y.isPending = true) (ht : s'.timer = s.timer)
    (he : s'.calls = s.calls.set t y) : s'.TimerInv := by
  have hn := (hi.locked.alone hc hx).1
  refine ⟨hl,fun h => ?_,fun h => ?_,.inr ⟨y,?_,hy⟩⟩
  · rw [← ht,h] at hn
    cases hn
  · rw [← ht,h] at hn
    cases hn
  · rw [he]
    exact mem_set_self hc

theorem step_timerInv (hi : s.TimerInv) (h : step H s a = some s') : s'.TimerInv := by
  have hl := step_locked hi.locked h
  cases step_cases h with
  | runner | started | refused | completed | finish | external | tick =>
    exact ⟨hl,hi.waitUntil,hi.stopCheck,hi.asleep⟩
  | schedule ht | destroy ht | cancel ht =>
    exact hi.setCall hl (mayCall_idle ht).1 (.inl rfl) rfl rfl rfl rfl
  | cancelScheduled hc | cancelRunning hc | cancelFailed hc | pushLock hc | stopLock hc =>
    exact hi.setCall hl hc (.inl rfl) rfl rfl rfl rfl
  | pushUnlock hc | stopUnlock hc => exact hi.setCall hl hc (.inr rfl) rfl rfl rfl rfl
  | push hc | stopStore hc => exact hi.store hl hc rfl rfl rfl rfl
  | pushNotify | stopNotify | wake => exact hi.notified hl rfl rfl rfl
  | stopJoin hc ht =>
    have hk : s.timer = .exited := by
      cases hk : s.timer <;> simp_all [Timer.isExited]
    exact .of_awake hl (by simp [State.setCall,hk,Timer.isBlocked]) (by simp [State.setCall,hk])
      (by simp [State.setCall,hk])
  | timerBlock ht hs hh => exact ⟨hl,by simp,by simp,.inl ⟨hh,hs⟩⟩
  | @waitUntil item ht hf =>
    exact ⟨hl,by simp,by simp,.inl ⟨MinHeap.front_le hf,(hi.waitUntil ht).1⟩⟩
  | timerAwake ht hp => exact ⟨hl,by simp,fun _ => hp,.inl trivial⟩
  | timerGo ht hs =>
    have hh := (hi.stopCheck ht).resolve_left (by simp [hs])
    exact ⟨hl,fun _ => ⟨hs,hh⟩,by simp,.inl trivial⟩
  | timerLock | relock | timerStop | timerGoUntil | now | pop | passEnd | overlap | queue
  | oneShot | skip | noOverlap | dispatch | added =>
    exact .of_awake hl rfl (by simp) (by simp)
  | discard | slide | reinsert =>
    exact .of_awake hl rfl (by simp [State.record]) (by simp [State.record])

/-- The pool inside the scheduler keeps its own guarantee: every step of the scheduler is a
step of the pool, the progress of a worker inside a closure, or does not touch it. -/
theorem step_wakeInv (hi : s.runner.WakeInv) (h : step H s a = some s') : s'.runner.WakeInv := by
  cases step_cases h with
  | runner ha hr => exact hr.wakeInv hi
  | started hw | refused hw | completed hw | finish hw | external hw => exact hi.setWorker hw rfl
  | dispatch ht hc => exact hi.setCall hc (.inl rfl) (.inl rfl)
  | _ => exact hi

/-- A worker that sleeps, or the timer thread asleep in phase 1 or phase 2, has nothing to do,
or a notification is still to come. -/
theorem no_lost_wakeup (H : Algorithms ScheduledItem.nextFireTime) (workers outside : ℕ)
    (e : Execution (step H) (init workers outside)) :
    ((∃ x ∈ e.final.runner.threads, x.isExited = false) →
      (∀ x ∈ e.final.runner.threads, x.isExited = false → x.isBlocked = true) →
      (e.final.runner.taskQueue = [] ∧ e.final.runner.stop = false) ∨
        e.final.runner.NotifyPending) ∧
    (e.final.timer = .blocked →
      (e.final.heap.items = [] ∧ e.final.stop = false) ∨ e.final.NotifyPending) ∧
    ∀ d, e.final.timer = .blockedUntil d →
      ((∀ item ∈ e.final.heap.items, d ≤ item.nextFireTime) ∧ e.final.stop = false) ∨
        e.final.NotifyPending := by
  have hr : e.final.runner.WakeInv := e.run.invariant (I:=fun s => s.runner.WakeInv)
    (TaskRunner.init_wakeInv _ _) fun _ _ _ => step_wakeInv
  have ht : e.final.TimerInv := e.run.invariant (init_timerInv _ _) fun _ _ _ => step_timerInv
  refine ⟨hr.idle_or_pending,fun hb => ?_,fun d hb => ?_⟩
  · have h := ht.asleep
    rwa [hb] at h
  · have h := ht.asleep
    rwa [hb] at h

/-- The scheduler and then the pool are destroyed; the only worker has left. -/
def poolDestroyed :
    Execution (step (insertionAlgorithms ScheduledItem.nextFireTime)) (init 1 1) :=
  .ofLabels [.destroy 2,.call 2,.call 2,.call 2,.call 2,.timer,.timer,.timer,.call 2,
    .runner (.destroy 2),.runner (.call 2 none),.runner (.call 2 none),.runner (.call 2 none),
    .runner (.call 2 none),.runner (.worker 0),.runner (.worker 0),.runner (.worker 0)] (by decide)

/-- With no worker left every worker that is left is blocked, yet `m_stop` is set and every
notification has been made. -/
theorem poolDestroyed_stopped :
    (∀ x ∈ poolDestroyed.final.runner.threads, x.isExited = false → x.isBlocked = true) ∧
    ¬((poolDestroyed.final.runner.taskQueue = [] ∧ poolDestroyed.final.runner.stop = false) ∨
      poolDestroyed.final.runner.NotifyPending) := by
  refine ⟨by decide,?_⟩
  rintro (h | ⟨c,hc,hp⟩)
  · exact absurd h.2 (by decide)
  · revert c
    decide

end Blush.TaskScheduler
