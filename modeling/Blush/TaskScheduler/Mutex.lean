import Blush.Lib.Slots
import Blush.TaskScheduler.Step

/-! Mutual exclusion between the timer thread and the calls of the application. -/
namespace Blush.TaskScheduler
open Heap Slots
variable {H : Algorithms ScheduledItem.nextFireTime} {s s' : State} {a : Act} {t : ℕ}
  {x y : Call} {k : Timer}

/-- The timer thread holds the lock, also while it calls `AddTask`. -/
def Timer.holds : Timer → Bool
  | .lock | .blocked | .blockedUntil _ | .relock | .exited => false
  | _ => true

def Call.holds : Call → Bool
  | .push _ | .pushUnlock _ | .stopStore | .stopUnlock => true
  | _ => false

namespace State

/-- Whoever is at a point where the lock is held owns the mutex. -/
structure Locked (s : State) : Prop where
  timer : s.timer.holds = true → s.mutex = some .timer
  call : ∀ t x, s.calls[t]? = some x → x.holds = true → s.mutex = some (.caller t)

namespace Locked

theorem init (workers outside : ℕ) : (init workers outside).Locked := by
  refine ⟨by simp [TaskScheduler.init,Timer.holds],fun t x hx hh => ?_⟩
  obtain rfl := List.eq_of_mem_replicate (List.mem_of_getElem? hx)
  cases hh

theorem setCall (hi : s.Locked) (hc : s.calls[t]? = some x)
    (hy : y.holds = true → x.holds = true) : (s.setCall t y).Locked := by
  refine ⟨hi.timer,fun u z hz hh => ?_⟩
  rcases getElem?_set_cases hz with ⟨rfl,rfl⟩ | ⟨-,hz⟩
  · exact hi.call u x hc (hy hh)
  · exact hi.call u z hz hh

/-- The caller goes on to a point where it does not hold the lock. -/
theorem setIdle (hi : s.Locked) (hc : s.calls[t]? = some x) (hy : y.holds = false) :
    (s.setCall t y).Locked :=
  hi.setCall hc fun h => absurd h (by simp [hy])

theorem setTimer (hi : s.Locked) (hk : k.holds = true → s.timer.holds = true) :
    { s with timer := k }.Locked := ⟨fun h => hi.timer (hk h),hi.call⟩

/-- Nobody holds a free mutex. -/
theorem free (hi : s.Locked) (hm : s.mutex = none) :
    s.timer.holds = false ∧ ∀ (t : ℕ) (x : Call), s.calls[t]? = some x → x.holds = false := by
  constructor
  · by_contra h
    have := hi.timer (by simpa using h)
    simp [hm] at this
  · intro t x hx
    by_contra h
    have := hi.call t x hx (by simpa using h)
    simp [hm] at this

theorem lockCall (hi : s.Locked) (hm : s.mutex = none) :
    { s.setCall t y with mutex := some (.caller t) }.Locked := by
  obtain ⟨ht,hc⟩ := hi.free hm
  refine ⟨fun h => absurd (ht.symm.trans h) (by decide),fun u z hz hh => ?_⟩
  rcases getElem?_set_cases hz with ⟨rfl,-⟩ | ⟨-,hz⟩
  · rfl
  · exact absurd ((hc u z hz).symm.trans hh) (by decide)

theorem lockTimer (hi : s.Locked) (hm : s.mutex = none) :
    { s with timer := k, mutex := some .timer }.Locked := by
  obtain ⟨-,hc⟩ := hi.free hm
  exact ⟨fun _ => rfl,fun u z hz hh => absurd ((hc u z hz).symm.trans hh) (by decide)⟩

/-- While a call holds the mutex neither the timer nor another call does. -/
theorem alone (hi : s.Locked) (hc : s.calls[t]? = some x) (hx : x.holds = true) :
    s.timer.holds = false ∧
      ∀ (u : ℕ) (z : Call), u ≠ t → s.calls[u]? = some z → z.holds = false := by
  have hm := hi.call t x hc hx
  constructor
  · by_contra h
    have := hi.timer (by simpa using h)
    simp [hm] at this
  · intro u z hu hz
    by_contra h
    have := hi.call u z hz (by simpa using h)
    simp only [hm,Option.some.injEq,Owner.caller.injEq] at this
    exact hu this.symm

theorem unlockCall (hi : s.Locked) (hc : s.calls[t]? = some x) (hx : x.holds = true)
    (hy : y.holds = false) : { s.setCall t y with mutex := none }.Locked := by
  obtain ⟨ht,ho⟩ := hi.alone hc hx
  refine ⟨fun h => absurd (ht.symm.trans h) (by decide),fun u z hz hh => ?_⟩
  rcases getElem?_set_cases hz with ⟨rfl,rfl⟩ | ⟨hu,hz⟩
  · exact absurd (hy.symm.trans hh) (by decide)
  · exact absurd ((ho u z hu hz).symm.trans hh) (by decide)

theorem unlockTimer (hi : s.Locked) (ht : s.timer.holds = true) (hk : k.holds = false) :
    { s with timer := k, mutex := none }.Locked := by
  refine ⟨fun h => absurd (hk.symm.trans h) (by decide),fun u z hz hh => ?_⟩
  have := (hi.timer ht).symm.trans (hi.call u z hz hh)
  cases this

theorem congr (hi : s.Locked) (hm : s'.mutex = s.mutex) (ht : s'.timer = s.timer)
    (hc : s'.calls = s.calls) : s'.Locked :=
  ⟨by rw [hm,ht]; exact hi.timer,by rw [hm,hc]; exact hi.call⟩

end Locked
end State

@[simp] theorem holds_notified (k : Timer) : k.notified.holds = k.holds := by cases k <;> rfl

theorem step_locked (hi : s.Locked) (h : step H s a = some s') : s'.Locked := by
  cases step_cases h with
  | runner | started | refused | completed | finish | external | tick => exact hi.congr rfl rfl rfl
  | @schedule t request ht =>
    exact (hi.setIdle (y:=.pushLock (request.item s.clock s.allocated)) (mayCall_idle ht).1
      rfl).congr rfl rfl rfl
  | cancel ht => exact hi.setIdle (mayCall_idle ht).1 rfl
  | destroy ht => exact (hi.setIdle (y:=.stopLock) (mayCall_idle ht).1 rfl).congr rfl rfl rfl
  | cancelScheduled hc | cancelRunning hc =>
    exact (hi.setIdle (y:=.idle) hc rfl).congr rfl rfl rfl
  | cancelFailed hc => exact hi.setIdle hc rfl
  | pushLock hc hm => exact hi.lockCall hm
  | push hc => exact (hi.setCall (y:=.pushUnlock _) hc fun _ => rfl).congr rfl rfl rfl
  | pushUnlock hc => exact hi.unlockCall hc rfl rfl
  | pushNotify hc =>
    have hk := (hi.setIdle (y:=.idle) hc rfl).setTimer (k:=s.timer.notified)
      (by simp [State.setCall])
    exact hk.congr rfl rfl rfl
  | stopLock hc hm => exact hi.lockCall hm
  | stopStore hc => exact (hi.setCall (y:=.stopUnlock) hc fun _ => rfl).congr rfl rfl rfl
  | stopUnlock hc => exact hi.unlockCall hc rfl rfl
  | stopNotify hc =>
    exact (hi.setIdle (y:=.stopJoin) hc rfl).setTimer (by simp [State.setCall])
  | stopJoin hc => exact (hi.setIdle (y:=.idle) hc rfl).congr rfl rfl rfl
  | timerLock ht hm | relock ht hm => exact hi.lockTimer hm
  | timerBlock ht => exact hi.unlockTimer (by rw [ht]; rfl) rfl
  | waitUntil ht => exact hi.unlockTimer (by rw [ht]; rfl) rfl
  | timerStop ht => exact hi.unlockTimer (by rcases ht with ht | ht <;> rw [ht] <;> rfl) rfl
  | timerAwake ht | timerGo ht | timerGoUntil ht | now ht | pop ht | passEnd ht | discard ht
  | overlap ht | queue ht | oneShot ht | skip ht | noOverlap ht | slide ht | reinsert ht
  | dispatch ht | added ht =>
    exact ⟨fun _ => hi.timer (by rw [ht]; rfl),hi.call⟩
  | wake => exact hi.setTimer (by simp)

end Blush.TaskScheduler
