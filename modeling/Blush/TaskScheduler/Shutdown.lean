import Blush.TaskRunner.Shutdown
import Blush.TaskScheduler.Simulation
import Blush.TaskScheduler.Wakeup

/-! The scheduler shuts down: from the stop store of its destructor on nothing more is handed to
the pool, the timer thread leaves, the destructor returns, and what was handed over is executed. -/
namespace Blush.TaskScheduler
open Heap Slots Transition Progress
variable {H : Algorithms ScheduledItem.nextFireTime} {s s' : State} {a : Act} {t : ℕ}
  {x y : Call} {k : Timer}

/-! ## What holds in every state -/

/-- After the stop store. -/
def Call.isStopped : Call → Bool
  | .stopUnlock | .stopNotify | .stopJoin => true
  | _ => false

/-- Past the check of the stop flag that precedes the waits of phase 2 and the pass. -/
def Timer.isPast : Timer → Bool
  | .lock | .wait | .blocked | .stopCheck | .blockedUntil _ | .relock | .stopCheckUntil
  | .exited => false
  | _ => true

namespace State

def HeldBy (s : State) : Owner → Prop
  | .timer => s.timer.holds = true
  | .caller t => ∃ x, s.calls[t]? = some x ∧ x.holds = true

/-- Whoever owns the mutex is where it is held, the timer thread has not passed a check of the stop
flag that is set, and the members are freed when it has left and before the pool is. -/
structure Stoppable (s : State) : Prop where
  inv : s.TimerInv
  owner : ∀ o, s.mutex = some o → s.HeldBy o
  past : s.stop = true → s.timer.isPast = false
  stopped : s.stop = true → s.destroyed = true ∨ ∃ c ∈ s.calls, c.isStopped = true
  destroyed : s.destroyed = true → s.timer = .exited
  pool : s.runner.destroying = true → s.destroyed = true
  external : ∀ (w n : ℕ) (f : Frame), s.runner.threads[w]? = some (.running (.external n) f) →
    f = .task ∨ f = .done
  enough : s.runner.threads.length ≤ s.calls.length

end State

theorem init_stoppable (workers outside : ℕ) : (init workers outside).Stoppable where
  inv := init_timerInv workers outside
  owner := nofun
  past := nofun
  stopped := nofun
  destroyed := nofun
  pool := nofun
  external w n f h := nomatch List.eq_of_mem_replicate (List.mem_of_getElem? h)
  enough := by simp [init,TaskRunner.init]

theorem isPast_holds (h : k.isPast = true) : k.holds = true := by
  cases k <;> first | rfl | cases h

@[simp] theorem isPast_notified (k : Timer) : k.notified.isPast = k.isPast := by cases k <;> rfl

/-- The calls and the timer say who holds the mutex. -/
theorem State.HeldBy.congr {o : Owner} (h : s.HeldBy o) (hc : s'.calls = s.calls)
    (ht : s.timer.holds = true → s'.timer.holds = true) : s'.HeldBy o := by
  cases o with
  | timer => exact ht h
  | caller u =>
    rw [State.HeldBy,hc]
    exact h

/-- A call that holds the mutex before and after a step, or neither, moves on. -/
theorem State.HeldBy.setCall {o : Owner} (h : s.HeldBy o) (hc : s.calls[t]? = some x)
    (hy : x.holds = true → y.holds = true) (hcalls : s'.calls = s.calls.set t y)
    (ht : s'.timer.holds = s.timer.holds) : s'.HeldBy o := by
  cases o with
  | timer => exact ht.trans h
  | caller u =>
    rw [State.HeldBy,hcalls]
    exact exists_getElem?_set (P:=fun z : Call => z.holds = true) hc hy h

theorem step_owner (hi : s.Stoppable) (h : step H s a = some s') :
    ∀ o, s'.mutex = some o → s'.HeldBy o := by
  intro o ho
  cases step_cases h with
  | runner | started | refused | completed | finish | external | tick =>
    exact (hi.owner o ho).congr rfl id
  | schedule ht | cancel ht | destroy ht =>
    exact (hi.owner o ho).setCall (mayCall_idle ht).1 nofun rfl rfl
  | cancelScheduled hc | cancelFailed hc | cancelRunning hc | stopJoin hc =>
    exact (hi.owner o ho).setCall hc nofun rfl rfl
  | push hc | stopStore hc => exact (hi.owner o ho).setCall hc (fun _ => rfl) rfl rfl
  | pushNotify hc | stopNotify hc =>
    exact (hi.owner o ho).setCall hc nofun rfl (holds_notified s.timer)
  | pushLock hc | stopLock hc =>
    cases ho
    exact ⟨_,getElem?_set_self hc,rfl⟩
  | timerLock | relock =>
    cases ho
    rfl
  | pushUnlock | stopUnlock | timerBlock | timerStop | waitUntil => cases ho
  | timerAwake | timerGo | timerGoUntil | now | pop | passEnd | discard | overlap | queue
  | oneShot | skip | noOverlap | slide | reinsert | dispatch | added =>
    exact (hi.owner o ho).congr rfl fun _ => rfl
  | wake => exact (hi.owner o ho).congr rfl fun h => (holds_notified s.timer).trans h

theorem step_past (hi : s.Stoppable) (h : step H s a = some s') :
    s'.stop = true → s'.timer.isPast = false := by
  intro hs
  cases step_cases h with
  | stopStore hc =>
    -- the store is made under the lock, and past its check the timer thread has the lock
    have hh := (hi.inv.locked.alone hc rfl).1
    cases hp : s.timer.isPast with
    | false => exact hp
    | true => simp [isPast_holds hp] at hh
  | pushNotify | stopNotify | wake => exact (isPast_notified s.timer).trans (hi.past hs)
  | timerLock | relock | timerAwake | timerBlock | timerStop | waitUntil | passEnd => rfl
  | timerGo _ hn | timerGoUntil _ hn => simp [hn] at hs
  | now ht | pop ht | discard ht | overlap ht | queue ht | oneShot ht | skip ht | noOverlap ht
  | slide ht | reinsert ht | dispatch ht | added ht =>
    have := hi.past hs
    rw [ht] at this
    cases this
  | _ => exact hi.past hs

theorem step_stopped (hi : s.Stoppable) (h : step H s a = some s') :
    s'.stop = true → s'.destroyed = true ∨ ∃ c ∈ s'.calls, c.isStopped = true := by
  intro hs
  cases step_cases h with
  | schedule ht | cancel ht | destroy ht =>
    exact (hi.stopped hs).imp_right (exists_set (mayCall_idle ht).1 nofun)
  | cancelScheduled hc | cancelFailed hc | cancelRunning hc | pushLock hc | push hc | pushUnlock hc
  | pushNotify hc | stopLock hc =>
    exact (hi.stopped hs).imp_right (exists_set hc nofun)
  | stopStore hc | stopUnlock hc | stopNotify hc => exact .inr ⟨_,mem_set_self hc,rfl⟩
  | stopJoin => exact .inl rfl
  | _ => exact hi.stopped hs

theorem step_destroyed (hi : s.Stoppable) (h : step H s a = some s') :
    s'.destroyed = true → s'.timer = .exited := by
  intro hd
  have hgone (ht : s.timer ≠ .exited) : s.destroyed = false := by
    by_contra hne
    exact ht (hi.destroyed (by simpa using hne))
  cases step_cases h with
  | pushNotify | stopNotify | wake =>
    have := hi.destroyed hd
    simp only [this,Timer.notified]
  | stopJoin hc ht =>
    change s.timer = .exited
    cases hk : s.timer <;> simp_all [Timer.isExited]
  | timerStop => rfl
  | timerLock ht | relock ht | timerAwake ht | timerBlock ht | waitUntil ht | passEnd ht
  | timerGo ht | timerGoUntil ht | now ht | pop ht | discard ht | overlap ht | queue ht
  | oneShot ht | skip ht | noOverlap ht | slide ht | reinsert ht | dispatch ht | added ht =>
    have := hi.destroyed hd
    rw [ht] at this
    cases this
  | _ => exact hi.destroyed hd

theorem step_pool_destroyed (hi : s.Stoppable) (h : step H s a = some s') :
    s'.runner.destroying = true → s'.destroyed = true := by
  intro hd
  cases step_cases h with
  | runner ha hr =>
    cases hr with
    | destroy =>
      simp only [State.mayRun,Bool.and_eq_true] at ha
      exact ha.2
    | _ => exact hi.pool hd
  | stopJoin => rfl
  | _ => exact hi.pool hd

theorem step_external (hi : s.Stoppable) (h : step H s a = some s') (w n : ℕ) (f : Frame)
    (hw : s'.runner.threads[w]? = some (.running (.external n) f)) : f = .task ∨ f = .done := by
  -- a worker gets to another point of a task, or the task is another one
  have set {v : ℕ} {z : TaskRunner.Worker Closure Frame}
      (hw : (s.runner.threads.set v z)[w]? = some (.running (.external n) f))
      (hz : z = .running (.external n) f → f = .task ∨ f = .done) : f = .task ∨ f = .done := by
    rcases getElem?_set_cases hw with ⟨-,he⟩ | ⟨-,hw⟩
    · exact hz he.symm
    · exact hi.external w n f hw
  cases step_cases h with
  | runner ha hr =>
    cases hr with
    | @unlock v task hv =>
      refine set hw fun he => ?_
      cases he
      exact .inl rfl
    | frame => cases ha
    | notifyWaiter | lock | awake | block | exit | dequeue | spurious | returned =>
      exact set hw (by simp)
    | stopNotify =>
      obtain ⟨z,hz,he⟩ : ∃ z, s.runner.threads[w]? = some z ∧
          TaskRunner.Worker.notified z = .running (.external n) f := by
        simpa [TaskRunner.State.setCall] using hw
      refine hi.external w n f (hz.trans (congrArg some ?_))
      cases z <;> first | exact he | cases he
    | _ => exact hi.external w n f hw
  | started | refused | completed | finish => exact set hw (by simp)
  | external =>
    refine set hw fun he => ?_
    cases he
    exact .inr rfl
  | _ => exact hi.external w n f hw

theorem step_enough (hi : s.Stoppable) (h : step H s a = some s') :
    s'.runner.threads.length ≤ s'.calls.length := by
  have hn : s'.runner.threads.length = s.runner.threads.length := step_timerThread h
  have hc : s'.calls.length = s.calls.length := by
    cases step_cases h <;> simp [State.setCall,State.record,State.setWord,State.setFrame]
  rw [hn,hc]
  exact hi.enough

theorem step_stoppable (hi : s.Stoppable) (h : step H s a = some s') : s'.Stoppable :=
  ⟨step_timerInv hi.inv h,step_owner hi h,step_past hi h,step_stopped hi h,step_destroyed hi h,
    step_pool_destroyed hi h,step_external hi h,step_enough hi h⟩

/-! ## The pool inside the scheduler -/

/-- The pool's invariants. -/
structure PoolInv (r : TaskRunner.State Closure Frame) : Prop where
  drains : r.Drains
  orderly : r.Orderly
  wake : r.WakeInv
  accounted : r.Accounted

theorem init_poolInv (workers outside : ℕ) : PoolInv (init (workers+1) outside).runner :=
  ⟨TaskRunner.init_drains _ _,TaskRunner.init_orderly _ _,TaskRunner.init_wakeInv _ _,
    TaskRunner.init_accounted _ _⟩

/-- The application respects the lifetime of the pool. -/
def poolUse (s : State) : Act → Bool
  | .runner a => TaskRunner.legalUse s.runner a
  | _ => true

/-- A statement of a closure is progress of the task the worker runs. -/
theorem frame_step {r : TaskRunner.State Closure Frame} {w : ℕ} {closure : Closure} {f f' : Frame}
    (hw : r.threads[w]? = some (.running closure f)) :
    TaskRunner.step Closure.enter r (.frame w f') = some (r.setWorker w (.running closure f')) := by
  simp [TaskRunner.step,hw]

/-- A step of the scheduler is at most one step of its pool. -/
theorem step_pool (hi : s.Stoppable) (hu : poolUse s a = true) (h : step H s a = some s') :
    s'.runner = s.runner ∨ ∃ b, TaskRunner.legalUse s.runner b = true ∧
      TaskRunner.step Closure.enter s.runner b = some s'.runner := by
  cases a with
  | runner b =>
    simp only [step] at h
    split at h
    · obtain ⟨r,hr,rfl⟩ := Option.map_eq_some_iff.mp h
      exact .inr ⟨b,hu,hr⟩
    · cases h
  | closure w =>
    cases step_cases h with
    | started hw | refused hw | completed hw | finish hw | external hw =>
      exact .inr ⟨.frame w _,rfl,frame_step hw⟩
  | timer =>
    cases step_cases h with
    | @dispatch now item ht hc =>
      refine .inr ⟨.addTask s.timerThread (.invoke item.cancellable),?_,?_⟩
      · have hd : s.runner.destroying = false := by
          by_contra hne
          have := hi.destroyed (hi.pool (by simpa using hne))
          rw [ht] at this
          cases this
        simp [TaskRunner.legalUse,hd]
      · change s.runner.calls[s.runner.threads.length]? = some .idle at hc
        simp [TaskRunner.step,hc,TaskRunner.State.mayCall,State.timerThread]
    | _ => exact .inl rfl
  | _ => cases step_cases h <;> exact .inl rfl

theorem step_poolInv (hi : s.Stoppable) (hp : PoolInv s.runner) (hu : poolUse s a = true)
    (h : step H s a = some s') : PoolInv s'.runner := by
  rcases step_pool hi hu h with he | ⟨b,hl,hb⟩
  · exact he ▸ hp
  · exact ⟨TaskRunner.step_drains hp.drains hl hb,TaskRunner.step_orderly hp.orderly hp.drains hb,
      (TaskRunner.step_cases hb).wakeInv hp.wake,TaskRunner.step_accounted hp.accounted hb⟩

/-- Once the stop store is made no closure of a task gets to the pool any more. -/
theorem handed_eq {c : Handle} (hs : s.TimerSubmits) (ha : (s.life c).Accounted)
    (hp : s.timer.isPast = false) (h : step H s a = some s') :
    (s'.life c).handed = (s.life c).handed := by
  have hhand : (s.life c).pool .handing = 0 := by
    rcases ha.handing with h0 | ⟨-,hh⟩
    · exact h0
    · change s.timer.hand c = some .adding at hh
      cases hk : s.timer <;> simp_all [Timer.hand,Timer.isPast]
  have hl {m : Mark} {l : Life} (h : LifeStep c m (s.life c) l) : l.handed = (s.life c).handed := by
    cases h with
    | enqueue hm =>
      have := hm .handing
      simp [hhand] at this
    | _ => rfl
  cases step_simulates hs h c with
  | stutter he => rw [he]
  | plain h => exact hl h
  | refusal _ _ h => exact hl h
  | lostCancel _ _ h => exact hl h

/-! ## What is left to do -/

def Frame.rank : Frame → ℕ
  | .trySetRunning => 3
  | .task => 2
  | .finish => 1
  | .done => 0

def Frame.Before (f f' : Frame) : Prop := f.rank < f'.rank

/-- How many statements a call still has before it, waits for other threads aside. -/
def Call.effort : Call → ℕ
  | .idle => 0
  | .cancelScheduled _ => 2
  | .cancelRunning _ => 1
  | .pushLock _ => 4
  | .push _ => 3
  | .pushUnlock _ => 2
  | .pushNotify _ => 1
  | .stopLock => 5
  | .stopStore => 4
  | .stopUnlock => 3
  | .stopNotify => 2
  | .stopJoin => 1

/-- The same for the timer thread when it is asked to stop. -/
def Timer.effort : Timer → ℕ
  | .blocked | .blockedUntil _ => 4
  | .lock | .relock => 3
  | .wait => 2
  | .stopCheck | .stopCheckUntil => 1
  | _ => 0

def State.effort (s : State) : ℕ := (s.calls.map Call.effort).sum+s.timer.effort

/-- The steps the scheduler and its pool take by themselves: the application calls nothing any
more. The clock may go on, but nothing waits for it. -/
def proceeds (s : State) : Act → Prop
  | .runner a => TaskRunner.proceeds Frame.Before s.runner a
  | .closure _ | .call _ | .timer | .timerWake => True
  | .schedule _ _ | .cancel _ _ | .destroy _ | .tick _ => False

/-- Those that do not come without a reason. -/
def Act.isOwn : Act → Bool
  | .runner a => a.isOwn
  | .closure _ | .call _ | .timer => true
  | _ => false

theorem effort_notified (k : Timer) : k.notified.effort ≤ k.effort := by
  cases k <;> simp [Timer.notified,Timer.effort]

theorem effort_call (hc : s.calls[t]? = some x) (hy : y.effort < x.effort)
    (hcalls : s'.calls = s.calls.set t y) (ht : s'.timer.effort ≤ s.timer.effort) :
    s'.effort < s.effort := by
  have := sum_map_set Call.effort (b:=y) hc
  rw [State.effort,State.effort,hcalls]
  omega

/-- A statement of a closure brings the pool nearer to its rest. -/
theorem frame_nearer {r : TaskRunner.State Closure Frame} (hp : PoolInv r) {w : ℕ}
    {closure : Closure} {f f' : Frame} (hf : f'.Before f)
    (hw : r.threads[w]? = some (.running closure f)) :
    TaskRunner.Nearer Closure.enter Frame.Before
      ((r.setWorker w (.running closure f')).stop,(r.setWorker w (.running closure f')).items)
      (r.stop,r.items) :=
  TaskRunner.Step.nearer hp.orderly (.frame hw) ⟨closure,f,hw,hf⟩

/-- Every step brings the scheduler nearer to its end. -/
theorem step_nearer (hi : s.Stoppable) (hp : PoolInv s.runner) (hs : s.stop = true)
    (ha : proceeds s a) (h : step H s a = some s') :
    Prod.Lex (· < ·) (TaskRunner.Nearer Closure.enter Frame.Before)
      (s'.effort,s'.runner.stop,s'.runner.items) (s.effort,s.runner.stop,s.runner.items) := by
  have hpast := hi.past hs
  have htimer {k : Timer} {m : Option Owner} (hk : k.effort < s.timer.effort) :
      State.effort { s with timer := k, mutex := m } < s.effort := Nat.add_lt_add_left hk _
  cases step_cases h with
  | runner _ hr => exact .right _ (hr.nearer hp.orderly ha)
  | started hw | refused hw | completed hw | finish hw | external hw =>
    exact .right _ (frame_nearer hp (by simp [Frame.Before,Frame.rank]) hw)
  | schedule | cancel | destroy | tick => exact ha.elim
  | cancelScheduled hc | cancelRunning hc | cancelFailed hc | pushLock hc | push hc | pushUnlock hc
  | stopLock hc | stopStore hc | stopUnlock hc | stopJoin hc =>
    exact .left _ _ (effort_call hc (by simp [Call.effort]) rfl le_rfl)
  | pushNotify hc | stopNotify hc =>
    exact .left _ _ (effort_call hc (by simp [Call.effort]) rfl (effort_notified s.timer))
  | timerLock ht | relock ht | timerAwake ht =>
    exact .left _ _ (htimer (by rw [ht]; decide))
  | timerStop ht =>
    exact .left _ _ (htimer (by rcases ht with ht | ht <;> rw [ht] <;> decide))
  | timerBlock _ hn | timerGo _ hn | timerGoUntil _ hn => simp [hn] at hs
  | wake ht =>
    refine .left _ _ (htimer (m:=s.mutex) ?_)
    cases hk : s.timer <;> simp_all [Timer.isBlocked,Timer.notified,Timer.effort]
  | waitUntil ht | now ht | pop ht | passEnd ht | discard ht | overlap ht | queue ht | oneShot ht
  | skip ht | noOverlap ht | slide ht | reinsert ht | dispatch ht | added ht =>
    rw [ht] at hpast
    cases hpast

/-! ## Somebody can go on -/

theorem Call.eq_idle (h : x.isIdle = true) : x = .idle := by
  cases x with
  | idle => rfl
  | _ => cases h

def Lively (H : Algorithms ScheduledItem.nextFireTime) (s : State) : Prop :=
  ∃ a : Act, a.isOwn = true ∧ (step H s a).isSome = true

namespace State.Stoppable

/-- A call that holds the mutex is not held up. -/
theorem caller_live (h : s.HeldBy (.caller t)) : Lively H s := by
  obtain ⟨x,hc,hx⟩ := h
  refine ⟨.call t,rfl,?_⟩
  simp only [step,callStep,hc]
  cases x with
  | push | pushUnlock | stopStore | stopUnlock => rfl
  | _ => cases hx

/-- After the stop store whoever holds the mutex is not held up. -/
theorem owner_live (hi : s.Stoppable) (hs : s.stop = true) (o : Owner) (hm : s.mutex = some o) :
    Lively H s := by
  have hh := hi.owner o hm
  cases o with
  | timer =>
    refine ⟨.timer,rfl,?_⟩
    have hp := hi.past hs
    change s.timer.holds = true at hh
    simp only [step,timerStep]
    cases hk : s.timer with
    | wait | stopCheck | stopCheckUntil => simp [hs]
    | lock | blocked | blockedUntil | relock | exited =>
      rw [hk] at hh
      cases hh
    | _ =>
      rw [hk] at hp
      cases hp
  | caller t => exact caller_live hh

/-- A call in progress goes on where the owner of the mutex does, unless it waits for the timer
thread to leave. -/
theorem call_live (ho : ∀ o, s.mutex = some o → Lively H s) (hc : s.calls[t]? = some x)
    (hn : x.isIdle = false) (hj : x ≠ .stopJoin) : Lively H s := by
  have hlocked (hl : x = .stopLock ∨ ∃ item, x = .pushLock item) : Lively H s := by
    cases hm : s.mutex with
    | some o => exact ho o hm
    | none =>
      refine ⟨.call t,rfl,?_⟩
      rcases hl with rfl | ⟨item,rfl⟩ <;> simp [step,callStep,hc,hm]
  cases x with
  | idle => cases hn
  | stopJoin => exact absurd rfl hj
  | pushLock item => exact hlocked (.inr ⟨item,rfl⟩)
  | stopLock => exact hlocked (.inl rfl)
  | cancelScheduled c =>
    refine ⟨.call t,rfl,?_⟩
    simp only [step,callStep,hc]
    split <;> rfl
  | cancelRunning | push | pushUnlock | pushNotify | stopStore | stopUnlock | stopNotify =>
    exact ⟨.call t,rfl,by simp [step,callStep,hc]⟩

/-- A timer thread that wants the mutex gets it where the owner goes on. -/
theorem lock_live (ho : ∀ o, s.mutex = some o → Lively H s)
    (h : s.timer = .lock ∨ s.timer = .relock) : Lively H s := by
  cases hm : s.mutex with
  | some o => exact ho o hm
  | none =>
    refine ⟨.timer,rfl,?_⟩
    rcases h with h | h <;> simp [step,timerStep,h,hm]

/-- Whoever has to wake the timer thread goes on. -/
theorem asleep_live (hi : s.Stoppable) (ho : ∀ o, s.mutex = some o → Lively H s)
    (h : ¬s.Asleep s.timer) : Lively H s := by
  obtain ⟨x,hx,hp⟩ := hi.inv.asleep.resolve_left h
  obtain ⟨t,hc⟩ := List.mem_iff_getElem?.mp hx
  exact call_live ho hc (by cases x <;> first | rfl | cases hp) (by rintro rfl; cases hp)

/-- The timer thread leaves, or whoever holds it up, or has to wake it, goes on. -/
theorem timer_live (hi : s.Stoppable) (hs : s.stop = true) (ht : s.timer ≠ .exited) :
    Lively H s := by
  have ho := hi.owner_live (H:=H) hs
  have hp := hi.past hs
  cases hk : s.timer with
  | exited => exact absurd hk ht
  | blocked => exact hi.asleep_live ho (by simp [hk,State.Asleep,hs])
  | blockedUntil d => exact hi.asleep_live ho (by simp [hk,State.Asleep,hs])
  | lock => exact lock_live ho (.inl hk)
  | relock => exact lock_live ho (.inr hk)
  | wait | stopCheck | stopCheckUntil => exact ⟨.timer,rfl,by simp [step,timerStep,hk,hs]⟩
  | _ =>
    rw [hk] at hp
    cases hp

/-- Between the calls of the application a pool that can go on is allowed to. -/
theorem pool_live (hi : s.Stoppable) (hcalls : ∀ x ∈ s.calls, x.isIdle = true)
    (h : TaskRunner.Lively Closure.enter s.runner) : Lively H s := by
  obtain ⟨b,hb,he⟩ := h
  have hrun (hm : s.mayRun b = true) : Lively H s :=
    ⟨.runner b,hb,by simpa [step,hm] using he⟩
  cases b with
  | call | worker => exact hrun rfl
  | returned w =>
    obtain ⟨r,hr⟩ := Option.isSome_iff_exists.mp he
    cases TaskRunner.step_cases hr with
    | @returned _ closure f hw hc =>
      have hlt : w < s.calls.length := ((List.getElem?_eq_some_iff.mp hw).1).trans_le hi.enough
      have hidle : s.calls[w]? = some .idle := by
        rw [List.getElem?_eq_getElem hlt,Call.eq_idle (hcalls _ (List.getElem_mem hlt))]
      have hbetween : s.betweenCalls w = true := by simp [State.betweenCalls,hidle,hc]
      cases closure with
      | external n =>
        rcases hi.external w n f hw with rfl | rfl
        · exact ⟨.closure w,rfl,by simp [step,closureStep,hw,hbetween]⟩
        · exact hrun (by simp [State.mayRun,hw])
      | invoke c =>
        cases f with
        | done => exact hrun (by simp [State.mayRun,hw])
        | task => exact ⟨.closure w,rfl,by simp [step,closureStep,hw,hbetween]⟩
        | finish => exact ⟨.closure w,rfl,by simp [step,closureStep,hw]⟩
        | trySetRunning =>
          refine ⟨.closure w,rfl,?_⟩
          simp only [step,closureStep,hw]
          split <;> rfl
  | _ => cases hb

end State.Stoppable

/-! ## The end -/

/-- The destructor has returned, the timer thread is gone, no call is in progress, and the pool is
at rest; for each task `submitted` closures got to the pool, and they were executed to their end or
refused as cancelled. -/
structure State.ShutDown (submitted : Handle → ℕ) (s : State) : Prop where
  destroyed : s.destroyed = true
  timer : s.timer = .exited
  calls : ∀ x ∈ s.calls, x.isIdle = true
  pool : s.runner.AtRest
  handed : ∀ c, s.runner.pushed.count (.invoke c) = submitted c
  executed : ∀ c, s.history.count (.completed,c)+s.history.count (.refused,c) = submitted c

theorem pool_eq_zero {r : TaskRunner.State Closure Frame} (h : r.AtRest) (c : Handle)
    (stage : PoolStage) : pool c r stage = 0 := by
  have h1 : tally (addTaskStage c) r.calls stage = 0 := tally_eq_zero fun x hx he => by
    obtain rfl := TaskRunner.Call.eq_idle (h.calls x hx)
    cases he
  have h2 : tally (workerStage c) r.threads stage = 0 := tally_eq_zero fun x hx he => by
    cases hd : r.destroying with
    | true =>
      have hx := h.left hd x hx
      cases x with
      | exited => simp [workerStage] at he
      | _ => cases hx
    | false =>
      have hx := h.waiting hd x hx
      cases x with
      | blocked => simp [workerStage] at he
      | _ => cases hx
  simp only [pool,Pi.add_apply,h1,h2,h.queue]
  rfl

/-- A pool at rest has executed all closures of a task, or refused them. -/
theorem executed_of_atRest {c : Handle} (hr : s.runner.AtRest) (hc : (s.life c).Accounted) :
    s.history.count (.completed,c)+s.history.count (.refused,c) =
      s.runner.pushed.count (.invoke c) := by
  have hq := hc.queue
  have hst := hc.started
  simp only [State.life,pool_eq_zero hr,zero_add] at hq hst
  omega

theorem shutDown_or_lively {submitted : Handle → ℕ} (hi : s.Stoppable) (hp : PoolInv s.runner)
    (hs : s.stop = true) (hc : ∀ c, (s.life c).Accounted)
    (hn : ∀ c, (s.life c).handed = submitted c) : s.ShutDown submitted ∨ Lively H s := by
  by_cases ht : s.timer = .exited
  swap
  · exact .inr (hi.timer_live hs ht)
  by_cases hx : ∃ x ∈ s.calls, x.isIdle = false ∧ x ≠ .stopJoin
  · obtain ⟨x,hx,hxi,hj⟩ := hx
    obtain ⟨t,hc⟩ := List.mem_iff_getElem?.mp hx
    exact .inr (State.Stoppable.call_live (hi.owner_live hs) hc hxi hj)
  have hjoin : ∀ x ∈ s.calls, x.isIdle = false → x = .stopJoin := by simpa using hx
  by_cases hidle : ∀ x ∈ s.calls, x.isIdle = true
  swap
  · obtain ⟨x,hx,hxi⟩ : ∃ x ∈ s.calls, x.isIdle = false := by simpa using hidle
    obtain rfl := hjoin x hx hxi
    obtain ⟨t,ht'⟩ := List.mem_iff_getElem?.mp hx
    have hn : ∀ y ∈ s.calls, y.isSchedule = false := by
      intro y hy
      cases hyi : y.isIdle with
      | true => cases y <;> first | rfl | cases hyi
      | false => rw [hjoin y hy hyi]; rfl
    refine .inr ⟨.call t,rfl,?_⟩
    simpa [step,callStep,ht',ht,Timer.isExited] using hn
  have hd : s.destroyed = true := by
    rcases hi.stopped hs with hd | ⟨x,hx,hxs⟩
    · exact hd
    · obtain rfl := Call.eq_idle (hidle x hx)
      cases hxs
  rcases TaskRunner.rest_or_lively hp.orderly hp.drains hp.wake hp.accounted with hr | hl
  · exact .inl ⟨hd,ht,hidle,hr,hn,fun c => (executed_of_atRest hr (hc c)).trans (hn c)⟩
  · exact .inr (hi.pool_live hidle hl)

/-- From the stop store on, in every run that respects the lifetime of the pool, the scheduler
shuts down whatever the threads' schedule is: once the application calls nothing more, `Cancel` and
`Schedule...Task` calls in progress and the destructor return, the timer thread leaves, no further
closure gets to the pool, and all that got there are executed or refused. -/
theorem shuts_down (H : Algorithms ScheduledItem.nextFireTime) (workers outside : ℕ)
    (e : Execution (step H) (init (workers+1) outside))
    (hu : ∀ p ∈ e.steps, poolUse p.1 p.2 = true) (hs : e.final.stop = true) :
    Settles (step H) (fun _ a => a.isOwn = true) proceeds
      (State.ShutDown fun c => e.final.runner.pushed.count (.invoke c)) e.final := by
  have hinv : e.final.Stoppable ∧ PoolInv e.final.runner :=
    e.run.invariant_of (I:=fun s => s.Stoppable ∧ PoolInv s.runner)
      ⟨init_stoppable _ _,init_poolInv _ _⟩
      (fun _ _ _ hi hc h => ⟨step_stoppable hi.1 h,step_poolInv hi.1 hi.2 hc h⟩) hu
  have hlife (c : Handle) := run_inv e.run c
  refine Settles.of_measure
    (WellFounded.prod_lex wellFounded_lt
      (TaskRunner.nearer_wf Closure.enter (InvImage.wf Frame.rank wellFounded_lt)))
    (fun s => (s.effort,s.runner.stop,s.runner.items))
    (I:=fun s => ((s.Stoppable ∧ PoolInv s.runner) ∧ s.stop = true) ∧ ∀ c,
      (s.TimerSubmits ∧ (s.life c).Inv) ∧
        (s.life c).handed = e.final.runner.pushed.count (.invoke c))
    (fun s a s' hI ha h => ?_) (fun s hI => ?_) ⟨⟨hinv,hs⟩,fun c => ⟨hlife c,rfl⟩⟩
  · obtain ⟨⟨⟨hi,hp⟩,hs⟩,hc⟩ := hI
    have hstop : s'.stop = true := by
      cases step_cases h with
      | stopStore => rfl
      | _ => exact hs
    have huse : poolUse s a = true := by
      cases a with
      | runner b => cases b <;> first | rfl | exact ha.elim
      | _ => rfl
    refine ⟨⟨⟨⟨step_stoppable hi h,step_poolInv hi hp huse h⟩,hstop⟩,fun c => ?_⟩,
      step_nearer hi hp hs ha h⟩
    obtain ⟨⟨hsub,hl⟩,hn⟩ := hc c
    exact ⟨run_life (Run.refl.next h) hsub hl fun _ _ _ => Life.Inv.step,
      (handed_eq hsub hl.accounted (hi.past hs) h).trans hn⟩
  · obtain ⟨⟨⟨hi,hp⟩,hs⟩,hc⟩ := hI
    exact shutDown_or_lively hi hp hs (fun c => (hc c).1.2.accounted) fun c => (hc c).2

/-- A task is due at once and gets to the pool; then the destructor makes its stop store. -/
def stopAfterDispatch : Execution (step (insertionAlgorithms _)) (init 1 1) :=
  .ofLabels [.schedule 2 (.after 0),.call 2,.call 2,.call 2,.call 2,
    .timer,.timer,.timer,.timer,.timerWake,.timer,.timer,.timer,.timer,.timer,.timer,
    .runner (.call 1 none),.runner (.call 1 none),.runner (.call 1 none),.runner (.call 1 none),
    .timer,.timer,.timer,.destroy 2,.call 2,.call 2] (by decide)

theorem stopAfterDispatch_shuts_down :
    stopAfterDispatch.final.runner.pushed.count (.invoke (.oneShot 0)) = 1 ∧
    Settles (step (insertionAlgorithms _)) (fun _ a => a.isOwn = true) proceeds
      (State.ShutDown fun c => stopAfterDispatch.final.runner.pushed.count (.invoke c))
      stopAfterDispatch.final :=
  ⟨by decide,shuts_down _ 0 1 stopAfterDispatch (by decide) (by decide)⟩

end Blush.TaskScheduler
