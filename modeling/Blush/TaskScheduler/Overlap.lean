import Blush.TaskScheduler.Repeating

/-! Invocations of one task exclude each other through its status word, whatever the overlap
policy; an invocation that meets another one is given up. -/
namespace Blush.TaskScheduler
open Heap Slots Transition
variable {H : Algorithms ScheduledItem.nextFireTime} {s s' : State} {a : Act} {l l' : Life}
  {c : Handle} {m : Mark}

/-- The worker is in the body of the task. -/
def inTask (c : Handle) : TaskRunner.Worker Closure Frame → Bool
  | .running (.invoke d) .task => d = c
  | _ => false

/-- The worker is between a successful `TrySetRunning` and the end of `ResetToScheduled`. -/
def inInvocation (c : Handle) : TaskRunner.Worker Closure Frame → Bool
  | .running (.invoke d) .task | .running (.invoke d) .finish => d = c
  | _ => false

/-- At most one worker is in the task, and the status is `Running` only while one is. -/
def TaskExclusive (c : Handle) (s : State) : Prop :=
  s.runner.threads.countP (inTask c) ≤ 1 ∧
    (s.words c = .running → s.runner.threads.countP (inTask c) = 1)

/-! ## Exclusion -/

theorem pool_worker (c : Handle) (r : TaskRunner.State Closure Frame) {k : PoolStage}
    (hh : k ≠ .handing) (hq : k ≠ .queued) : pool c r k = tally (workerStage c) r.threads k := by
  have h1 : tally (addTaskStage c) r.calls k = 0 := tally_eq_zero fun x _ he => by
    unfold addTaskStage at he
    split at he <;> simp at he
    all_goals exact hh he.2.symm
  have h2 : tally (queueStage c) r.taskQueue k = 0 := tally_eq_zero fun x _ he => by
    cases x <;> simp [queueStage] at he
    exact hq he.2.symm
  simp [pool,h1,h2]

theorem pool_executing (c : Handle) (r : TaskRunner.State Closure Frame) :
    pool c r .executing = r.threads.countP (inTask c) := by
  rw [pool_worker c r (by decide) (by decide)]
  refine List.countP_congr fun x _ => ?_
  unfold workerStage inTask
  split <;> simp

theorem pool_invocation (c : Handle) (r : TaskRunner.State Closure Frame) :
    pool c r .executing + pool c r .leaving = r.threads.countP (inInvocation c) := by
  rw [pool_worker c r (by decide) (by decide),pool_worker c r (by decide) (by decide),
    tally_add _ _ (by decide)]
  refine List.countP_congr fun x _ => ?_
  unfold workerStage inInvocation
  split <;> simp

/-- At most one worker is between `TrySetRunning` and `ResetToScheduled` of a repeating task,
hence at most one in its body, and the status is `Running` only while exactly one is there. -/
theorem invocation_exclusive (H : Algorithms ScheduledItem.nextFireTime)
    (workers outside n : ℕ) (e : Execution (step H) (init workers outside)) :
    e.final.runner.threads.countP (inInvocation (.repeating n)) ≤ 1 ∧
    e.final.runner.threads.countP (inTask (.repeating n)) ≤ 1 ∧
    (e.final.words (.repeating n) = .running →
      e.final.runner.threads.countP (inInvocation (.repeating n)) = 1) := by
  have hx := (run_inv e.run (.repeating n)).2.exclusive
  have h1 := pool_executing (.repeating n) e.final.runner
  have h2 := pool_invocation (.repeating n) e.final.runner
  have hm : pool (.repeating n) e.final.runner .executing +
      pool (.repeating n) e.final.runner .leaving ≤ 1 := hx.atMost
  refine ⟨by omega,by omega,fun hw => ?_⟩
  rw [← h2]
  exact hx.running hw

/-- One worker; the task has returned and its status word is not reset yet. -/
def beforeReset : Execution (step (insertionAlgorithms ScheduledItem.nextFireTime)) (init 1 1) :=
  .ofLabels [.schedule 2 (.every 10),.call 2,.call 2,.call 2,.call 2,
    .timer,.timer,.timer,.timer,.tick 10,.timerWake,.timer,.timer,.timer,.timer,.timer,.timer,
    .timer,.timer,
    .runner (.call 1 none),.runner (.call 1 none),.runner (.call 1 none),.runner (.call 1 none),
    .runner (.worker 0),.runner (.worker 0),.runner (.worker 0),.runner (.worker 0),.closure 0,
    .closure 0] (by decide)

theorem beforeReset_not_exclusive : ¬TaskExclusive (.repeating 0) beforeReset.final :=
  fun h => absurd (h.2 (by decide)) (by decide)

/-! ## Lost cycles -/

/-- The worker has taken a closure of the task and has not come back from it. -/
def holdsClosure (c : Handle) : TaskRunner.Worker Closure Frame → Bool
  | .unlock (.invoke d) | .running (.invoke d) _ => d = c
  | _ => false

/-- The pool holds no queued closure of the task and no worker is executing one. -/
def Quiet (c : Handle) (s : State) : Prop :=
  .invoke c ∉ s.runner.taskQueue ∧ ∀ x ∈ s.runner.threads, holdsClosure c x = false

/-- A closure gets to its `TrySetRunning` while another one is before its `ResetToScheduled`. -/
def Overlaps (c : Handle) (s : State) (a : Act) : Prop :=
  ∃ w, a = .closure w ∧ s.runner.threads[w]? = some (.running (.invoke c) .trySetRunning) ∧
    s.words c = .running

theorem LifeStep.record_mono (h : LifeStep c m l l') (e : Event) : l.record e ≤ l'.record e := by
  cases h <;> simp [bump]

theorem Quiet.pool_zero (hq : Quiet c s) : pool c s.runner .queued = 0 ∧
    pool c s.runner .taken = 0 ∧ pool c s.runner .executing = 0 := by
  have ht : ∀ x ∈ s.runner.threads, workerStage c x = none := fun x hx => by
    have := hq.2 x hx
    unfold holdsClosure at this
    unfold workerStage
    split at this <;> split <;> simp_all
  have hk (k : PoolStage) : tally (workerStage c) s.runner.threads k = 0 :=
    tally_eq_zero fun x hx => by simp [ht x hx]
  refine ⟨?_,?_,?_⟩
  · have h1 : tally (addTaskStage c) s.runner.calls .queued = 0 := tally_eq_zero fun x _ he => by
      unfold addTaskStage at he
      split at he <;> simp at he
    have h2 : tally (queueStage c) s.runner.taskQueue .queued = 0 := tally_eq_zero fun x hx he => by
      cases x with
      | external n => simp [queueStage] at he
      | invoke d =>
        obtain rfl : d = c := by simpa [queueStage] using he
        exact hq.1 hx
    simp [pool,h1,h2,hk]
  · rw [pool_worker c _ (by decide) (by decide),hk]
  · rw [pool_worker c _ (by decide) (by decide),hk]

/-- An overlap is counted as a refused invocation. -/
theorem Overlaps.refused (ho : Overlaps c s a) (h : step H s a = some s') :
    (s'.life c).record .refused = (s.life c).record .refused+1 := by
  obtain ⟨w,rfl,hw,hr⟩ := ho
  cases step_cases h with
  | @started _ d hw' hd =>
    obtain ⟨rfl⟩ : c = d := by
      have := hw.symm.trans hw'
      simpa using this
    cases hr.symm.trans hd
  | @refused _ d hw' hd =>
    obtain ⟨rfl⟩ : c = d := by
      have := hw.symm.trans hw'
      simpa using this
    rw [life_record (by decide)]
    simp [bump,State.life,State.setFrame]
  | completed hw' | finish hw' | external hw' => cases hw.symm.trans hw'

/-- A run without refused invocations has no overlaps. -/
theorem run_no_overlaps {workers outside : ℕ} {steps : List (State × Act)}
    (hr : Run (step H) (init workers outside) steps s)
    (h0 : (s.life c).record .refused = 0) : ∀ p ∈ steps, ¬Overlaps c p.1 p.2 := by
  induction hr with
  | refl => simp
  | @next steps t a t' before hs ih =>
    have hle : (t.life c).record .refused ≤ (t'.life c).record .refused := by
      cases step_simulates (run_inv before c).1 hs c with
      | stutter he => exact he ▸ le_rfl
      | plain h => exact h.record_mono _
      | refusal _ _ h => exact h.record_mono _
      | lostCancel _ _ h => exact h.record_mono _
    intro p hp ho
    rcases List.mem_append.mp hp with hp | hp
    · exact ih (by omega) p hp ho
    · obtain rfl : p = (t,a) := by simpa using hp
      have := ho.refused hs
      omega

theorem LifeStep.refused_eq (h : LifeStep c m l l') (hm : m ≠ .refusal) :
    l'.record .refused = l.record .refused := by
  cases h with
  | refuse => exact absurd rfl hm
  | _ => rfl

/-- An invocation that is refused without an overlap was cancelled. -/
theorem LifeStep.refused_cancelled (h : LifeStep c .refusal l l') (hw : l.word ≠ .completed)
    (hr : l.word ≠ .running) : l'.word = .cancelled := by
  cases h with
  | refuse hs => cases hv : l.word <;> simp_all

/-- Without overlaps only a cancelled task has its invocations refused. -/
theorem run_refused {workers outside n : ℕ} {steps : List (State × Act)}
    (hr : Run (step H) (init workers outside) steps s)
    (ho : ∀ p ∈ steps, ¬Overlaps (.repeating n) p.1 p.2)
    (h0 : 0 < (s.life (.repeating n)).record .refused) : s.words (.repeating n) = .cancelled := by
  refine (hr.invariant_of
    (I:=fun t => t.TimerSubmits ∧ (t.life (.repeating n)).Inv ∧
      (t.life (.repeating n)).word ≠ .completed ∧
      (0 < (t.life (.repeating n)).record .refused → (t.life (.repeating n)).word = .cancelled))
    (C:=fun t a => ¬Overlaps (.repeating n) t a)
    ⟨init_timerSubmits _ _,init_inv _ _ _,by simp [init_life],by simp [init_life]⟩
    (fun t a t' ⟨ht,hi,hw,hd⟩ hc hs => ⟨step_timerSubmits ht hs,?_⟩) ho).2.2.2 h0
  have keep {m : Mark} (hm : m ≠ .refusal)
      (h : LifeStep (.repeating n) m (t.life (.repeating n)) (t'.life (.repeating n)))
      (h' : 0 < (t'.life (.repeating n)).record .refused) :
      (t'.life (.repeating n)).word = .cancelled :=
    (hi.seen.cancelled_step (hd (h.refused_eq hm ▸ h')) h).1
  cases step_simulates ht hs (.repeating n) with
  | stutter he => exact he ▸ ⟨hi,hw,hd⟩
  | plain h => exact ⟨hi.step h,h.word_ne_completed rfl hw,keep (by simp) h⟩
  | lostCancel _ _ h => exact ⟨hi.step h,h.word_ne_completed rfl hw,keep (by simp) h⟩
  | refusal ha hv h =>
    exact ⟨hi.step h,h.word_ne_completed rfl hw,
      fun _ => h.refused_cancelled hw fun hr => hc ⟨_,ha,hv,hr⟩⟩

/-- For a repeating task that is not cancelled, in a state in which the pool neither queues nor
executes a closure of it, the completed executions are as many as the dispatched periods
exactly when no closure of it met another one in the run. -/
theorem completed_eq_dispatched_iff (H : Algorithms ScheduledItem.nextFireTime)
    (workers outside n : ℕ) (e : Execution (step H) (init workers outside))
    (hw : e.final.words (.repeating n) ≠ .cancelled) (hq : Quiet (.repeating n) e.final) :
    e.final.history.count (.completed,.repeating n) =
        e.final.runner.pushed.count (.invoke (.repeating n)) ↔
      ∀ p ∈ e.steps, ¬Overlaps (.repeating n) p.1 p.2 := by
  have ha := (run_inv e.run (.repeating n)).2.accounted
  obtain ⟨h1,h2,h3⟩ := hq.pool_zero
  have hc : e.final.runner.pushed.count (.invoke (.repeating n)) =
      e.final.history.count (.completed,.repeating n) +
        e.final.history.count (.refused,.repeating n) := by
    have hh := ha.queue
    rw [ha.started] at hh
    simp only [State.life,h1,h2,h3,zero_add] at hh
    exact hh
  constructor
  · intro he
    exact run_no_overlaps e.run (by
      change e.final.history.count (.refused,.repeating n) = 0
      omega)
  · intro ho
    have hz : e.final.history.count (.refused,.repeating n) = 0 := by
      by_contra h
      exact hw (run_refused e.run ho (Nat.pos_of_ne_zero h))
    omega

/-- One worker: the single dispatched period is executed. -/
def oneCycle : Execution (step (insertionAlgorithms ScheduledItem.nextFireTime)) (init 1 1) :=
  .ofLabels [.schedule 2 (.repeating 0 10 .queue),.call 2,.call 2,.call 2,.call 2,
    .timer,.timer,.timer,.timer,.timerWake,.timer,.timer,.timer,.timer,.timer,.timer,.timer,
    .runner (.call 1 none),.runner (.call 1 none),.runner (.call 1 none),.runner (.call 1 none),
    .runner (.worker 0),.runner (.worker 0),.runner (.worker 0),.runner (.worker 0),.closure 0,
    .closure 0,.closure 0,.runner (.returned 0)] (by decide)

theorem oneCycle_no_overlap : oneCycle.final.words (.repeating 0) ≠ .cancelled ∧
    Quiet (.repeating 0) oneCycle.final ∧
    ∀ p ∈ oneCycle.steps, ¬Overlaps (.repeating 0) p.1 p.2 := by
  have hq : Quiet (.repeating 0) oneCycle.final := ⟨by decide,by decide⟩
  have hw : oneCycle.final.words (.repeating 0) ≠ .cancelled := by decide
  exact ⟨hw,hq,(completed_eq_dispatched_iff _ 1 1 0 oneCycle hw hq).mp (by decide)⟩

/-- Two workers: the closure of the second period starts while the first one is running, and
returns without executing the task. -/
def lostCycle : Execution (step (insertionAlgorithms ScheduledItem.nextFireTime)) (init 2 1) :=
  .ofLabels [.schedule 3 (.repeating 0 10 .queue),.call 3,.call 3,.call 3,.call 3,
    .timer,.timer,.timer,.timer,.timerWake,.timer,.timer,.timer,.timer,.timer,.timer,.timer,
    .runner (.call 2 none),.runner (.call 2 none),.runner (.call 2 none),.runner (.call 2 none),
    .timer,.timer,.timer,.timer,.timer,.tick 10,.timerWake,.timer,.timer,.timer,.timer,.timer,
    .timer,.timer,
    .runner (.call 2 none),.runner (.call 2 none),.runner (.call 2 none),.runner (.call 2 none),
    .runner (.worker 0),.runner (.worker 0),.runner (.worker 0),.runner (.worker 0),.closure 0,
    .runner (.worker 1),.runner (.worker 1),.runner (.worker 1),.runner (.worker 1),.closure 1,
    .closure 0,.closure 0,.runner (.returned 0),.runner (.returned 1)] (by decide)

theorem lostCycle_not_completed : lostCycle.final.words (.repeating 0) ≠ .cancelled ∧
    Quiet (.repeating 0) lostCycle.final ∧
    lostCycle.final.history.count (.completed,.repeating 0) = 1 ∧
    lostCycle.final.runner.pushed.count (.invoke (.repeating 0)) = 2 :=
  ⟨by decide,⟨by decide,by decide⟩,by decide,by decide⟩

end Blush.TaskScheduler
