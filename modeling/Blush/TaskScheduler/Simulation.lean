import Blush.Lib.Transition
import Blush.TaskScheduler.Step
import Blush.TaskScheduler.LifeCycle

/-! Every step of the scheduler is, for each task, a step of its life or none at all. -/
namespace Blush.TaskScheduler
open Function Heap Slots Transition
variable {H : Algorithms ScheduledItem.nextFireTime} {s s' : State} {a : Act} {c d : Handle}

def Call.stage (c : Handle) : Call → Option CallStage
  | .pushLock item | .push item => if item.cancellable = c then some .pushing else none
  | .pushUnlock d | .pushNotify d => if d = c then some .announcing else none
  | .cancelScheduled d => if d = c then some .cancelling else none
  | .cancelRunning d => if d = c then some .recancelling else none
  | _ => none

def addTaskStage (c : Handle) : TaskRunner.Call Closure → Option PoolStage
  | .addTaskLock (.invoke d) | .addTaskPush (.invoke d) => if d = c then some .handing else none
  | _ => none

def queueStage (c : Handle) : Closure → Option PoolStage
  | .invoke d => if d = c then some .queued else none
  | .external _ => none

def workerStage (c : Handle) : TaskRunner.Worker Closure Frame → Option PoolStage
  | .unlock (.invoke d) | .running (.invoke d) .trySetRunning =>
    if d = c then some .taken else none
  | .running (.invoke d) .task => if d = c then some .executing else none
  | .running (.invoke d) .finish => if d = c then some .leaving else none
  | _ => none

/-- The closures of a task that the pool has not seen the end of. -/
def pool (c : Handle) (r : TaskRunner.State Closure Frame) : PoolStage → ℕ :=
  tally (addTaskStage c) r.calls + tally (queueStage c) r.taskQueue +
    tally (workerStage c) r.threads

def Timer.hand (c : Handle) : Timer → Option Hand
  | .popped _ item => if item.cancellable = c then some .popped else none
  | .overlap _ item => if item.cancellable = c then some .overlap else none
  | .slide _ item => if item.cancellable = c then some .slide else none
  | .reinsert _ item => if item.cancellable = c then some .reinsert else none
  | .dispatch _ item => if item.cancellable = c then some .dispatch else none
  | .adding _ item => if item.cancellable = c then some .adding else none
  | _ => none

/-- The life of a task, counted off the state. -/
def State.life (s : State) (c : Handle) : Life where
  born := c.number < s.allocated
  published := c ∈ s.handles
  alive := !s.destroyed
  word := s.words c
  calls := tally (Call.stage c) s.calls
  heap := s.heap.items.countP (·.cancellable = c)
  hand := s.timer.hand c
  pool := pool c s.runner
  handed := s.runner.pushed.count (.invoke c)
  record e := s.history.count (e,c)
  late := [(.cancelReturned,c),(.started,c)].Sublist s.history

/-- What a step of the system is in the life of the task `c`. -/
inductive Simulates (c : Handle) (s : State) (a : Act) (l : Life) : Prop
  | stutter (h : l = s.life c)
  | plain (h : LifeStep c .plain (s.life c) l)
  | refusal {w} (ha : a = .closure w)
      (hw : s.runner.threads[w]? = some (.running (.invoke c) .trySetRunning))
      (h : LifeStep c .refusal (s.life c) l)
  | lostCancel {t} (ha : a = .call t) (hc : s.calls[t]? = some (.cancelRunning c))
      (h : LifeStep c .lostCancel (s.life c) l)

/-! ## What the parts of a step change -/

theorem pair_sublist_concat {α : Type*} {a b x : α} {l : List α} :
    [a,b].Sublist (l ++ [x]) ↔ [a,b].Sublist l ∨ (a ∈ l ∧ b = x) := by
  constructor
  · intro h
    obtain ⟨l₁,l₂,he,h₁,h₂⟩ := List.sublist_append_iff.mp h
    cases l₂ with
    | nil => exact .inl (by simpa [he] using h₁)
    | cons y ys =>
      obtain ⟨rfl,rfl⟩ : y = x ∧ ys = [] := by
        have := h₂.length_le
        obtain rfl : ys = [] := List.length_eq_zero_iff.mp (by simpa using this)
        exact ⟨by simpa using h₂,rfl⟩
      obtain ⟨rfl,rfl⟩ : l₁ = [a] ∧ b = y := by
        have : l₁ ++ [y] = [a] ++ [b] := he.symm
        obtain ⟨h1,h2⟩ := List.append_inj' this rfl
        exact ⟨h1,by simpa using h2.symm⟩
      exact .inr ⟨by simpa using h₁,rfl⟩
  · rintro (h | ⟨h,rfl⟩)
    · exact h.trans (List.sublist_append_left _ _)
    · exact (List.singleton_sublist.mpr h).append (List.Sublist.refl [b])

theorem life_record_ne {e : Event} (h : d ≠ c) : (s.record e d).life c = s.life c := by
  have hr : ∀ e' : Event, (s.history ++ [(e,d)]).count (e',c) = s.history.count (e',c) :=
    fun e' => by simp [List.count_append,h]
  have hl : [(Event.cancelReturned,c),(.started,c)].Sublist (s.history ++ [(e,d)]) ↔
      [(Event.cancelReturned,c),(.started,c)].Sublist s.history := by
    rw [pair_sublist_concat]
    simp [Ne.symm h]
  simp only [State.life,State.record,hr,hl]

theorem record_count {e : Event} : (fun e' : Event => (s.history ++ [(e,c)]).count (e',c)) =
    bump e (s.life c).record := by
  funext e'
  by_cases h : e = e' <;> simp [List.count_append,bump,State.life,h]

theorem life_record {e : Event} (he : e ≠ .started) :
    (s.record e c).life c = { s.life c with record := bump e (s.life c).record } := by
  have hl : [(Event.cancelReturned,c),(.started,c)].Sublist (s.history ++ [(e,c)]) ↔
      [(Event.cancelReturned,c),(.started,c)].Sublist s.history := by
    rw [pair_sublist_concat]
    simp [Ne.symm he]
  simp only [← record_count]
  simp only [State.life,State.record,hl]

theorem life_record_started : (s.record .started c).life c =
    { s.life c with
      record := bump .started (s.life c).record
      late := (s.life c).late ∨ 0 < (s.life c).record .cancelReturned } := by
  have hl : [(Event.cancelReturned,c),(.started,c)].Sublist (s.history ++ [(.started,c)]) ↔
      [(Event.cancelReturned,c),(.started,c)].Sublist s.history ∨
        0 < s.history.count (.cancelReturned,c) := by
    rw [pair_sublist_concat]
    simp [List.count_pos_iff]
  simp only [← record_count]
  simp only [State.life,State.record,hl]

theorem life_setWord {v : ScheduleStatus} :
    (s.setWord c v).life c = { s.life c with word := v } := by
  simp [State.life,State.setWord]

theorem life_setWord_ne {v : ScheduleStatus} (h : d ≠ c) : (s.setWord d v).life c = s.life c := by
  simp [State.life,State.setWord,Ne.symm h]

theorem pool_setCall {r : TaskRunner.State Closure Frame} {t : ℕ} {x y : TaskRunner.Call Closure}
    (h : r.calls[t]? = some x) :
    Moves (pool c r) (pool c (r.setCall t y)) (addTaskStage c x) (addTaskStage c y) :=
  ((tally_set _ h).add_right _).add_right _

theorem pool_setWorker {r : TaskRunner.State Closure Frame} {w : ℕ}
    {x y : TaskRunner.Worker Closure Frame} (h : r.threads[w]? = some x) :
    Moves (pool c r) (pool c (r.setWorker w y)) (workerStage c x) (workerStage c y) :=
  (tally_set _ h).add_left _

theorem life_setFrame {w : ℕ} {closure : Closure} {f : Frame} :
    (s.setFrame w closure f).life c =
      { s.life c with pool := pool c (s.runner.setWorker w (.running closure f)) } := rfl

theorem life_setCall {t : ℕ} {x : Call} :
    (s.setCall t x).life c = { s.life c with calls := tally (Call.stage c) (s.calls.set t x) } :=
  rfl

theorem pool_setCall_same {r : TaskRunner.State Closure Frame} {t : ℕ}
    {x y : TaskRunner.Call Closure} (h : r.calls[t]? = some x)
    (hy : addTaskStage c y = addTaskStage c x) : pool c (r.setCall t y) = pool c r :=
  Moves.eq (x:=addTaskStage c x) (by simpa only [hy] using pool_setCall (c:=c) (y:=y) h)

theorem pool_setWorker_same {r : TaskRunner.State Closure Frame} {w : ℕ}
    {x y : TaskRunner.Worker Closure Frame} (h : r.threads[w]? = some x)
    (hy : workerStage c y = workerStage c x) : pool c (r.setWorker w y) = pool c r :=
  Moves.eq (x:=workerStage c x) (by simpa only [hy] using pool_setWorker (c:=c) (y:=y) h)

theorem life_runner {r : TaskRunner.State Closure Frame} : { s with runner := r }.life c =
    { s.life c with pool := pool c r, handed := r.pushed.count (.invoke c) } := rfl

/-- A step of the pool that neither takes up nor puts down a closure of the task. -/
theorem Simulates.pool {r : TaskRunner.State Closure Frame}
    (hp : pool c r = TaskScheduler.pool c s.runner)
    (hn : r.pushed.count (.invoke c) = s.runner.pushed.count (.invoke c)) :
    Simulates c s a ({ s with runner := r }.life c) := .stutter (by
  rw [life_runner,hp,hn]
  rfl)

/-- A step of the pool moves a closure on, or does not concern the task. -/
theorem runner_simulates {a : TaskRunner.Act Closure Frame} {r : TaskRunner.State Closure Frame}
    (ha : s.mayRun a = true) (hr : TaskRunner.Step Closure.enter s.runner a r) :
    Simulates c s (.runner a) ({ s with runner := r }.life c) := by
  cases hr with
  | @addTask t task hc =>
    cases task with
    | external n => exact .pool (pool_setCall_same (y:=.addTaskLock (.external n)) hc rfl) rfl
    | invoke d => simp [State.mayRun,Closure.isExternal] at ha
  | destroy hc => exact .pool (pool_setCall_same (y:=.stopLock) hc rfl) rfl
  | @addTaskLock t _ task hc =>
    have he : addTaskStage c (.addTaskPush task) = addTaskStage c (.addTaskLock task) := by
      cases task <;> rfl
    exact .pool (pool_setCall_same hc he) rfl
  | @addTaskPush t _ task hc =>
    have hk : Moves (tally (addTaskStage c) s.runner.calls)
        (tally (addTaskStage c) (s.runner.calls.set t .addTaskUnlock))
        (addTaskStage c (.addTaskPush task)) none := tally_set _ hc
    have hm := (hk.add (tally_concat (queueStage c) s.runner.taskQueue task)).add_right
      (tally (workerStage c) s.runner.threads)
    by_cases hd : task = .invoke c
    · subst hd
      simp only [addTaskStage,queueStage,if_true] at hm
      have hn : (s.runner.pushed ++ [Closure.invoke c]).count (.invoke c) =
          s.runner.pushed.count (.invoke c)+1 := by simp
      rw [life_runner,hn]
      exact .plain (.enqueue hm)
    · have hs : addTaskStage c (.addTaskPush task) = none ∧ queueStage c task = none := by
        cases task <;> simp_all [addTaskStage,queueStage]
      rw [hs.1,hs.2] at hm
      exact .pool hm.eq (by simp [List.count_append,hd])
  | addTaskUnlock hc => exact .pool (pool_setCall_same (y:=.addTaskNotify) hc rfl) rfl
  | @notifyWaiter t w hc hw =>
    have hp : pool c (s.runner.setWorker w .lock) = pool c s.runner := pool_setWorker_same hw rfl
    have hc' : (s.runner.setWorker w .lock).calls[t]? = some .addTaskNotify := hc
    exact .pool ((pool_setCall_same (y:=.idle) hc' rfl).trans hp) rfl
  | notifyNobody hc => exact .pool (pool_setCall_same (y:=.idle) hc rfl) rfl
  | stopLock hc => exact .pool (pool_setCall_same (y:=.stopStore) hc rfl) rfl
  | stopStore hc => exact .pool (pool_setCall_same (y:=.stopUnlock) hc rfl) rfl
  | stopUnlock hc => exact .pool (pool_setCall_same (y:=.stopNotify) hc rfl) rfl
  | @stopNotify t _ hc =>
    have ht : tally (workerStage c) (s.runner.threads.map TaskRunner.Worker.notified) =
        tally (workerStage c) s.runner.threads := by
      funext k
      exact countP_map_same _ fun x => by cases x <;> rfl
    have hp : pool c (s.runner.setCall t .stopJoin) = pool c s.runner :=
      pool_setCall_same hc rfl
    refine .pool (Eq.trans ?_ hp) rfl
    simp only [TaskScheduler.pool,TaskRunner.State.setCall,ht]
  | stopJoin hc => exact .pool (pool_setCall_same (y:=.idle) hc rfl) rfl
  | lock hw => exact .pool (pool_setWorker_same (y:=.wait) hw rfl) rfl
  | awake hw => exact .pool (pool_setWorker_same (y:=.front) hw rfl) rfl
  | block hw => exact .pool (pool_setWorker_same (y:=.blocked) hw rfl) rfl
  | exit hw => exact .pool (pool_setWorker_same (y:=.exited) hw rfl) rfl
  | @dequeue w task rest hw hq =>
    have hk : Moves (tally (workerStage c) s.runner.threads)
        (tally (workerStage c) (s.runner.threads.set w (.unlock task))) none
        (workerStage c (.unlock task)) := tally_set _ hw
    have hl : Moves (tally (queueStage c) s.runner.taskQueue) (tally (queueStage c) rest)
        (queueStage c task) none := hq ▸ tally_tail _ _ _
    have hm := (hl.add hk).add_left (tally (addTaskStage c) s.runner.calls)
    rw [← add_assoc,← add_assoc] at hm
    by_cases hd : task = .invoke c
    · subst hd
      simp only [workerStage,queueStage,if_true] at hm
      exact .plain (.dequeue hm)
    · have hs : workerStage c (.unlock task) = none ∧ queueStage c task = none := by
        cases task <;> simp_all [workerStage,queueStage]
      rw [hs.1,hs.2] at hm
      exact .pool hm.eq rfl
  | @unlock w task hw =>
    have he : workerStage c (.running task task.enter) = workerStage c (.unlock task) := by
      cases task <;> rfl
    exact .pool (pool_setWorker_same hw he) rfl
  | spurious hw => exact .pool (pool_setWorker_same (y:=.lock) hw rfl) rfl
  | frame => cases ha
  | @returned w task f hw hc =>
    obtain rfl : f = .done := by
      simp only [State.mayRun,hw] at ha
      cases f <;> simp_all
    have he : workerStage c .lock = workerStage c (.running task .done) := by cases task <;> rfl
    exact .pool (pool_setWorker_same hw he) rfl

/-! ## The simulation -/

/-- Only the timer thread hands closures of scheduled tasks to the pool. -/
def State.TimerSubmits (s : State) : Prop :=
  ∀ t x c, s.runner.calls[t]? = some x → addTaskStage c x ≠ none → t = s.timerThread

/-- Between two calls of `AddTask` the timer thread has no closure on its way to the pool. -/
theorem State.TimerSubmits.handing_zero (hs : s.TimerSubmits)
    (hc : s.runner.calls[s.timerThread]? = some .idle) (c : Handle) :
    pool c s.runner .handing = 0 := by
  have h1 : tally (addTaskStage c) s.runner.calls .handing = 0 := tally_eq_zero fun x hx he => by
    obtain ⟨t,ht⟩ := List.mem_iff_getElem?.mp hx
    obtain rfl := hs t x c ht (by simp [he])
    obtain rfl : x = .idle := Option.some.inj (ht.symm.trans hc)
    simp [addTaskStage] at he
  have h2 : tally (queueStage c) s.runner.taskQueue .handing = 0 := tally_eq_zero fun x _ he => by
    cases x <;> simp [queueStage] at he
  have h3 : tally (workerStage c) s.runner.threads .handing = 0 := tally_eq_zero fun x _ he => by
    unfold workerStage at he
    split at he <;> simp at he
  simp [pool,h1,h2,h3]

theorem tally_calls_same {t : ℕ} {x y : Call} (h : s.calls[t]? = some x)
    (hy : y.stage c = x.stage c) :
    tally (Call.stage c) (s.calls.set t y) = tally (Call.stage c) s.calls :=
  Moves.eq (x:=x.stage c) (by simpa only [hy] using tally_set (Call.stage c) (b:=y) h)

theorem life_setCall_same {t : ℕ} {x y : Call} (h : s.calls[t]? = some x)
    (hy : y.stage c = x.stage c) : (s.setCall t y).life c = s.life c := by
  rw [life_setCall,tally_calls_same h hy]
  rfl

@[simp] theorem hand_notified (x : Timer) : x.notified.hand c = x.hand c := by cases x <;> rfl

theorem number_item (now : TimePoint) (n : ℕ) (request : Request) :
    (request.item now n).cancellable.number = n := by cases request <;> rfl

theorem life_setFrame_same {w : ℕ} {x : TaskRunner.Worker Closure Frame} {closure : Closure}
    {f : Frame} (h : s.runner.threads[w]? = some x)
    (hf : workerStage c (.running closure f) = workerStage c x) :
    (s.setFrame w closure f).life c = s.life c := by
  rw [life_setFrame,pool_setWorker_same h hf]
  rfl

theorem closure_simulates {w : ℕ} (h : Step H s (.closure w) s') :
    Simulates c s (.closure w) (s'.life c) := by
  cases h with
  | @started _ d hw hd =>
    by_cases he : d = c
    · subst he
      have hm := pool_setWorker (c:=d) (y:=.running (.invoke d) .task) hw
      simp only [workerStage,if_true] at hm
      rw [life_record_started,life_setFrame,life_setWord]
      exact .plain (.start hd hm)
    · have hf : workerStage c (.running (.invoke d) .task) =
          workerStage c (.running (.invoke d) .trySetRunning) := by simp [workerStage,he]
      rw [life_record_ne he,life_setFrame_same (s:=s.setWord d .running) hw hf,life_setWord_ne he]
      exact .stutter rfl
  | @refused _ d hw hd =>
    by_cases he : d = c
    · subst he
      have hm := pool_setWorker (c:=d) (y:=.running (.invoke d) .done) hw
      simp only [workerStage,if_true] at hm
      rw [life_record (by decide),life_setFrame]
      exact .refusal rfl hw (.refuse hd hm)
    · have hf : workerStage c (.running (.invoke d) .done) =
          workerStage c (.running (.invoke d) .trySetRunning) := by simp [workerStage,he]
      rw [life_record_ne he,life_setFrame_same hw hf]
      exact .stutter rfl
  | @completed _ d hw hb =>
    by_cases he : d = c
    · subst he
      have hm := pool_setWorker (c:=d) (y:=.running (.invoke d) .finish) hw
      simp only [workerStage,if_true] at hm
      rw [life_record (by decide),life_setFrame]
      exact .plain (.complete hm)
    · have hf : workerStage c (.running (.invoke d) .finish) =
          workerStage c (.running (.invoke d) .task) := by simp [workerStage,he]
      rw [life_record_ne he,life_setFrame_same hw hf]
      exact .stutter rfl
  | @finish _ d hw =>
    by_cases he : d = c
    · subst he
      have hm := pool_setWorker (c:=d) (y:=.running (.invoke d) .done) hw
      simp only [workerStage,if_true] at hm
      rw [life_setFrame,life_setWord]
      exact .plain (.finish hm)
    · have hf : workerStage c (.running (.invoke d) .done) =
          workerStage c (.running (.invoke d) .finish) := by simp [workerStage,he]
      rw [life_setFrame_same (s:=s.setWord d _) hw hf,life_setWord_ne he]
      exact .stutter rfl
  | external hw => exact .stutter (life_setFrame_same hw rfl)

theorem life_timer {x : Timer} : { s with timer := x }.life c =
    { s.life c with hand := x.hand c } := rfl

theorem heap_push (item : ScheduledItem) : (s.heap.push H item).items.countP (·.cancellable = c) =
    s.heap.items.countP (·.cancellable = c) + if item.cancellable = c then 1 else 0 := by
  rw [MinHeap.countP_push]
  by_cases h : item.cancellable = c <;> simp [h]

theorem life_heap {h : MinHeap ScheduledItem.nextFireTime} : { s with heap := h }.life c =
    { s.life c with heap := h.items.countP (·.cancellable = c) } := rfl

/-- A notification moves the timer on without touching what it holds. -/
theorem life_notified : { s with timer := s.timer.notified }.life c = s.life c := by
  rw [life_timer,hand_notified]
  rfl

theorem call_simulates {t : ℕ} (h : Step H s (.call t) s') :
    Simulates c s (.call t) (s'.life c) := by
  cases h with
  | @cancelScheduled _ d hc hw =>
    by_cases he : d = c
    · subst he
      have hm := tally_set (Call.stage d) (b:=.idle) hc
      simp only [Call.stage,if_true] at hm
      rw [life_record (by decide),life_setCall,life_setWord]
      exact .plain (.cancelScheduled hw hm)
    · have hs : Call.stage c .idle = Call.stage c (.cancelScheduled d) := by simp [Call.stage,he]
      rw [life_record_ne he,life_setCall_same (s:=s.setWord d _) hc hs,life_setWord_ne he]
      exact .stutter rfl
  | @cancelFailed _ d hc hw =>
    by_cases he : d = c
    · subst he
      have hm := tally_set (Call.stage d) (b:=.cancelRunning d) hc
      simp only [Call.stage,if_true] at hm
      exact .plain (.cancelFailed hw hm)
    · exact .stutter (life_setCall_same hc (by simp [Call.stage,he]))
  | @cancelRunning _ d hc =>
    by_cases he : d = c
    · subst he
      have hm := tally_set (Call.stage d) (b:=.idle) hc
      simp only [Call.stage,if_true] at hm
      rw [life_record (by decide),life_setCall,life_setWord]
      by_cases hw : s.words d = .scheduled
      · have hv : (s.words d).cancelRunning.2 = (s.life d).word := by rw [hw]; exact hw.symm
        rw [hv]
        exact .lostCancel rfl hc (.cancelLost hw hm)
      · exact .plain (.cancelRunning hw hm)
    · have hs : Call.stage c .idle = Call.stage c (.cancelRunning d) := by simp [Call.stage,he]
      rw [life_record_ne he,life_setCall_same (s:=s.setWord d _) hc hs,life_setWord_ne he]
      exact .stutter rfl
  | @pushLock _ item hc => exact .stutter (life_setCall_same (y:=.push item) hc rfl)
  | @push _ item hc =>
    by_cases he : item.cancellable = c
    · subst he
      have hm := tally_set (Call.stage item.cancellable) (b:=.pushUnlock item.cancellable) hc
      simp only [Call.stage,if_true] at hm
      rw [life_record (by decide),life_heap (s:=s.setCall _ _),heap_push,if_pos rfl]
      exact .plain (.push hm)
    · have hs : Call.stage c (.pushUnlock item.cancellable) = Call.stage c (.push item) := by
        simp [Call.stage,he]
      rw [life_record_ne he,life_heap (s:=s.setCall _ _),heap_push,if_neg he,
        life_setCall_same hc hs]
      exact .stutter rfl
  | pushUnlock hc => exact .stutter (life_setCall_same (y:=.pushNotify _) hc rfl)
  | @pushNotify _ d hc =>
    have hn : ({ s.setCall t .idle with timer := s.timer.notified, handles := d::s.handles }
        : State).life c =
        { (s.setCall t .idle).life c with published := c = d ∨ c ∈ s.handles } := by
      simp only [State.life,hand_notified,List.mem_cons]
      rfl
    rw [hn]
    by_cases he : d = c
    · subst he
      have hm := tally_set (Call.stage d) (b:=.idle) hc
      simp only [Call.stage,if_true] at hm
      simp only [true_or]
      exact .plain (.announce hm)
    · have hs : Call.stage c .idle = Call.stage c (.pushNotify d) := by simp [Call.stage,he]
      simp only [Ne.symm he,false_or,life_setCall_same hc hs]
      exact .stutter rfl
  | stopLock hc => exact .stutter (life_setCall_same (y:=.stopStore) hc rfl)
  | stopStore hc => exact .stutter (life_setCall_same (y:=.stopUnlock) hc rfl)
  | stopUnlock hc => exact .stutter (life_setCall_same (y:=.stopNotify) hc rfl)
  | stopNotify hc =>
    exact .stutter ((life_notified (s:=s.setCall t .stopJoin)).trans (life_setCall_same hc rfl))
  | @stopJoin _ hc =>
    have hf : ({ s.setCall t .idle with
        destroyed := true
        heap := MinHeap.empty _ } : State).life c =
        { (s.setCall t .idle).life c with alive := false, heap := 0 } := rfl
    rw [hf,life_setCall_same (y:=.idle) hc rfl]
    exact .plain .free

theorem heap_pop {heap : MinHeap ScheduledItem.nextFireTime} {item : ScheduledItem}
    (h : s.heap.pop H = some (item,heap)) : s.heap.items.countP (·.cancellable = c) =
      heap.items.countP (·.cancellable = c) + if item.cancellable = c then 1 else 0 := by
  rw [MinHeap.countP_pop H h]
  by_cases he : item.cancellable = c <;> simp [he]

/-- The timer goes on without taking up or putting down an item of the task. -/
theorem Simulates.timer {x : Timer} (hx : x.hand c = s.timer.hand c) :
    Simulates c s a ({ s with timer := x }.life c) := .stutter (by rw [life_timer,hx]; rfl)

/-- The timer goes on with the item it holds, of whatever task. -/
theorem Simulates.timer_item {x : Timer} {item : ScheduledItem} {g g' : Hand}
    (ht : s.timer.hand c = if item.cancellable = c then some g else none)
    (hx : x.hand c = if item.cancellable = c then some g' else none)
    (h : item.cancellable = c → (s.life c).hand = some g →
      LifeStep c .plain (s.life c) { s.life c with hand := some g' }) :
    Simulates c s a ({ s with timer := x }.life c) := by
  by_cases he : item.cancellable = c
  · rw [if_pos he] at ht hx
    rw [life_timer,hx]
    exact .plain (h he ht)
  · rw [if_neg he] at ht hx
    exact .timer (hx.trans ht.symm)

/-- The timer pushes the next recurrence of the item it holds. -/
theorem life_push_next {x : Timer} {item : ScheduledItem} :
    ({ s with timer := x, heap := s.heap.push H item.next } : State).life c = { s.life c with
      hand := x.hand c
      heap := (s.life c).heap + if item.cancellable = c then 1 else 0 } := by
  rw [life_heap (s:={ s with timer := x }),heap_push (s:={ s with timer := x })]
  rfl

theorem timer_simulates (hi : s.TimerSubmits) (h : Step H s .timer s') :
    Simulates c s .timer (s'.life c) := by
  cases h with
  | timerLock ht | timerAwake ht | timerBlock ht | timerGo ht | waitUntil ht | relock ht
  | timerGoUntil ht | now ht | passEnd ht => exact .timer (by rw [ht]; rfl)
  | timerStop ht => exact .timer (by rcases ht with ht | ht <;> rw [ht] <;> rfl)
  | @pop now item heap ht hp hd =>
    have hh : (s.life c).hand = none := congrArg (Timer.hand c) ht
    have hl : ({ s with timer := .popped now item, heap := heap } : State).life c =
        { s.life c with
          heap := heap.items.countP (·.cancellable = c)
          hand := if item.cancellable = c then some .popped else none } := rfl
    have hn := heap_pop (c:=c) hp
    rw [hl]
    by_cases he : item.cancellable = c
    · rw [if_pos he] at hn ⊢
      exact .plain (.pop hh hn)
    · rw [if_neg he] at hn ⊢
      refine .stutter ?_
      rw [← hh,← hn.trans (Nat.add_zero _)]
      rfl
  | @discard now item ht hc =>
    by_cases he : item.cancellable = c
    · subst he
      have hh : (s.life item.cancellable).hand = some .popped := by simp [State.life,ht,Timer.hand]
      rw [life_record (by decide),life_timer]
      exact .plain (.discard hh hc)
    · rw [life_record_ne he]
      exact .timer (by simp [ht,Timer.hand,he])
  | @overlap now item ht hc hr hp =>
    exact .timer_item (g:=.popped) (by rw [ht]; rfl) rfl fun he hh => by
      subst he
      exact .overlap hh hc (item.repeating_eq ▸ hr)
  | @queue now item ht hc hr hp =>
    exact .timer_item (g:=.popped) (by rw [ht]; rfl) rfl fun he hh => by
      subst he
      exact .queue hh hc (item.repeating_eq ▸ hr)
  | @oneShot now item ht hc hr =>
    exact .timer_item (g:=.popped) (by rw [ht]; rfl) rfl fun he hh => by
      subst he
      exact .oneShot hh hc (item.repeating_eq ▸ hr)
  | @skip now item ht hc =>
    exact .timer_item (g:=.overlap) (by rw [ht]; rfl) rfl fun he hh => .skip hh (he ▸ hc)
  | @noOverlap now item ht hc =>
    exact .timer_item (g:=.overlap) (by rw [ht]; rfl) rfl fun he hh => .noOverlap hh (he ▸ hc)
  | @slide now item ht =>
    by_cases he : item.cancellable = c
    · subst he
      have hh : (s.life item.cancellable).hand = some .slide := by simp [State.life,ht,Timer.hand]
      rw [life_record (by decide),life_push_next,if_pos rfl]
      exact .plain (.slide hh)
    · have hh : (s.life c).hand = none := by simp [State.life,ht,Timer.hand,he]
      have hx : (Timer.pass now).hand c = none := rfl
      rw [life_record_ne he,life_push_next,if_neg he,hx,← hh]
      exact .stutter rfl
  | @reinsert now item ht =>
    by_cases he : item.cancellable = c
    · subst he
      have hh : (s.life item.cancellable).hand = some .reinsert := by
        simp [State.life,ht,Timer.hand]
      have hx : (Timer.dispatch now item).hand item.cancellable = some .dispatch := if_pos rfl
      rw [life_record (by decide),life_push_next,if_pos rfl,hx]
      exact .plain (.reinsert hh)
    · have hh : (s.life c).hand = none := by simp [State.life,ht,Timer.hand,he]
      have hx : (Timer.dispatch now item).hand c = none := if_neg he
      rw [life_record_ne he,life_push_next,if_neg he,hx,← hh]
      exact .stutter rfl
  | @dispatch now item ht hc =>
    have hm := pool_setCall (c:=c) (y:=.addTaskLock (.invoke item.cancellable)) hc
    have hl : ({ s with
        runner := s.runner.setCall s.timerThread (.addTaskLock (.invoke item.cancellable))
        timer := .adding now item } : State).life c = { s.life c with
          hand := if item.cancellable = c then some .adding else none
          pool := pool c
            (s.runner.setCall s.timerThread (.addTaskLock (.invoke item.cancellable))) }
        := rfl
    rw [hl]
    by_cases he : item.cancellable = c
    · have hh : (s.life c).hand = some .dispatch := by simp [State.life,ht,Timer.hand,he]
      simp only [addTaskStage,he,if_true] at hm ⊢
      exact .plain (.dispatch hh hm)
    · have hh : (s.life c).hand = none := by simp [State.life,ht,Timer.hand,he]
      simp only [addTaskStage,he,if_false] at hm ⊢
      rw [hm.eq,← hh]
      exact .stutter rfl
  | @added now item ht hc =>
    have hz := hi.handing_zero hc c
    by_cases he : item.cancellable = c
    · have hh : (s.life c).hand = some .adding := by simp [State.life,ht,Timer.hand,he]
      rw [life_timer]
      exact .plain (.added hh hz)
    · exact .timer (by simp [ht,Timer.hand,he])

theorem schedule_simulates {t : ℕ} {request : Request} (ht : s.mayCall t = true)
    (hd : s.destroyed = false) : Simulates c s (.schedule t request)
      (({ s.setCall t (.pushLock (request.item s.clock s.allocated)) with
        allocated := s.allocated+1
        words := update s.words (request.item s.clock s.allocated).cancellable .scheduled }
        : State).life c) := by
  have hn := number_item s.clock s.allocated request
  generalize request.item s.clock s.allocated = item at hn
  have hc := (mayCall_idle ht).1
  have hl : ({ s.setCall t (.pushLock item) with
        allocated := s.allocated+1, words := update s.words item.cancellable .scheduled }
        : State).life c = { s.life c with
          born := c.number < s.allocated+1
          word := update s.words item.cancellable .scheduled c
          calls := tally (Call.stage c) (s.calls.set t (.pushLock item)) } := rfl
  rw [hl]
  by_cases he : item.cancellable = c
  · subst he
    have hm := tally_set (Call.stage item.cancellable) (b:=.pushLock item) hc
    simp only [Call.stage,if_true] at hm
    have hb : (item.cancellable.number < s.allocated+1) = True := by simp [hn]
    rw [update_self,hb]
    exact .plain (.schedule (by simp [State.life,hn]) (by simp [State.life,hd]) hm)
  · rw [tally_calls_same hc (by simp [Call.stage,he]),update_of_ne (Ne.symm he)]
    by_cases hb : c.number = s.allocated
    · have hb' : (c.number < s.allocated+1) = True := by simp [hb]
      rw [hb']
      exact .plain (.forgo (by simp [State.life,hb]))
    · have hb' : (c.number < s.allocated+1) = (c.number < s.allocated) := by
        rw [eq_iff_iff]
        omega
      rw [hb']
      exact .stutter rfl

/-- Every step of the scheduler is a step in the life of each task, or leaves it as it is. -/
theorem step_simulates (hi : s.TimerSubmits) (h : step H s a = some s') (c : Handle) :
    Simulates c s a (s'.life c) := by
  have hs := step_cases h
  cases a with
  | runner a =>
    cases hs with
    | runner ha hr => exact runner_simulates ha hr
  | closure w => exact closure_simulates hs
  | schedule t request =>
    cases hs with
    | schedule ht hd => exact schedule_simulates ht hd
  | cancel t d =>
    cases hs with
    | cancel ht hd =>
      have hc := (mayCall_idle ht).1
      by_cases he : d = c
      · subst he
        have hm := tally_set (Call.stage d) (b:=.cancelScheduled d) hc
        simp only [Call.stage,if_true] at hm
        exact .plain (.cancel hd hm)
      · exact .stutter (life_setCall_same hc (by simp [Call.stage,he]))
  | destroy t =>
    cases hs with
    | destroy ht =>
      exact .stutter (life_setCall_same (y:=.stopLock) (mayCall_idle ht).1 rfl)
  | call t => exact call_simulates hs
  | timer => exact timer_simulates hi hs
  | timerWake =>
    cases hs with
    | wake => exact .stutter life_notified
  | tick d =>
    cases hs
    exact .stutter rfl

/-- A closure of a scheduled task enters `AddTask` only by the call itself. -/
theorem addTask_origin {r r' : TaskRunner.State Closure Frame} {a : TaskRunner.Act Closure Frame}
    (h : TaskRunner.Step Closure.enter r a r') (ha : ∀ t d, a ≠ .addTask t (.invoke d)) {t : ℕ}
    {x : TaskRunner.Call Closure} (hx : r'.calls[t]? = some x) (hs : addTaskStage c x ≠ none) :
    ∃ y, r.calls[t]? = some y ∧ addTaskStage c y ≠ none := by
  have set {u : ℕ} {z : TaskRunner.Call Closure} (hx : (r.calls.set u z)[t]? = some x)
      (hz : addTaskStage c z = none) : ∃ y, r.calls[t]? = some y ∧ addTaskStage c y ≠ none := by
    rcases getElem?_set_cases hx with ⟨rfl,rfl⟩ | ⟨-,hx⟩
    · exact absurd hz hs
    · exact ⟨x,hx,hs⟩
  cases h with
  | @addTask u task hc =>
    cases task with
    | external n => exact set hx rfl
    | invoke d => exact absurd rfl (ha u d)
  | @addTaskLock u _ task hc =>
    rcases getElem?_set_cases hx with ⟨rfl,rfl⟩ | ⟨-,hx⟩
    · exact ⟨_,hc,by cases task <;> exact hs⟩
    · exact ⟨x,hx,hs⟩
  | destroy | addTaskPush | addTaskUnlock | notifyWaiter | notifyNobody | stopLock | stopStore
  | stopUnlock | stopNotify | stopJoin => exact set hx rfl
  | lock | awake | block | exit | dequeue | unlock | spurious | frame | returned =>
    exact ⟨x,hx,hs⟩

theorem step_timerThread (h : step H s a = some s') : s'.timerThread = s.timerThread := by
  have hw (w : ℕ) (x : TaskRunner.Worker Closure Frame) :
      (s.runner.setWorker w x).threads.length = s.runner.threads.length := by
    simp [TaskRunner.State.setWorker]
  cases step_cases h with
  | runner ha hr =>
    cases hr <;> simp [State.timerThread,TaskRunner.State.setCall,TaskRunner.State.setWorker]
  | started | refused | completed | finish | external => exact hw _ _
  | _ => rfl

theorem init_timerSubmits (workers outside : ℕ) : (init workers outside).TimerSubmits := by
  intro t x c hx hs
  obtain rfl := List.eq_of_mem_replicate (List.mem_of_getElem? hx)
  exact absurd rfl hs

theorem step_timerSubmits (hi : s.TimerSubmits) (h : step H s a = some s') : s'.TimerSubmits := by
  intro t x c hx hs
  rw [step_timerThread h]
  cases step_cases h with
  | runner ha hr =>
    obtain ⟨y,hy,hs'⟩ := addTask_origin hr (by
      rintro u d rfl
      simp [State.mayRun,Closure.isExternal] at ha) hx hs
    exact hi t y c hy hs'
  | dispatch ht hc =>
    rcases getElem?_set_cases hx with ⟨rfl,-⟩ | ⟨-,hx⟩
    · rfl
    · exact hi t x c hx hs
  | _ => exact hi t x c hx hs

/-! ## Runs -/

theorem init_life (workers outside : ℕ) (c : Handle) : (init workers outside).life c =
    { born := False, published := False, alive := true, word := .scheduled, calls := fun _ => 0
      heap := 0, hand := none, pool := fun _ => 0, handed := 0, record := fun _ => 0
      late := False } := by
  have h1 (n : ℕ) (k : CallStage) : tally (Call.stage c) (List.replicate n .idle) k = 0 :=
    tally_eq_zero fun x hx he => by
      rw [List.eq_of_mem_replicate hx] at he
      cases he
  have h2 (n : ℕ) (k : PoolStage) : tally (addTaskStage c) (List.replicate n .idle) k = 0 :=
    tally_eq_zero fun x hx he => by
      rw [List.eq_of_mem_replicate hx] at he
      cases he
  have h3 (n : ℕ) (k : PoolStage) : tally (workerStage c) (List.replicate n .lock) k = 0 :=
    tally_eq_zero fun x hx he => by
      rw [List.eq_of_mem_replicate hx] at he
      cases he
  have hc : tally (Call.stage c) (init workers outside).calls = fun _ => 0 := funext (h1 _)
  have hp : pool c (init workers outside).runner = fun _ => 0 := by
    funext k
    simp only [pool,init,TaskRunner.init,Pi.add_apply,h2,h3]
    rfl
  simp only [State.life,hc,hp]
  simp [init,TaskRunner.init,Timer.hand]

/-- What holds of the life of a task at the start of a run and is kept by every step of it
holds at the end of the run. -/
theorem run_life {I : Life → Prop} {steps : List (State × Act)} (hr : Run (step H) s steps s')
    (hs : s.TimerSubmits) (h0 : I (s.life c)) (hstep : ∀ m l l', I l → LifeStep c m l l' → I l') :
    s'.TimerSubmits ∧ I (s'.life c) := by
  refine hr.invariant (I:=fun t => t.TimerSubmits ∧ I (t.life c)) ⟨hs,h0⟩ fun t b t' hi hs =>
    ⟨step_timerSubmits hi.1 hs,?_⟩
  cases step_simulates hi.1 hs c with
  | stutter he => exact he ▸ hi.2
  | plain hl => exact hstep _ _ _ hi.2 hl
  | refusal _ _ hl => exact hstep _ _ _ hi.2 hl
  | lostCancel _ _ hl => exact hstep _ _ _ hi.2 hl

/-- The guarantees every task has, of either kind. -/
structure Life.Inv (l : Life) : Prop where
  seen : l.Seen
  accounted : l.Accounted
  exclusive : l.Exclusive

theorem Life.Inv.step {l l' : Life} {m : Mark} (hi : l.Inv) (h : LifeStep c m l l') : l'.Inv :=
  ⟨hi.seen.step h,hi.accounted.step h,hi.exclusive.step hi.accounted hi.seen h⟩

theorem init_inv (workers outside : ℕ) (c : Handle) : ((init workers outside).life c).Inv := by
  rw [init_life]
  constructor <;> constructor <;> simp

theorem run_inv {workers outside : ℕ} {steps : List (State × Act)}
    (hr : Run (step H) (init workers outside) steps s) (c : Handle) :
    s.TimerSubmits ∧ (s.life c).Inv :=
  run_life hr (init_timerSubmits _ _) (init_inv _ _ _) fun _ _ _ => Life.Inv.step

end Blush.TaskScheduler
