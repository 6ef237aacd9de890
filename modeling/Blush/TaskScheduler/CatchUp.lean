import Blush.TaskScheduler.Elapsed
import Blush.TaskScheduler.OneShot
import Blush.TaskScheduler.Repeating
import Blush.TaskScheduler.Shutdown

/-! The scheduler catches up with the clock: as long as nobody calls its destructor it gets to a
state in which all that is due is done, whatever the schedule of its threads is. -/
namespace Blush.TaskScheduler
open Function Heap Slots Transition Progress
variable {H : Algorithms ScheduledItem.nextFireTime} {s s' : State} {a : Act} {t : ℕ}
  {item : ScheduledItem} {now clock horizon : TimePoint} {k : Timer}

/-! ## What holds before the destructor is called -/

def Call.isStop : Call → Bool
  | .stopLock | .stopStore | .stopUnlock | .stopNotify | .stopJoin => true
  | _ => false

def Timer.isAdding : Timer → Bool
  | .adding .. => true
  | _ => false

/-- What is put back into the heap is a repeating item. -/
def Timer.Repeats : Timer → Prop
  | .overlap _ item | .slide _ item | .reinsert _ item => item.repeating = true
  | _ => True

namespace State

/-- Nobody has called the destructor. -/
structure Unstopped (s : State) : Prop where
  destroying : s.destroying = false
  stop : s.stop = false
  destroyed : s.destroyed = false
  timer : s.timer ≠ .exited
  calls : ∀ x ∈ s.calls, x.isStop = false

/-- The timer thread is in a call of the pool only while it hands over a closure. -/
def Ready (s : State) : Prop :=
  ∃ x, s.runner.calls[s.timerThread]? = some x ∧ (x.isIdle = true ∨ s.timer.isAdding = true)

/-- Nothing stops the timer thread, and what it holds is due. -/
structure Working (s : State) : Prop where
  stoppable : s.Stoppable
  unstopped : s.Unstopped
  pool : PoolInv s.runner
  ready : s.Ready
  punctual : s.timer.Punctual s.clock
  repeats : s.timer.Repeats

end State

theorem init_working (workers outside : ℕ) : (init (workers+1) outside).Working where
  stoppable := init_stoppable _ _
  unstopped := ⟨rfl,rfl,rfl,nofun,fun x hx => by rw [List.eq_of_mem_replicate hx]; rfl⟩
  pool := init_poolInv _ _
  ready := ⟨.idle,by simp [init,TaskRunner.init,State.timerThread],.inl rfl⟩
  punctual := trivial
  repeats := trivial

theorem isAdding_notified (k : Timer) : k.notified.isAdding = k.isAdding := by cases k <;> rfl

theorem repeats_notified : k.notified.Repeats ↔ k.Repeats := by cases k <;> rfl

theorem State.Unstopped.no_stop (hi : s.Unstopped) {x : Call} (hc : s.calls[t]? = some x)
    (hx : x.isStop = true) : False := by
  simp [hi.calls x (List.mem_of_getElem? hc)] at hx

theorem step_unstopped (hi : s.Unstopped) (hd : s'.destroying = false)
    (h : step H s a = some s') : s'.Unstopped := by
  have hset {t : ℕ} {y : Call} (hy : y.isStop = false) :
      ∀ x ∈ s.calls.set t y, x.isStop = false := by
    intro x hx
    rcases List.mem_or_eq_of_mem_set hx with hx | rfl
    · exact hi.calls x hx
    · exact hy
  have hnotified : s.timer.notified ≠ .exited := by
    have := hi.timer
    cases hk : s.timer <;> simp_all [Timer.notified]
  cases step_cases h with
  | destroy => cases hd
  | stopLock hc | stopStore hc | stopUnlock hc | stopNotify hc | stopJoin hc =>
    exact (hi.no_stop hc rfl).elim
  | timerStop _ hs => simp [hi.stop] at hs
  | runner | started | refused | completed | finish | external | tick => exact { hi with }
  | schedule | cancel | cancelScheduled | cancelFailed | cancelRunning | pushLock | push
  | pushUnlock => exact { hi with calls := hset rfl }
  | pushNotify => exact { hi with calls := hset rfl, timer := hnotified }
  | wake => exact { hi with timer := hnotified }
  | timerLock | timerAwake | timerBlock | timerGo | waitUntil | relock | timerGoUntil | now | pop
  | passEnd | discard | overlap | queue | oneShot | skip | noOverlap | slide | reinsert | dispatch
  | added => exact { hi with timer := fun h => by cases h }

theorem step_ready (hi : s.Ready) (h : step H s a = some s') : s'.Ready := by
  obtain ⟨x,hx,hi⟩ := hi
  rw [State.Ready,step_timerThread h]
  have hkeep (ha : s.timer.isAdding = false) : ∃ x, s.runner.calls[s.timerThread]? = some x ∧
      (x.isIdle = true ∨ s'.timer.isAdding = true) :=
    ⟨x,hx,.inl (hi.resolve_right (by simp [ha]))⟩
  cases step_cases h with
  | runner hm hr =>
    have hother {u : ℕ} {z : TaskRunner.Call Closure} (hne : u ≠ s.timerThread) :
        (s.runner.calls.set u z)[s.timerThread]? = some x := by
      rw [List.getElem?_set_ne hne]
      exact hx
    -- if the call that goes on is the timer thread's, it is handing over a closure
    have hset {u : ℕ} {c z : TaskRunner.Call Closure} (hc : s.runner.calls[u]? = some c)
        (hn : c.isIdle = false) : ∃ y, (s.runner.calls.set u z)[s.timerThread]? = some y ∧
          (y.isIdle = true ∨ s.timer.isAdding = true) := by
      by_cases hu : u = s.timerThread
      · subst u
        obtain rfl := Option.some.inj (hx.symm.trans hc)
        exact ⟨z,getElem?_set_self hc,.inr (hi.resolve_left (by simp [hn]))⟩
      · exact ⟨x,hother hu,hi⟩
    cases hr with
    | addTask | destroy =>
      exact ⟨x,hother (by rintro rfl; simp [State.mayRun,State.mayCall] at hm),hi⟩
    | addTaskLock hc | addTaskPush hc | addTaskUnlock hc | notifyWaiter hc | notifyNobody hc
    | stopLock hc | stopStore hc | stopUnlock hc | stopNotify hc | stopJoin hc => exact hset hc rfl
    | lock | awake | block | exit | dequeue | unlock | spurious | frame | returned =>
      exact ⟨x,hx,hi⟩
  | pushNotify | stopNotify | wake => exact ⟨x,hx,hi.imp_right (isAdding_notified s.timer).trans⟩
  | dispatch _ hc => exact ⟨_,getElem?_set_self hc,.inr rfl⟩
  | added _ hc => exact ⟨.idle,hc,.inl rfl⟩
  | timerStop ht => exact hkeep (by rcases ht with ht | ht <;> rw [ht] <;> rfl)
  | timerLock ht | timerAwake ht | timerBlock ht | timerGo ht | waitUntil ht | relock ht
  | timerGoUntil ht | now ht | pop ht | passEnd ht | discard ht | overlap ht | queue ht
  | oneShot ht | skip ht | noOverlap ht | slide ht | reinsert ht => exact hkeep (by rw [ht]; rfl)
  | _ => exact ⟨x,hx,hi⟩

theorem step_repeats (hi : s.timer.Repeats) (h : step H s a = some s') : s'.timer.Repeats := by
  cases step_cases h with
  | pushNotify | stopNotify | wake => exact repeats_notified.mpr hi
  | overlap _ _ hr | queue _ _ hr => exact hr
  | skip ht | noOverlap ht =>
    rw [ht] at hi
    exact hi
  | timerLock | timerAwake | timerBlock | timerStop | timerGo | waitUntil | relock | timerGoUntil
  | now | pop | passEnd | discard | oneShot | slide | reinsert | dispatch | added => trivial
  | _ => exact hi

/-- Before the destructor of the scheduler the application cannot call that of the pool. -/
theorem State.Unstopped.pool_destroying (hu : s.Unstopped) (hi : s.Stoppable) :
    s.runner.destroying = false := by
  by_contra hne
  have := hi.pool (by simpa using hne)
  simp [hu.destroyed] at this

theorem poolUse_of_unstopped (hi : s.Stoppable) (hu : s.Unstopped) (h : step H s a = some s') :
    poolUse s a = true := by
  have hd := hu.pool_destroying hi
  cases a with
  | runner b =>
    cases b with
    | addTask => simp [poolUse,TaskRunner.legalUse,hd]
    | destroy =>
      cases step_cases h with
      | runner ha => simp [State.mayRun,hu.destroyed] at ha
    | _ => rfl
  | _ => rfl

theorem destroying_mono (h : step H s a = some s') (hd : s'.destroying = false) :
    s.destroying = false := by
  cases step_cases h with
  | destroy => cases hd
  | _ => exact hd

theorem step_working (hi : s.Working) (hd : s'.destroying = false) (h : step H s a = some s') :
    s'.Working :=
  ⟨step_stoppable hi.stoppable h,step_unstopped hi.unstopped hd h,
    step_poolInv hi.stoppable hi.pool (poolUse_of_unstopped hi.stoppable hi.unstopped h) h,
    step_ready hi.ready h,step_punctual hi.punctual h,step_repeats hi.repeats h⟩

/-! ## What is left to do -/

/-- How often the item, or a recurrence of it, is still to be popped. -/
noncomputable def ScheduledItem.left (clock : TimePoint) (item : ScheduledItem) : ℕ :=
  if item.nextFireTime ≤ clock then item.rounds clock else 0

/-- The same for the item that the timer thread holds, until it is handed over. -/
noncomputable def Timer.left (clock : TimePoint) : Timer → ℕ
  | .popped _ item | .overlap _ item | .slide _ item | .reinsert _ item => item.left clock
  | _ => 0

noncomputable def State.left (s : State) : ℕ :=
  (s.heap.items.map (·.left s.clock)).sum+s.timer.left s.clock

namespace ScheduledItem

theorem Settles.mono (h : item.Settles horizon) (hle : now ≤ horizon) : item.Settles now := by
  obtain ⟨n,hn⟩ := h
  exact ⟨n,hle.trans_lt hn⟩

theorem left_pos (hd : item.nextFireTime ≤ clock)
    (hs : item.repeating = true → item.Settles clock) : 0 < item.left clock := by
  rw [left,if_pos hd]
  cases hr : item.repeating with
  | true => exact Nat.zero_lt_of_lt (rounds_next hr (hs hr) hd)
  | false => simp [rounds,hr]

theorem left_next (hr : item.repeating = true) (hd : item.nextFireTime ≤ clock)
    (hs : item.Settles clock) : item.next.left clock < item.left clock := by
  have hlt := rounds_next hr hs hd
  rw [left,left,if_pos hd]
  split
  · exact hlt
  · exact Nat.zero_lt_of_lt hlt

theorem sum_left_pos {items : List ScheduledItem} (hm : item ∈ items)
    (hd : item.nextFireTime ≤ clock) (hs : item.repeating = true → item.Settles clock) :
    0 < (items.map (·.left clock)).sum :=
  (left_pos hd hs).trans_le (List.le_sum_of_mem (List.mem_map_of_mem hm))

theorem due_of_sum_left {items : List ScheduledItem} (h : 0 < (items.map (·.left clock)).sum) :
    ∃ item ∈ items, item.nextFireTime ≤ clock := by
  by_contra hn
  have hzero : ∀ n ∈ items.map (·.left clock), n = 0 := by
    intro n hn'
    obtain ⟨x,hx,rfl⟩ := List.mem_map.mp hn'
    exact if_neg fun hd => hn ⟨x,hx,hd⟩
  rw [List.sum_eq_zero hzero] at h
  exact lt_irrefl 0 h

end ScheduledItem

/-- Where the timer thread stands on its way to the next pop, or back to its sleep if nothing is
due. In the head of the loop it may have read the clock before something got due. -/
def Timer.rank (due : Bool) (clock : TimePoint) : Timer → ℕ
  | .dispatch .. => 20
  | .adding .. => 19
  | .pass now => if due then if now < clock then 18 else 9 else 14
  | .lock => if due then 17 else 13
  | .wait => if due then 16 else 12
  | .stopCheck => if due then 15 else 11
  | .waitUntil => if due then 14 else 10
  | .blockedUntil deadline => if due then 13 else if deadline ≤ clock then 18 else 9
  | .relock => if due then 12 else 17
  | .stopCheckUntil => if due then 11 else 16
  | .now => if due then 10 else 15
  | .popped .. => 8
  | .overlap .. => 7
  | .slide .. | .reinsert .. => 6
  | .blocked | .exited => 0

theorem rank_le (k : Timer) (due : Bool) (clock : TimePoint) : k.rank due clock ≤ 20 := by
  cases k <;> simp only [Timer.rank] <;> grind

noncomputable def State.distance (s : State) : ℕ :=
  21*s.left+s.timer.rank (0 < s.left) s.clock

theorem distance_lt_of_left (h : s'.left < s.left) : s'.distance < s.distance := by
  have := rank_le s'.timer (0 < s'.left) s'.clock
  rw [State.distance,State.distance]
  omega

/-- The timer thread gets on, and as much is left. -/
theorem distance_lt_of_rank (hl : s'.left = s.left) (hc : s'.clock = s.clock)
    (h : s'.timer.rank (0 < s.left) s.clock < s.timer.rank (0 < s.left) s.clock) :
    s'.distance < s.distance := by
  rw [State.distance,State.distance,hl,hc]
  omega

/-- A step of the timer thread that leaves the heap alone. -/
theorem distance_lt {m : Option Owner} {r : TaskRunner.State Closure Frame}
    (hl : k.left s.clock = s.timer.left s.clock)
    (hk : ∀ due, k.rank due s.clock < s.timer.rank due s.clock) :
    State.distance { s with timer := k, mutex := m, runner := r } < s.distance :=
  distance_lt_of_rank (congrArg (_+·) hl) rfl (hk _)

/-- Every step brings the timer thread nearer to its sleep. -/
theorem timer_nearer (hi : s.Working)
    (hs : ∀ item, s.Holds item → item.repeating = true → item.Settles s.clock)
    (h : step H s .timer = some s') : s'.distance < s.distance := by
  have hpunctual := hi.punctual
  have hrepeats := hi.repeats
  -- what the timer thread has popped is due
  have hpopped {now : TimePoint} {item : ScheduledItem} (hp : now ≤ s.clock ∧ item.nextFireTime ≤ now)
      (ht : s.timer.item? = some item) : 0 < item.left s.clock :=
    ScheduledItem.left_pos (hp.2.trans hp.1) (hs item (.timer ht))
  have hback {now : TimePoint} {item : ScheduledItem} (hp : now ≤ s.clock ∧ item.nextFireTime ≤ now)
      (ht : s.timer.item? = some item) (hr : item.repeating = true) :
      ((s.heap.push H item.next).items.map (·.left s.clock)).sum <
        (s.heap.items.map (·.left s.clock)).sum+item.left s.clock := by
    have hlt := ScheduledItem.left_next hr (hp.2.trans hp.1) (hs item (.timer ht) hr)
    rw [((s.heap.push_perm H item.next).map _).sum_nat,List.map_cons,List.sum_cons]
    omega
  cases step_cases h with
  | timerLock ht | timerAwake ht | timerBlock ht | timerGo ht | relock ht | timerGoUntil ht
  | skip ht | noOverlap ht | overlap ht | queue ht | dispatch ht | now ht =>
    exact distance_lt (by rw [ht]; rfl) fun due => by rw [ht]; cases due <;> simp [Timer.rank]
  | timerStop _ hstop => simp [hi.unstopped.stop] at hstop
  | @waitUntil item ht hf =>
    refine distance_lt_of_rank (by simp [State.left,Timer.left,ht]) rfl ?_
    have hmem : item ∈ s.heap.items := List.mem_of_mem_head? hf
    by_cases hp : 0 < s.left
    · simp [ht,Timer.rank,hp]
    · have hlater : ¬item.nextFireTime ≤ s.clock := fun hd =>
        hp (Nat.add_pos_left (ScheduledItem.sum_left_pos hmem hd (hs item (.heap hmem))) _)
      simp [ht,Timer.rank,hp,hlater]
  | @pop now item heap ht hp hd =>
    refine distance_lt_of_rank ?_ rfl ?_
    · have hperm := ((MinHeap.pop_spec H hp).2.map (·.left s.clock)).sum_nat
      simp only [State.left,Timer.left,ht,hperm,List.map_cons,List.sum_cons]
      omega
    · simp only [Timer.rank,ht]
      grind
  | @passEnd now ht hd =>
    refine distance_lt_of_rank (by simp [State.left,Timer.left,ht]) rfl ?_
    by_cases hp : 0 < s.left
    · have hsum : 0 < (s.heap.items.map (·.left s.clock)).sum := by
        simpa [State.left,Timer.left,ht] using hp
      obtain ⟨x,hx,hxd⟩ := ScheduledItem.due_of_sum_left hsum
      -- the clock has gone on since it was read
      have hold : now < s.clock := by
        cases hf : s.heap.front? with
        | none =>
          have hnil : s.heap.items = [] := by simpa [MinHeap.front?] using hf
          simp [hnil] at hx
        | some y => exact ((hd y hf).trans_le (MinHeap.front_le hf x hx)).trans_le hxd
      simp [ht,Timer.rank,hp,hold]
    · simp [ht,Timer.rank,hp]
  | added ht =>
    refine distance_lt (by rw [ht]; rfl) fun due => ?_
    simp only [Timer.rank,ht]
    grind
  | discard ht | oneShot ht =>
    refine distance_lt_of_left ?_
    rw [ht] at hpunctual
    simpa [State.left,State.record,Timer.left,ht] using hpopped hpunctual (by rw [ht]; rfl)
  | slide ht | reinsert ht =>
    refine distance_lt_of_left ?_
    rw [ht] at hpunctual hrepeats
    simpa [State.left,State.record,Timer.left,ht] using
      hback hpunctual (by rw [ht]; rfl) hrepeats

/-- The wait of phase 2 has reached its deadline. -/
def State.Expired (s : State) : Prop := ∃ deadline, s.timer = .blockedUntil deadline ∧
  deadline ≤ s.clock

/-- The steps the scheduler and its pool take by themselves while the application calls nothing
more. The clock may go on, up to the horizon, and ends no wait before its deadline. -/
def works (horizon : TimePoint) (s : State) : Act → Prop
  | .runner a => TaskRunner.proceeds Frame.Before s.runner a
  | .closure _ | .call _ | .timer => True
  | .timerWake => s.Expired
  | .tick d => 0 < d ∧ s.clock+d ≤ horizon
  | .schedule _ _ | .cancel _ _ | .destroy _ => False

/-- Those that are sure to be taken: statements of the code, and the end of a wait that has reached
its deadline. -/
def State.IsSure (s : State) (a : Act) : Prop := a.isOwn = true ∨ a = .timerWake ∧ s.Expired

/-- Nearer to a state with nothing left to do: the clock has got on, or a call, or the timer thread,
or the pool. -/
def Nearer : ℕ × ℕ × ℕ × Bool × Multiset (TaskRunner.Item Closure Frame) →
    ℕ × ℕ × ℕ × Bool × Multiset (TaskRunner.Item Closure Frame) → Prop :=
  Prod.Lex (· < ·) (Prod.Lex (· < ·) (Prod.Lex (· < ·)
    (TaskRunner.Nearer Closure.enter Frame.Before)))

noncomputable def State.remaining (horizon : TimePoint) (s : State) :
    ℕ × ℕ × ℕ × Bool × Multiset (TaskRunner.Item Closure Frame) :=
  ((horizon-s.clock).toNat,(s.calls.map Call.effort).sum,s.distance,s.runner.stop,s.runner.items)

theorem nearer_wf : WellFounded Nearer :=
  .prod_lex wellFounded_lt (.prod_lex wellFounded_lt (.prod_lex wellFounded_lt
    (TaskRunner.nearer_wf Closure.enter (InvImage.wf Frame.rank wellFounded_lt))))

theorem toNat_sub_lt {x y : ℤ} {d : ℕ} (hd : 0 < d) (hle : x+d ≤ y) :
    (y-(x+d)).toNat < (y-x).toNat := by omega

theorem step_works (hi : s.Working)
    (hs : ∀ item, s.Holds item → item.repeating = true → item.Settles s.clock)
    (ha : works horizon s a) (h : step H s a = some s') :
    Nearer (s'.remaining horizon) (s.remaining horizon) := by
  have hcall {t : ℕ} {x y : Call} (hc : s.calls[t]? = some x) (hy : y.effort < x.effort) :
      ((s.calls.set t y).map Call.effort).sum < (s.calls.map Call.effort).sum := by
    have := sum_map_set Call.effort (b:=y) hc
    omega
  cases step_cases h with
  | runner _ hr => exact .right _ (.right _ (.right _ (hr.nearer hi.pool.orderly ha)))
  | started hw | refused hw | completed hw | finish hw | external hw =>
    exact .right _ (.right _ (.right _
      (frame_nearer hi.pool (by simp [Frame.Before,Frame.rank]) hw)))
  | schedule | cancel | destroy => exact ha.elim
  | cancelScheduled hc | cancelRunning hc | cancelFailed hc | pushLock hc | push hc | pushUnlock hc
  | pushNotify hc => exact .right _ (.left _ _ (hcall hc (by simp [Call.effort])))
  | stopLock hc | stopStore hc | stopUnlock hc | stopNotify hc | stopJoin hc =>
    exact (hi.unstopped.no_stop hc rfl).elim
  | wake =>
    obtain ⟨deadline,ht,hd⟩ := ha
    refine .right _ (.right _ (.left _ _ (distance_lt (m:=s.mutex) ?_ fun due => ?_)))
    · rw [ht]
      rfl
    · rw [ht]
      cases due <;> simp [Timer.notified,Timer.rank,hd]
  | tick => exact .left _ _ (toNat_sub_lt ha.1 ha.2)
  | timerLock | timerAwake | timerBlock | timerStop | timerGo | waitUntil | relock | timerGoUntil
  | now | pop | passEnd | discard | overlap | queue | oneShot | skip | noOverlap | slide
  | reinsert | dispatch | added => exact .right _ (.right _ (.left _ _ (timer_nearer hi hs h)))

/-! ## Somebody can go on -/

namespace State.Working

/-- While the timer thread is in `AddTask` the call goes on, or whoever holds it up does. -/
theorem adding_live (hi : s.Working) (ht : s.timer = .adding now item) : Lively H s := by
  obtain ⟨x,hc,-⟩ := hi.ready
  cases hn : x.isIdle with
  | true =>
    obtain rfl := TaskRunner.Call.eq_idle hn
    exact ⟨.timer,rfl,by simp [step,timerStep,ht,hc]⟩
  | false =>
    have hj : x ≠ .stopJoin := by
      rintro rfl
      have := hi.pool.drains.stopping (.inl ⟨_,List.mem_of_getElem? hc,rfl⟩)
      simp [hi.unstopped.pool_destroying hi.stoppable] at this
    obtain ⟨b,hb,hs⟩ := hi.pool.orderly.call_runs hc hn hj
    obtain ⟨hm,ho⟩ : s.mayRun b = true ∧ b.isOwn = true := by
      cases b <;> first | exact ⟨rfl,rfl⟩ | cases hb
    exact ⟨.runner b,ho,by simpa [step,hm] using hs⟩

/-- Whoever holds the mutex is not held up, unless it is by the pool, which goes on. -/
theorem owner_live (hi : s.Working) (o : Owner) (hm : s.mutex = some o) : Lively H s := by
  have hh := hi.stoppable.owner o hm
  cases o with
  | caller t => exact Stoppable.caller_live hh
  | timer =>
    have hstop := hi.unstopped.stop
    change s.timer.holds = true at hh
    have htimer (h : (timerStep H s).isSome = true) : Lively H s := ⟨.timer,rfl,h⟩
    cases hk : s.timer with
    | lock | blocked | blockedUntil | relock | exited =>
      rw [hk] at hh
      cases hh
    | wait =>
      refine htimer ?_
      simp only [timerStep,hk]
      split <;> rfl
    | stopCheck | stopCheckUntil => exact htimer (by simp [timerStep,hk,hstop])
    | waitUntil =>
      have hne := (hi.stoppable.inv.waitUntil hk).2
      refine htimer ?_
      cases hq : s.heap.items with
      | nil => exact absurd hq hne
      | cons x rest => simp [timerStep,hk,MinHeap.front?,hq]
    | now | slide | reinsert => exact htimer (by simp [timerStep,hk])
    | pass now =>
      refine htimer ?_
      simp only [timerStep,hk]
      split
      · rename_i hfront
        cases hp : s.heap.pop H with
        | none => simp [MinHeap.front?_of_pop_eq_none hp] at hfront
        | some r => rfl
      · rfl
    | popped now item =>
      refine htimer ?_
      simp only [timerStep,hk]
      split
      · rfl
      · split
        · split <;> rfl
        · rfl
    | overlap now item =>
      refine htimer ?_
      simp only [timerStep,hk]
      split <;> rfl
    | dispatch now item =>
      obtain ⟨x,hc,hx⟩ := hi.ready
      obtain rfl := TaskRunner.Call.eq_idle (hx.resolve_right (by simp [hk,Timer.isAdding]))
      change s.runner.calls[s.runner.threads.length]? = some .idle at hc
      refine htimer ?_
      simp [timerStep,hk,TaskRunner.step,hc,TaskRunner.State.mayCall,State.timerThread]
    | adding now item => exact hi.adding_live hk

end State.Working

/-! ## Nothing is left to do -/

/-- No call is in progress, the pool is at rest and has executed or refused all that it got, and the
timer thread sleeps until the earliest entry of the heap is due. A one-shot task that was scheduled
is not due yet, or it is completed or cancelled; a repeating one is not due yet, or an entry of it
was found cancelled. -/
structure State.CaughtUp (s : State) : Prop where
  calls : ∀ x ∈ s.calls, x.isIdle = true
  pool : s.runner.AtRest
  timer : s.timer.isBlocked = true
  later : ∀ item ∈ s.heap.items, s.clock < item.nextFireTime
  executed : ∀ c, s.history.count (.completed,c)+s.history.count (.refused,c) =
    s.runner.pushed.count (.invoke c)
  oneShot : ∀ n, (.pushed,.oneShot n) ∈ s.history →
    (∃ item ∈ s.heap.items, item.cancellable = .oneShot n) ∨
      (.completed,.oneShot n) ∈ s.history ∨ s.words (.oneShot n) = .cancelled
  repeating : ∀ n, (.pushed,.repeating n) ∈ s.history →
    (∃ item ∈ s.heap.items, item.cancellable = .repeating n) ∨ (.discarded,.repeating n) ∈ s.history

/-- What holds of the life of a task of either kind. -/
structure Life.Kept (c : Handle) (l : Life) : Prop where
  inv : l.Inv
  oneShot : c.isRepeating = false → l.OneShot
  repeating : c.isRepeating = true → l.OneEntry

theorem Life.Kept.step {c : Handle} {m : Mark} {l l' : Life} (hi : l.Kept c)
    (h : LifeStep c m l l') : l'.Kept c :=
  ⟨hi.inv.step h,fun hc => (hi.oneShot hc).step hc h,
    fun hc => (hi.repeating hc).step hi.inv.seen hc h⟩

theorem init_kept (workers outside : ℕ) (c : Handle) : ((init workers outside).life c).Kept c :=
  ⟨init_inv _ _ _,fun _ => init_oneShot _ _ _,fun _ => by rw [init_life]; constructor <;> simp⟩

theorem mem_heap_of_life {c : Handle} (h : 0 < (s.life c).heap) :
    ∃ item ∈ s.heap.items, item.cancellable = c := by
  simpa [State.life,List.countP_pos_iff] using h

theorem hand_of_blocked (h : s.timer.isBlocked = true) (c : Handle) : (s.life c).hand = none := by
  change s.timer.hand c = none
  cases hk : s.timer <;> simp_all [Timer.isBlocked,Timer.hand]

/-- A one-shot task is in one place, and at rest only the heap and the end are left. -/
theorem oneShot_caughtUp (hr : s.runner.AtRest) (hb : s.timer.isBlocked = true)
    (hd : s.destroyed = false) {n : ℕ} (hl : (s.life (.oneShot n)).OneShot)
    (hp : (.pushed,.oneShot n) ∈ s.history) :
    (∃ item ∈ s.heap.items, item.cancellable = .oneShot n) ∨
      (.completed,.oneShot n) ∈ s.history ∨ s.words (.oneShot n) = .cancelled := by
  have hplaces : (s.life (.oneShot n)).places = (s.life (.oneShot n)).record .pushed := by
    rcases hl.placed.balance with h | ⟨h,-⟩
    · exact h
    · simp [State.life,hd] at h
  have hpushed : 0 < (s.life (.oneShot n)).record .pushed := List.count_pos_iff.mpr hp
  have hpool : (s.life (.oneShot n)).pool = fun _ => 0 := funext (pool_eq_zero hr (.oneShot n))
  simp only [Life.places,Life.inHand,hand_of_blocked hb,hpool] at hplaces
  by_cases hh : 0 < (s.life (.oneShot n)).heap
  · exact .inl (mem_heap_of_life hh)
  by_cases hc : 0 < (s.life (.oneShot n)).record .completed
  · exact .inr (.inl (List.count_pos_iff.mp hc))
  · exact .inr (.inr (hl.final.dropped (by omega)))

/-- A repeating task has an entry until one is discarded. -/
theorem repeating_caughtUp (hb : s.timer.isBlocked = true) (hd : s.destroyed = false) {n : ℕ}
    (hl : (s.life (.repeating n)).OneEntry) (hp : (.pushed,.repeating n) ∈ s.history) :
    (∃ item ∈ s.heap.items, item.cancellable = .repeating n) ∨
      (.discarded,.repeating n) ∈ s.history := by
  have hentry := hl.entry (by simp [State.life,hd]) (List.count_pos_iff.mpr hp)
  simp only [Life.entryInHand,hand_of_blocked hb] at hentry
  by_cases hh : 0 < (s.life (.repeating n)).heap
  · exact .inl (mem_heap_of_life hh)
  · exact .inr (List.count_pos_iff.mp (by simp only [State.life] at hentry hh; omega))

theorem caughtUp_or_lively (hi : s.Working) (hl : ∀ c, (s.life c).Kept c) :
    s.CaughtUp ∨ ∃ a, s.IsSure a ∧ (step H s a).isSome = true := by
  have hlively (h : Lively H s) : ∃ a, s.IsSure a ∧ (step H s a).isSome = true := by
    obtain ⟨a,ha,hs⟩ := h
    exact ⟨a,.inl ha,hs⟩
  by_cases hidle : ∀ x ∈ s.calls, x.isIdle = true
  swap
  · obtain ⟨x,hx,hn⟩ : ∃ x ∈ s.calls, x.isIdle = false := by simpa using hidle
    obtain ⟨t,hc⟩ := List.mem_iff_getElem?.mp hx
    refine .inr (hlively (State.Stoppable.call_live hi.owner_live hc hn ?_))
    rintro rfl
    exact hi.unstopped.no_stop hc rfl
  by_cases hb : s.timer.isBlocked = true
  swap
  · refine .inr (hlively ?_)
    by_cases hh : s.timer.holds = true
    · exact hi.owner_live _ (hi.stoppable.inv.locked.timer hh)
    · refine State.Stoppable.lock_live hi.owner_live ?_
      have := hi.unstopped.timer
      cases hk : s.timer <;> simp_all [Timer.holds,Timer.isBlocked]
  by_cases ha : s.Asleep s.timer
  swap
  · exact .inr (hlively (hi.stoppable.asleep_live hi.owner_live ha))
  by_cases hexp : s.Expired
  · exact .inr ⟨.timerWake,.inr ⟨rfl,hexp⟩,by simp [step,hb]⟩
  have hlater : ∀ item ∈ s.heap.items, s.clock < item.nextFireTime := by
    cases hk : s.timer with
    | blocked =>
      rw [hk] at ha
      simp [ha.1]
    | blockedUntil deadline =>
      rw [hk] at ha
      exact fun item hm => (not_le.mp fun hle => hexp ⟨deadline,hk,hle⟩).trans_le (ha.1 item hm)
    | _ =>
      rw [hk] at hb
      cases hb
  rcases TaskRunner.rest_or_lively hi.pool.orderly hi.pool.drains hi.pool.wake
    hi.pool.accounted with hr | hp
  · exact .inl ⟨hidle,hr,hb,hlater,fun c => executed_of_atRest hr (hl c).inv.accounted,
      fun n => oneShot_caughtUp hr hb hi.unstopped.destroyed ((hl _).oneShot rfl),
      fun n => repeating_caughtUp hb hi.unstopped.destroyed ((hl _).repeating rfl)⟩
  · exact .inr (hlively (hi.stoppable.pool_live hidle hp))

theorem due_of_putBack (hp : k.Punctual clock) (h : item ∈ k.putBack?) :
    item.nextFireTime ≤ clock := by
  cases k with
  | slide now x | reinsert now x =>
    obtain rfl := Option.some.inj h
    exact hp.2.trans hp.1
  | _ => cases h

/-- The steps of the scheduler put no entry into the heap but recurrences of what it holds. -/
theorem settles_works (hi : s.Working) (hc : s.clock ≤ horizon)
    (hs : ∀ item, s.Holds item → item.repeating = true → item.Settles horizon)
    (ha : works horizon s a) (h : step H s a = some s') (hm : s'.Holds item)
    (hr : item.repeating = true) : item.Settles horizon := by
  rcases step_holds h hm with hm | ⟨t,r,rfl,-⟩ | ⟨rfl,x,hx,rfl⟩
  · exact hs item hm hr
  · exact ha.elim
  · exact (hs x (.timer (item?_of_putBack? hx)) hr).next
      ((due_of_putBack hi.punctual hx).trans hc)

theorem frame_works (ha : works horizon s a) (hc : s.clock ≤ horizon)
    (h : step H s a = some s') : s'.destroying = s.destroying ∧ s'.clock ≤ horizon := by
  cases step_cases h with
  | destroy => exact ha.elim
  | tick => exact ⟨rfl,ha.2⟩
  | _ => exact ⟨rfl,hc⟩

/-- The scheduler catches up: from every state before the call of the destructor, once the
application calls nothing more and until the clock gets past the horizon, every schedule of the
timer thread, the workers and the calls in progress leads to a state in which all that is due is
done, and does so again whenever the clock gets on. A repeating task none of whose recurrences
would be after the horizon is popped for ever. -/
theorem catches_up (H : Algorithms ScheduledItem.nextFireTime) (workers outside : ℕ)
    (horizon : TimePoint) (e : Execution (step H) (init (workers+1) outside))
    (hd : e.final.destroying = false) (hc : e.final.clock ≤ horizon)
    (hs : ∀ item, e.final.Holds item → item.repeating = true → item.Settles horizon) :
    Settles (step H) State.IsSure (works horizon) State.CaughtUp e.final := by
  have hw : e.final.Working :=
    e.run.invariant (I:=fun s => s.destroying = false → s.Working) (fun _ => init_working _ _)
      (fun _ _ _ hi h hd => step_working (hi (destroying_mono h hd)) hd h) hd
  have hlife (c : Handle) : e.final.TimerSubmits ∧ (e.final.life c).Kept c :=
    run_life e.run (init_timerSubmits _ _) (init_kept _ _ _) fun _ _ _ => Life.Kept.step
  refine Settles.of_measure nearer_wf (State.remaining horizon)
    (I:=fun s => s.Working ∧ s.clock ≤ horizon ∧
      (∀ item, s.Holds item → item.repeating = true → item.Settles horizon) ∧
      ∀ c, s.TimerSubmits ∧ (s.life c).Kept c) (fun s a s' hI ha h => ?_) (fun s hI => ?_)
    ⟨hw,hc,hs,hlife⟩
  · obtain ⟨hi,hc,hs,hl⟩ := hI
    have hsettles (item : ScheduledItem) (hm : s.Holds item) (hr : item.repeating = true) :
        item.Settles s.clock := (hs item hm hr).mono hc
    obtain ⟨hd,hc'⟩ := frame_works ha hc h
    exact ⟨⟨step_working hi (hd.trans hi.unstopped.destroying) h,hc',
      fun item hm hr => settles_works hi hc hs ha h hm hr,
      fun c => run_life (Run.refl.next h) (hl c).1 (hl c).2 fun _ _ _ => Life.Kept.step⟩,
      step_works hi hsettles ha h⟩
  · exact caughtUp_or_lively hI.1 fun c => (hI.2.2.2 c).2

/-- A task is to run every ten nanoseconds and another one after five; twelve have passed. -/
def overdueTasks : Execution (step (insertionAlgorithms _)) (init 1 1) :=
  .ofLabels [.schedule 2 (.every 10),.call 2,.call 2,.call 2,.call 2,
    .schedule 2 (.after 5),.call 2,.call 2,.call 2,.call 2,.tick 12] (by decide)

theorem overdueTasks_catches_up :
    (∀ item ∈ overdueTasks.final.heap.items, item.nextFireTime ≤ overdueTasks.final.clock) ∧
    overdueTasks.final.heap.items.length = 2 ∧
    Settles (step (insertionAlgorithms _)) State.IsSure (works 30) State.CaughtUp
      overdueTasks.final := by
  refine ⟨by decide,by decide,catches_up _ 0 1 30 overdueTasks (by decide) (by decide)
    fun item hm hr => ⟨3,?_⟩⟩
  cases hm with
  | heap h =>
    have hheap : ∀ x ∈ overdueTasks.final.heap.items, x.repeating = true →
        30 < (ScheduledItem.next^[3] x).nextFireTime := by decide
    exact hheap item h hr
  | call t x hx h =>
    have hcalls : ∀ x ∈ overdueTasks.final.calls, x.item? = none := by decide
    rw [hcalls x (List.mem_of_getElem? hx)] at h
    cases h
  | timer h => cases h

end Blush.TaskScheduler
