import Blush.TaskScheduler.TimerPass

/-! Fire times against the time that has really elapsed. As long as no addition overflows every fire
time is exact, and no closure is handed to the pool before its time. -/
namespace Blush.TaskScheduler
open Function Heap MachineInt Slots Transition
variable {H : Algorithms ScheduledItem.nextFireTime} {s s' : State} {a : Act} {r : Request}
  {clock : ℤ} {item : ScheduledItem} {steps steps' : List (State × Act)}

namespace Request

/-- When the occurrence after `k` periods is due, without regard to the range of a time point. -/
def due (clock : ℤ) (k : ℕ) : Request → ℤ
  | .after delay => clock+delay
  | .at when => when
  | .repeating initialDelay period _ => clock+initialDelay+k*period

/-- Delays are not negative and periods are positive, and they are 64-bit counts. -/
def Admissible : Request → Prop
  | .after delay => 0 ≤ delay ∧ delay < 2^63
  | .at when => -2^63 ≤ when ∧ when < 2^63
  | .repeating initialDelay period _ =>
    (0 ≤ initialDelay ∧ initialDelay < 2^63) ∧ 0 < period ∧ period < 2^63

/-- The fire time in the heap after `k` re-arms. -/
def stored (clock : ℤ) (n k : ℕ) (r : Request) : ℤ :=
  (ScheduledItem.next^[k] (r.item clock n)).nextFireTime

end Request

/-- The item comes from a call of the run by a number of re-arms, and its fire time is exact. -/
def Exact (steps : List (State × Act)) (item : ScheduledItem) : Prop :=
  ∃ q ∈ steps, ∃ t r k, q.2 = .schedule t r ∧
    item = ScheduledItem.next^[k] (r.item q.1.clock q.1.allocated) ∧
    item.nextFireTime = r.due q.1.clock k

/-- The item whose next recurrence the timer thread is about to put into the heap. -/
def Timer.putBack? : Timer → Option ScheduledItem
  | .slide _ item | .reinsert _ item => some item
  | _ => none

/-- The step adds a delay or a period, and the sum is beyond the greatest time point. -/
def Overflows (s : State) : Act → Prop
  | .schedule _ r => 2^63 ≤ r.due s.clock 0
  | .timer => ∃ item ∈ s.timer.putBack?, 2^63 ≤ item.nextFireTime+item.period
  | _ => False

/-- The argument of a call that schedules. -/
def Act.Admissible : Act → Prop
  | .schedule _ r => r.Admissible
  | _ => True

instance (r : Request) : Decidable r.Admissible :=
  match r with
  | .after _ | .at _ | .repeating .. => inferInstanceAs (Decidable (_ ∧ _))

instance (a : Act) : Decidable a.Admissible :=
  match a with
  | .schedule _ r => inferInstanceAs (Decidable r.Admissible)
  | .runner _ | .closure _ | .cancel .. | .destroy _ | .call _ | .timer | .timerWake | .tick _ =>
    isTrue trivial

instance (s : State) (a : Act) : Decidable (Overflows s a) :=
  match a with
  | .schedule _ r => inferInstanceAs (Decidable (2^63 ≤ r.due s.clock 0))
  | .timer => inferInstanceAs (Decidable (∃ item ∈ s.timer.putBack?, _))
  | .runner _ | .closure _ | .cancel .. | .destroy _ | .call _ | .timerWake | .tick _ => isFalse id

/-! ## Sums -/

theorem Request.due_succ (r : Request) (clock : ℤ) (n k : ℕ) :
    r.due clock (k+1) = r.due clock k+(r.item clock n).period := by
  cases r with
  | after | «at» => simp [due,item]
  | repeating d p policy =>
    simp only [due,item]
    push_cast
    ring

theorem Request.due_mono (hr : r.Admissible) (clock : ℤ) {j k : ℕ} (h : j ≤ k) :
    r.due clock j ≤ r.due clock k := by
  cases r with
  | after | «at» => exact le_rfl
  | repeating d p policy =>
    have hp : 0 ≤ p := hr.2.1.le
    have hjk : (j:ℤ) ≤ k := by exact_mod_cast h
    have hmul := mul_le_mul_of_nonneg_right hjk hp
    simp only [due]
    linarith

theorem Request.le_due (hr : r.Admissible) (hc : 0 ≤ clock) (k : ℕ) : -2^63 ≤ r.due clock k := by
  have hmono := due_mono hr clock (Nat.zero_le k)
  refine le_trans ?_ hmono
  cases r with
  | after d =>
    have hd : (0:ℤ) ≤ d := hr.1
    simp only [due]
    omega
  | «at» when => exact hr.1
  | repeating d p policy =>
    have hd : (0:ℤ) ≤ d := hr.1.1
    simp only [due]
    omega

theorem add_eq_of_lt {x y : ℤ} (hle : -2^63 ≤ x+y) (hlt : x+y < 2^63) : TimePoint.add x y = x+y := by
  apply wrap_of_fits
  unfold Fits
  omega

/-- The first sum that overflows is negative. -/
theorem add_neg_of_le {x y : ℤ} (hx : x < 2^63) (hy : y < 2^63) (hle : 2^63 ≤ x+y) :
    wrap 64 (x+y) < 0 := by
  have hwrap : wrap 64 (x+y) = wrap 64 (x+y-2^64) := wrap_congr ⟨1,by ring⟩
  have hfits : Fits 64 (x+y-2^64) := by
    unfold Fits
    omega
  rw [hwrap,wrap_of_fits hfits]
  omega

/-- Up to the first overflow the fire times are exact. -/
theorem stored_eq_due (hr : r.Admissible) (hc : 0 ≤ clock) (n : ℕ) {k : ℕ}
    (hk : r.due clock k < 2^63) : r.stored clock n k = r.due clock k := by
  induction k with
  | zero =>
    have hle := Request.le_due (r:=r) hr hc 0
    cases r with
    | after d => exact add_eq_of_lt hle hk
    | «at» when => rfl
    | repeating d p policy =>
      simp only [Request.due,Nat.cast_zero,zero_mul,add_zero] at hle hk ⊢
      exact add_eq_of_lt hle hk
  | succ k ih =>
    have hmono := Request.due_mono hr clock (Nat.le_succ k)
    have hle := Request.le_due hr hc (k+1)
    have hprev := ih (hmono.trans_lt hk)
    rw [Request.due_succ r clock n k] at hle hk ⊢
    rw [Request.stored,iterate_succ_apply']
    change TimePoint.add (r.stored clock n k) (ScheduledItem.next^[k] (r.item clock n)).period = _
    rw [ScheduledItem.period_iterate,hprev]
    exact add_eq_of_lt hle hk

/-- The first sum that overflows leaves a fire time before the start of the clock. -/
theorem stored_neg (hr : r.Admissible) (hc : 0 ≤ clock) (hc' : clock < 2^63) (n : ℕ) {k : ℕ}
    (hk : 2^63 ≤ r.due clock k) : ∃ j ≤ k, 2^63 ≤ r.due clock j ∧ r.stored clock n j < 0 := by
  induction k with
  | zero =>
    refine ⟨0,le_rfl,hk,?_⟩
    cases r with
    | after d => exact add_neg_of_le hc' hr.2 hk
    | «at» when => exact absurd hr.2 (not_lt.mpr hk)
    | repeating d p policy =>
      simp only [Request.due,Nat.cast_zero,zero_mul,add_zero] at hk
      exact add_neg_of_le hc' hr.1.2 hk
  | succ k ih =>
    by_cases hprev : 2^63 ≤ r.due clock k
    · obtain ⟨j,hj,hdue,hneg⟩ := ih hprev
      exact ⟨j,hj.trans (Nat.le_succ k),hdue,hneg⟩
    · have hlt := not_le.mp hprev
      refine ⟨k+1,le_rfl,hk,?_⟩
      have hperiod : (r.item clock n).period < 2^63 := by
        cases r with
        | after | «at» => simp [Request.item]
        | repeating d p policy => exact hr.2.2
      rw [Request.due_succ r clock n k] at hk
      rw [Request.stored,iterate_succ_apply']
      change wrap 64 (r.stored clock n k+(ScheduledItem.next^[k] (r.item clock n)).period) < 0
      rw [ScheduledItem.period_iterate,stored_eq_due hr hc n hlt]
      exact add_neg_of_le hlt hperiod hk

/-- The fire times keep up with the time that has elapsed if and only if no sum overflows. -/
theorem stored_iff (hr : r.Admissible) (hc : 0 ≤ clock) (hc' : clock < 2^63) (n k : ℕ) :
    (∀ j ≤ k, r.due clock j ≤ r.stored clock n j ∨ r.stored clock n j = 2^63-1) ↔
      r.due clock k < 2^63 := by
  constructor
  · intro h
    by_contra hk
    obtain ⟨j,hj,hdue,hneg⟩ := stored_neg hr hc hc' n (not_lt.mp hk)
    rcases h j hj with h | h <;> omega
  · intro hk j hj
    exact .inl (stored_eq_due hr hc n ((Request.due_mono hr clock hj).trans_lt hk)).ge

/-! ## Where the items of a state come from -/

/-- The item that a call is about to push. -/
def Call.item? : Call → Option ScheduledItem
  | .pushLock item | .push item => some item
  | _ => none

/-- The item that the timer thread has popped. -/
def Timer.item? : Timer → Option ScheduledItem
  | .popped _ item | .overlap _ item | .slide _ item | .reinsert _ item | .dispatch _ item
  | .adding _ item => some item
  | _ => none

/-- The item is in the heap, on its way there, or with the timer thread. -/
inductive State.Holds (s : State) (item : ScheduledItem) : Prop
  | heap (h : item ∈ s.heap.items)
  | call (t : ℕ) (x : Call) (hx : s.calls[t]? = some x) (h : x.item? = some item)
  | timer (h : s.timer.item? = some item)

theorem State.Holds.frame (h : s'.Holds item) (hh : s'.heap = s.heap) (hc : s'.calls = s.calls)
    (ht : s'.timer.item? = s.timer.item?) : s.Holds item := by
  cases h with
  | heap h => exact .heap (hh ▸ h)
  | call t x hx h => exact .call t x (hc ▸ hx) h
  | timer h => exact .timer (ht ▸ h)

/-- A call that has no item leaves those of the others. -/
theorem State.Holds.of_set {t u : ℕ} {y z : Call} (hz : (s.calls.set t y)[u]? = some z)
    (hy : y.item? = none) (h : z.item? = some item) : s.Holds item := by
  rcases getElem?_set_cases hz with ⟨rfl,rfl⟩ | ⟨-,hz⟩
  · rw [hy] at h
    cases h
  · exact .call u z hz h

/-- A call gets on, and keeps its item or lets go of it. -/
theorem State.Holds.setCall {t : ℕ} {x y : Call} (h : s'.Holds item) (hx : s.calls[t]? = some x)
    (hy : y.item? = x.item? ∨ y.item? = none) (hh : s'.heap = s.heap)
    (hc : s'.calls = s.calls.set t y) (ht : s'.timer.item? = s.timer.item?) : s.Holds item := by
  cases h with
  | heap h => exact .heap (hh ▸ h)
  | call u z hz h =>
    rw [hc] at hz
    rcases hy with hy | hy
    · rcases getElem?_set_cases hz with ⟨rfl,rfl⟩ | ⟨-,hz⟩
      · exact .call u x hx (hy ▸ h)
      · exact .call u z hz h
    · exact .of_set hz hy h
  | timer h => exact .timer (ht ▸ h)

/-- One item is new in the heap. -/
theorem State.Holds.pushed {x : ScheduledItem} (h : s'.Holds item)
    (hh : s'.heap = s.heap.push H x)
    (hc : ∀ (t : ℕ) (z : Call), s'.calls[t]? = some z → z.item? = some item → s.Holds item)
    (ht : s'.timer.item? = some item → s.timer.item? = some item) : item = x ∨ s.Holds item := by
  cases h with
  | heap h =>
    rw [hh] at h
    rcases List.mem_cons.mp ((s.heap.push_perm H x).mem_iff.mp h) with rfl | h
    · exact .inl rfl
    · exact .inr (.heap h)
  | call t z hz h => exact .inr (hc t z hz h)
  | timer h => exact .inr (.timer (ht h))

@[simp] theorem item?_notified (k : Timer) : k.notified.item? = k.item? := by cases k <;> rfl

theorem item?_of_putBack? {k : Timer} (h : item ∈ k.putBack?) : k.item? = some item := by
  cases k <;> first | exact h | cases h

/-- Every item of the next state was there before, or a call makes it, or it is the next recurrence
of an item that the timer thread puts back. -/
theorem step_holds (h : step H s a = some s') (hi : s'.Holds item) :
    s.Holds item ∨ (∃ t r, a = .schedule t r ∧ item = r.item s.clock s.allocated) ∨
      a = .timer ∧ ∃ x ∈ s.timer.putBack?, item = x.next := by
  cases step_cases h with
  | runner | started | refused | completed | finish | external | tick =>
    exact .inl (hi.frame rfl rfl rfl)
  | @schedule t r ht =>
    cases hi with
    | heap h => exact .inl (.heap h)
    | call u z hz h =>
      rcases getElem?_set_cases hz with ⟨rfl,rfl⟩ | ⟨-,hz⟩
      · exact .inr (.inl ⟨u,r,rfl,(Option.some.inj h).symm⟩)
      · exact .inl (.call u z hz h)
    | timer h => exact .inl (.timer h)
  | cancel ht | destroy ht => exact .inl (hi.setCall (mayCall_idle ht).1 (.inr rfl) rfl rfl rfl)
  | cancelScheduled hc | cancelFailed hc | cancelRunning hc | pushUnlock hc | stopLock hc
  | stopStore hc | stopUnlock hc => exact .inl (hi.setCall hc (.inr rfl) rfl rfl rfl)
  | pushLock hc => exact .inl (hi.setCall (y:=.push _) hc (.inl rfl) rfl rfl rfl)
  | @push t x hc =>
    rcases hi.pushed rfl (fun u z hz h => .of_set hz rfl h) id with rfl | hi
    · exact .inl (.call t _ hc rfl)
    · exact .inl hi
  | pushNotify hc | stopNotify hc => exact .inl (hi.setCall hc (.inr rfl) rfl rfl (by simp))
  | stopJoin hc =>
    cases hi with
    | heap h => cases h
    | call u z hz h => exact .inl (.of_set hz rfl h)
    | timer h => exact .inl (.timer h)
  | pop ht hp =>
    have hitems := (MinHeap.pop_spec H hp).2
    cases hi with
    | heap h => exact .inl (.heap (hitems.mem_iff.mpr (List.mem_cons_of_mem _ h)))
    | call u z hz h => exact .inl (.call u z hz h)
    | timer h =>
      obtain rfl := Option.some.inj h
      exact .inl (.heap (hitems.mem_iff.mpr (List.mem_cons_self ..)))
  | @slide now x ht =>
    rcases hi.pushed rfl (fun u z hz h => .call u z hz h) (fun h => nomatch h) with rfl | hi
    · exact .inr (.inr ⟨rfl,x,by rw [ht]; rfl,rfl⟩)
    · exact .inl hi
  | @reinsert now x ht =>
    rcases hi.pushed rfl (fun u z hz h => .call u z hz h) (fun h => by rw [ht]; exact h) with
      rfl | hi
    · exact .inr (.inr ⟨rfl,x,by rw [ht]; rfl,rfl⟩)
    · exact .inl hi
  | timerStop ht =>
    refine .inl (hi.frame rfl rfl ?_)
    rcases ht with ht | ht <;> rw [ht] <;> rfl
  | timerLock ht | timerAwake ht | timerBlock ht | timerGo ht | waitUntil ht | relock ht
  | timerGoUntil ht | now ht | passEnd ht | overlap ht | queue ht | oneShot ht | skip ht
  | noOverlap ht | dispatch ht => exact .inl (hi.frame rfl rfl (by rw [ht]; rfl))
  | discard ht | added ht =>
    cases hi with
    | heap h => exact .inl (.heap h)
    | call u z hz h => exact .inl (.call u z hz h)
    | timer h => cases h
  | wake => exact .inl (hi.frame rfl rfl (by simp))

/-! ## Runs -/

theorem Exact.mono (h : Exact steps item) (hs : steps ⊆ steps') : Exact steps' item := by
  obtain ⟨q,hq,ho⟩ := h
  exact ⟨q,hs hq,ho⟩

/-- What the timer thread has popped is due, by a clock reading that lies in the past. -/
def Timer.Punctual (clock : ℤ) : Timer → Prop
  | .pass t => t ≤ clock
  | .popped t item | .overlap t item | .slide t item | .reinsert t item | .dispatch t item
  | .adding t item => t ≤ clock ∧ item.nextFireTime ≤ t
  | _ => True

theorem Timer.Punctual.mono {k : Timer} {clock' : ℤ} (h : k.Punctual clock)
    (hle : clock ≤ clock') : k.Punctual clock' := by
  cases k with
  | pass t => exact le_trans h hle
  | popped | overlap | slide | reinsert | dispatch | adding => exact ⟨le_trans h.1 hle,h.2⟩
  | _ => trivial

theorem punctual_notified {k : Timer} : k.notified.Punctual clock ↔ k.Punctual clock := by
  cases k <;> rfl

theorem step_punctual (hi : s.timer.Punctual s.clock) (h : step H s a = some s') :
    s'.timer.Punctual s'.clock := by
  cases step_cases h with
  | runner | started | refused | completed | finish | external | schedule | cancel | destroy
  | cancelScheduled | cancelFailed | cancelRunning | pushLock | push | pushUnlock | stopLock
  | stopStore | stopUnlock | stopJoin => exact hi
  | pushNotify | stopNotify | wake => exact punctual_notified.mpr hi
  | timerLock | timerAwake | timerBlock | timerStop | timerGo | waitUntil | relock | timerGoUntil
  | passEnd => trivial
  | now => exact le_refl s.clock
  | pop ht hp hd =>
    rw [ht] at hi
    exact ⟨hi,hd⟩
  | discard ht | slide ht | added ht =>
    rw [ht] at hi
    exact hi.1
  | overlap ht | queue ht | oneShot ht | skip ht | noOverlap ht | reinsert ht | dispatch ht =>
    rw [ht] at hi
    exact hi
  | @tick d => exact hi.mono (le_add_of_nonneg_right (Int.natCast_nonneg d))

theorem clock_le (h : step H s a = some s') : s.clock ≤ s'.clock := by
  cases step_cases h with
  | @tick d => exact le_add_of_nonneg_right (Int.natCast_nonneg d)
  | _ => exact le_refl s.clock

/-- A step without overflow makes exact items of exact items. -/
theorem step_exact (hclock : 0 ≤ s.clock)
    (hsteps : ∀ q ∈ steps, 0 ≤ q.1.clock ∧ q.2.Admissible)
    (hexact : ∀ item, s.Holds item → Exact steps item) (hadm : a.Admissible)
    (hno : ¬Overflows s a) (h : step H s a = some s') (hi : s'.Holds item) :
    Exact (steps ++ [(s,a)]) item := by
  rcases step_holds h hi with hi | ⟨t,r,rfl,rfl⟩ | ⟨rfl,x,hback,rfl⟩
  · exact (hexact item hi).mono (List.subset_append_left _ _)
  · have hdue : r.due s.clock 0 < 2^63 := not_le.mp hno
    exact ⟨(s,.schedule t r),by simp,t,r,0,rfl,rfl,stored_eq_due hadm hclock _ hdue⟩
  · obtain ⟨q,hq,t,r,k,hschedule,rfl,hfire⟩ := hexact x (.timer (item?_of_putBack? hback))
    obtain ⟨hc,hr⟩ := hsteps q hq
    rw [hschedule] at hr
    -- the sum that is stored is the next due time
    have hlt : r.due q.1.clock (k+1) < 2^63 := by
      have hsum : ¬2^63 ≤ (ScheduledItem.next^[k] (r.item q.1.clock q.1.allocated)).nextFireTime +
          (ScheduledItem.next^[k] (r.item q.1.clock q.1.allocated)).period :=
        fun hle => hno ⟨_,hback,hle⟩
      rw [hfire,ScheduledItem.period_iterate,← Request.due_succ] at hsum
      exact not_le.mp hsum
    have hstored := stored_eq_due hr hc q.1.allocated hlt
    rw [Request.stored,iterate_succ_apply'] at hstored
    refine ⟨q,List.mem_append_left _ hq,t,r,k+1,hschedule,?_,hstored⟩
    rw [iterate_succ_apply']

/-- In a run without overflow every item is exact, wherever it is. -/
theorem exact_of_run {workers outside : ℕ} (h : Run (step H) (init workers outside) steps s)
    (hadm : ∀ p ∈ steps, p.2.Admissible) (hno : ∀ p ∈ steps, ¬Overflows p.1 p.2) :
    0 ≤ s.clock ∧ s.timer.Punctual s.clock ∧ (∀ q ∈ steps, 0 ≤ q.1.clock ∧ q.2.Admissible) ∧
      ∀ item, s.Holds item → Exact steps item := by
  induction h with
  | refl =>
    refine ⟨le_refl (0:ℤ),trivial,by simp,fun item hi => ?_⟩
    cases hi with
    | heap h => cases h
    | call t x hx h =>
      obtain rfl := List.eq_of_mem_replicate (List.mem_of_getElem? hx)
      cases h
    | timer h => cases h
  | @next steps s a s' before hs ih =>
    obtain ⟨hclock,hpunctual,hsteps,hexact⟩ := ih (fun p hp => hadm p (List.mem_append_left _ hp))
      fun p hp => hno p (List.mem_append_left _ hp)
    have hadm' := hadm (s,a) (by simp)
    refine ⟨le_trans hclock (clock_le hs),step_punctual hpunctual hs,?_,fun item hi =>
      step_exact hclock hsteps hexact hadm' (hno (s,a) (by simp)) hs hi⟩
    intro q hq
    rcases List.mem_append.mp hq with hq | hq
    · exact hsteps q hq
    · obtain rfl := List.mem_singleton.mp hq
      exact ⟨hclock,hadm'⟩

theorem handedOver_cases {q : State × Act} (h : handedOver q = some item) :
    ∃ now, q.1.timer = .dispatch now item ∧ q.2 = .timer := by
  unfold handedOver at h
  split at h
  · split at h
    · rename_i hk
      obtain rfl := Option.some.inj h
      exact ⟨_,hk,rfl⟩
    · cases h
  · cases h

/-- The fire times in the heap keep up with the clock reading, the delay and the elapsed periods
if and only if their sum is a time point. In a run without overflow every fire time in the
heap is exact, and nothing is handed to the pool before the time that was asked for. -/
theorem elapsed_iff (H : Algorithms ScheduledItem.nextFireTime) (workers outside : ℕ) :
    (∀ (clock : ℤ) (r : Request) (n k : ℕ), 0 ≤ clock → clock < 2^63 → r.Admissible →
      ((∀ j ≤ k, r.due clock j ≤ r.stored clock n j ∨ r.stored clock n j = 2^63-1) ↔
        r.due clock k < 2^63)) ∧
    ∀ e : Execution (step H) (init workers outside), (∀ p ∈ e.steps, p.2.Admissible) →
      (∀ p ∈ e.steps, ¬Overflows p.1 p.2) →
      (∀ s ∈ e.visited, ∀ item ∈ s.heap.items, Exact e.steps item) ∧
      ∀ p ∈ e.steps, ∀ item, handedOver p = some item →
        ∃ q ∈ e.steps, ∃ t r k, q.2 = .schedule t r ∧
          item = ScheduledItem.next^[k] (r.item q.1.clock q.1.allocated) ∧
          r.due q.1.clock k ≤ p.1.clock := by
  refine ⟨fun clock r n k hc hc' hr => stored_iff hr hc hc' n k,fun e hadm hno => ⟨?_,?_⟩⟩
  · apply e.forall_visited (I:=fun s => ∀ item ∈ s.heap.items, Exact e.steps item)
    intro steps s hp hrun item hi
    have hrun := exact_of_run hrun (fun p h => hadm p (hp.subset h)) fun p h => hno p (hp.subset h)
    exact (hrun.2.2.2 item (.heap hi)).mono hp.subset
  · intro p hp item hhand
    obtain ⟨before,after,he,hrun⟩ := e.split hp
    have hsub : before ⊆ e.steps := he ▸ List.subset_append_left _ _
    obtain ⟨-,hpunctual,-,hexact⟩ :=
      exact_of_run hrun (fun q h => hadm q (hsub h)) fun q h => hno q (hsub h)
    obtain ⟨now,ht,-⟩ := handedOver_cases hhand
    obtain ⟨q,hq,t,r,k,hschedule,hitem,hfire⟩ := hexact item (.timer (by rw [ht]; rfl))
    rw [ht] at hpunctual
    refine ⟨q,hsub hq,t,r,k,hschedule,hitem,?_⟩
    rw [← hfire]
    exact le_trans hpunctual.2 hpunctual.1

/-- A repeating task is scheduled, put back after its first occurrence and handed over. -/
def rearmed : Execution (step (insertionAlgorithms _)) (init 1 1) :=
  .ofLabels [.tick 5,.schedule 2 (.repeating 0 10 .queue),.call 2,.call 2,.call 2,.call 2,
    .timer,.timer,.timer,.timer,.timerWake,.timer,.timer,.timer,.timer,.timer,.timer,.timer]
    (by decide)

theorem rearmed_elapsed :
    ((∀ j ≤ 3, (Request.after 7).due 5 j ≤ (Request.after 7).stored 5 0 j ∨
      (Request.after 7).stored 5 0 j = 2^63-1) ↔ (Request.after 7).due 5 3 < 2^63) ∧
    (∀ s ∈ rearmed.visited, ∀ item ∈ s.heap.items, Exact rearmed.steps item) ∧
    ∀ p ∈ rearmed.steps, ∀ item, handedOver p = some item →
      ∃ q ∈ rearmed.steps, ∃ t r k, q.2 = .schedule t r ∧
        item = ScheduledItem.next^[k] (r.item q.1.clock q.1.allocated) ∧
        r.due q.1.clock k ≤ p.1.clock :=
  ⟨(elapsed_iff (insertionAlgorithms _) 1 1).1 5 (.after 7) 0 3 (by decide) (by decide) (by decide),
    (elapsed_iff (insertionAlgorithms _) 1 1).2 rearmed (by decide) (by decide)⟩

/-- `Duration::max()` is asked for at the clock reading 1, and the timer gets to `AddTask` at
once. -/
def delayMax : Execution (step (insertionAlgorithms _)) (init 1 1) :=
  .ofLabels [.tick 1,.schedule 2 (.after (2^63-1)),.call 2,.call 2,.call 2,.call 2,
    .timer,.timer,.timer,.timer,.timerWake,.timer,.timer,.timer,.timer,.timer,.timer] (by decide)

theorem delayMax_fires_early :
    ¬((Request.after (2^63-1)).due 1 0 ≤ (Request.after (2^63-1)).stored 1 0 0 ∨
      (Request.after (2^63-1)).stored 1 0 0 = 2^63-1) ∧
    ∃ p ∈ delayMax.steps, handedOver p = some ((Request.after (2^63-1)).item 1 0) ∧
      p.1.clock = 1 ∧ p.1.clock < (Request.after (2^63-1)).due 1 0 := by
  decide

end Blush.TaskScheduler
