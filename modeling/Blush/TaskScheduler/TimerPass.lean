import Blush.TaskScheduler.Cadence

/-! Phase 3 within the whole system. Whatever the other threads do while the timer thread is in
the loop, it executes iterations of the loop on the heap it found. -/
namespace Blush.TaskScheduler
open Function Heap Transition
variable {H : Algorithms ScheduledItem.nextFireTime} {now : TimePoint} {s s' : State} {a : Act}
  {heap : MinHeap ScheduledItem.nextFireTime} {item : ScheduledItem} {p p' : Pass} {l : Loads}
  {done : List ScheduledItem}

/-- The item that a step of the timer thread hands to the pool. -/
def handedOver : State × Act → Option ScheduledItem
  | (s,.timer) =>
    match s.timer with
    | .dispatch _ item => some item
    | _ => none
  | _ => none

/-- An item has been popped and waits for its turn. -/
structure Popped (H : Algorithms ScheduledItem.nextFireTime) (now : TimePoint) (s : State)
    (p : Pass) (done : List ScheduledItem) (item : ScheduledItem) : Prop where
  pop : p.heap.pop H = some (item,s.heap)
  due : item.nextFireTime ≤ now
  handed : done = p.handed

/-- The timer thread is in the loop and its iterations have led to `p`; the iteration that hands
an item over counts as complete when it gets to `AddTask`. The items in `done` have been handed
over. -/
inductive Inside (H : Algorithms ScheduledItem.nextFireTime) (now : TimePoint) (s : State)
    (p : Pass) (done : List ScheduledItem) : Prop
  | head (ht : s.timer = .pass now) (hh : s.heap = p.heap) (hd : done = p.handed)
  | popped {item : ScheduledItem} (ht : s.timer = .popped now item) (hp : Popped H now s p done item)
  | overlap {item : ScheduledItem} (ht : s.timer = .overlap now item)
      (hp : Popped H now s p done item) (hr : item.repeating = true) (hs : item.policy = .skip)
  | slide {item : ScheduledItem} (ht : s.timer = .slide now item) (hp : Popped H now s p done item)
      (hr : item.repeating = true) (hs : item.policy = .skip)
  | reinsert {item : ScheduledItem} (ht : s.timer = .reinsert now item)
      (hp : Popped H now s p done item) (hr : item.repeating = true)
  | dispatch {item : ScheduledItem} (ht : s.timer = .dispatch now item) (hh : s.heap = p.heap)
      (hd : done ++ [item] = p.handed)
  | adding {item : ScheduledItem} (ht : s.timer = .adding now item) (hh : s.heap = p.heap)
      (hd : done = p.handed)

/-- While the timer thread holds the mutex nobody else moves it or touches the heap. -/
theorem timer_frame (hl : s.Locked) (ht : s.timer.holds = true) (h : step H s a = some s')
    (ha : a ≠ .timer) : s'.timer = s.timer ∧ s'.heap = s.heap := by
  have hn : s.timer.notified = s.timer := by
    cases hk : s.timer <;> simp_all [Timer.holds,Timer.notified]
  cases step_cases h with
  | push hc =>
    have hm := (hl.timer ht).symm.trans (hl.call _ _ hc rfl)
    cases hm
  | stopJoin hc he =>
    cases hk : s.timer <;> simp_all [Timer.holds,Timer.isExited]
  | pushNotify | stopNotify => exact ⟨hn,rfl⟩
  | wake => exact ⟨hn,rfl⟩
  | timerLock | timerAwake | timerBlock | timerStop | timerGo | waitUntil | relock | timerGoUntil
  | now | pop | passEnd | discard | overlap | queue | oneShot | skip | noOverlap | slide
  | reinsert | dispatch | added => exact absurd rfl ha
  | _ => exact ⟨rfl,rfl⟩

theorem Inside.holds (h : Inside H now s p done) : s.timer.holds = true := by
  cases h with
  | head ht | popped ht | overlap ht | slide ht | reinsert ht | dispatch ht | adding ht =>
    rw [ht]
    rfl

theorem Inside.ne_wait (h : Inside H now s p done) : s.timer ≠ .wait := by
  cases h with
  | head ht | popped ht | overlap ht | slide ht | reinsert ht | dispatch ht | adding ht => simp [ht]

theorem Inside.congr (h : Inside H now s p done) (ht : s'.timer = s.timer)
    (hh : s'.heap = s.heap) : Inside H now s' p done := by
  have hpop : ∀ item, Popped H now s p done item → Popped H now s' p done item :=
    fun item hp => ⟨hh ▸ hp.pop,hp.due,hp.handed⟩
  cases h with
  | head hk he hd => exact .head (ht.trans hk) (hh.trans he) hd
  | popped hk hp => exact .popped (ht.trans hk) (hpop _ hp)
  | overlap hk hp hr hs => exact .overlap (ht.trans hk) (hpop _ hp) hr hs
  | slide hk hp hr hs => exact .slide (ht.trans hk) (hpop _ hp) hr hs
  | reinsert hk hp hr => exact .reinsert (ht.trans hk) (hpop _ hp) hr
  | dispatch hk he hd => exact .dispatch (ht.trans hk) (hh.trans he) hd
  | adding hk he hd => exact .adding (ht.trans hk) (hh.trans he) hd

/-- One iteration with a given pop. -/
theorem Popped.iteration (hp : Popped H now s p done item) (l : Loads) :
    iteration H now p l = some (
      if l.first = .cancelled then { heap := s.heap, turns := p.turns ++ [(item,.discarded)] }
      else if item.repeating then
        if item.policy = .skip ∧ l.second = .running then
          { heap := s.heap.push H item.next, turns := p.turns ++ [(item,.skipped)] }
        else { heap := s.heap.push H item.next, turns := p.turns ++ [(item,.dispatched)] }
      else { heap := s.heap, turns := p.turns ++ [(item,.dispatched)] }) := by
  have hfront := (MinHeap.pop_spec H hp.pop).1
  unfold TaskScheduler.iteration
  rw [if_pos (by simpa [hfront] using hp.due),hp.pop]
  rfl

/-- Where the timer thread stands in its iteration, counted in steps of its own from the head of
the loop; after the hand-over the count is from the next head. -/
def Timer.progress : Timer → ℤ
  | .popped .. => 1
  | .overlap .. => 2
  | .slide .. | .reinsert .. => 3
  | .dispatch .. => -2
  | .adding .. => -1
  | _ => 0

/-- A step of the timer thread that stays in the loop: within the current iteration, or to the end
of it. No iteration takes more than six steps. -/
def Advances (H : Algorithms ScheduledItem.nextFireTime) (now : TimePoint) (s s' : State)
    (p : Pass) (done : List ScheduledItem) : Prop :=
  ∃ p', (p' = p ∨ ∃ l, iteration H now p l = some p') ∧ Inside H now s' p' done ∧
    6*p.turns.length+s.timer.progress < 6*p'.turns.length+s'.timer.progress

theorem Inside.stays (hi : Inside H now s' p done) (ht : s.timer.progress < s'.timer.progress) :
    Advances H now s s' p done := ⟨p,.inl rfl,hi,by omega⟩

theorem Inside.completes (hi : Inside H now s' p' done) (hp : iteration H now p l = some p')
    (ht : s.timer.progress < 6+s'.timer.progress) : Advances H now s s' p done := by
  obtain ⟨x,rest,-,-,hturns,-⟩ := iteration_spec hp
  refine ⟨p',.inr ⟨l,hp⟩,hi,?_⟩
  rw [hturns,List.length_append,List.length_singleton]
  push_cast
  omega

/-- At the head of the loop: it ends when no entry is due. -/
theorem head_step (ht : s.timer = .pass now) (hh : s.heap = p.heap) (hd : done = p.handed)
    (h : timerStep H s = some s') :
    (s'.timer = .wait ∧ p.Ended now ∧ s'.heap = p.heap) ∨ Advances H now s s' p done := by
  simp only [timerStep,ht] at h
  split at h
  · rename_i hdue
    obtain ⟨⟨item,rest⟩,hpop,rfl⟩ := Option.map_eq_some_iff.mp h
    rw [hh] at hdue hpop
    have hfront := (MinHeap.pop_spec H hpop).1
    right
    refine Inside.stays (.popped rfl ⟨hpop,by simpa [hfront] using hdue,hd⟩) ?_
    simp [ht,Timer.progress]
  · rename_i hdue
    cases h
    rw [hh] at hdue
    exact .inl ⟨rfl,by simpa [Pass.Ended] using hdue,hh⟩

/-- The first load decides whether the item is discarded. -/
theorem popped_step (ht : s.timer = .popped now item) (hp : Popped H now s p done item)
    (h : timerStep H s = some s') : Advances H now s s' p done := by
  simp only [timerStep,ht] at h
  split at h
  · cases h
    refine Inside.completes (.head rfl rfl ?_) (hp.iteration ⟨.cancelled,.scheduled⟩) ?_
    · simp [Pass.handed,hp.handed]
    · simp [ht,Timer.progress,State.record]
  · split at h
    · rename_i hr
      split at h
      · rename_i hs
        cases h
        refine Inside.stays (.overlap rfl ⟨hp.pop,hp.due,hp.handed⟩ hr hs) ?_
        simp [ht,Timer.progress]
      · cases h
        refine Inside.stays (.reinsert rfl ⟨hp.pop,hp.due,hp.handed⟩ hr) ?_
        simp [ht,Timer.progress]
    · rename_i hr
      cases h
      refine Inside.completes (.dispatch rfl ?_ ?_) (hp.iteration ⟨.scheduled,.scheduled⟩) ?_
      · simp [hr]
      · simp [Pass.handed,hp.handed,hr]
      · simp [ht,Timer.progress]

/-- The second load decides whether the occurrence is skipped. -/
theorem overlap_step (ht : s.timer = .overlap now item) (hp : Popped H now s p done item)
    (hr : item.repeating = true) (hs : item.policy = .skip) (h : timerStep H s = some s') :
    Advances H now s s' p done := by
  simp only [timerStep,ht] at h
  split at h
  · cases h
    refine Inside.stays (.slide rfl ⟨hp.pop,hp.due,hp.handed⟩ hr hs) ?_
    simp [ht,Timer.progress]
  · cases h
    refine Inside.stays (.reinsert rfl ⟨hp.pop,hp.due,hp.handed⟩ hr) ?_
    simp [ht,Timer.progress]

theorem slide_step (ht : s.timer = .slide now item) (hp : Popped H now s p done item)
    (hr : item.repeating = true) (hs : item.policy = .skip) (h : timerStep H s = some s') :
    Advances H now s s' p done := by
  simp only [timerStep,ht] at h
  cases h
  refine Inside.completes (.head rfl ?_ ?_) (hp.iteration ⟨.scheduled,.running⟩) ?_
  · simp [hr,hs,State.record]
  · simp [Pass.handed,hp.handed,hr,hs]
  · simp [ht,Timer.progress,State.record]

theorem reinsert_step (ht : s.timer = .reinsert now item) (hp : Popped H now s p done item)
    (hr : item.repeating = true) (h : timerStep H s = some s') : Advances H now s s' p done := by
  simp only [timerStep,ht] at h
  cases h
  refine Inside.completes (.dispatch rfl ?_ ?_) (hp.iteration ⟨.scheduled,.scheduled⟩) ?_
  · simp [hr,State.record]
  · simp [Pass.handed,hp.handed,hr]
  · simp [ht,Timer.progress,State.record]

theorem dispatch_step (ht : s.timer = .dispatch now item) (hh : s.heap = p.heap)
    (hd : done ++ [item] = p.handed) (h : timerStep H s = some s') :
    Advances H now s s' p (done ++ [item]) := by
  simp only [timerStep,ht] at h
  obtain ⟨r,-,rfl⟩ := Option.map_eq_some_iff.mp h
  refine Inside.stays (.adding rfl hh hd) ?_
  simp [ht,Timer.progress]

theorem adding_step (ht : s.timer = .adding now item) (hh : s.heap = p.heap)
    (hd : done = p.handed) (h : timerStep H s = some s') : Advances H now s s' p done := by
  simp only [timerStep,ht] at h
  split at h
  · cases h
    refine Inside.stays (.head rfl hh hd) ?_
    simp [ht,Timer.progress]
  · cases h

/-- A step of the timer thread in the loop leaves it when no entry is due, or gets on with it. -/
theorem timer_inside (hi : Inside H now s p done) (h : step H s .timer = some s') :
    (s'.timer = .wait ∧ p.Ended now ∧ s'.heap = p.heap ∧ done = p.handed) ∨
    Advances H now s s' p (done ++ (handedOver (s,.timer)).toList) := by
  have hnone : (∀ now item, s.timer ≠ .dispatch now item) →
      done ++ (handedOver (s,.timer)).toList = done := by
    intro hne
    unfold handedOver
    split <;> simp_all
  cases hi with
  | head ht hh hd =>
    rw [hnone (by simp [ht])]
    rcases head_step ht hh hd h with ⟨hw,he,hq⟩ | ha
    · exact .inl ⟨hw,he,hq,hd⟩
    · exact .inr ha
  | popped ht hp =>
    rw [hnone (by simp [ht])]
    exact .inr (popped_step ht hp h)
  | overlap ht hp hr hs =>
    rw [hnone (by simp [ht])]
    exact .inr (overlap_step ht hp hr hs h)
  | slide ht hp hr hs =>
    rw [hnone (by simp [ht])]
    exact .inr (slide_step ht hp hr hs h)
  | reinsert ht hp hr =>
    rw [hnone (by simp [ht])]
    exact .inr (reinsert_step ht hp hr h)
  | @dispatch item ht hh hd =>
    have hsome : handedOver (s,.timer) = some item := by simp only [handedOver,ht]
    rw [hsome]
    exact .inr (dispatch_step ht hh hd h)
  | adding ht hh hd =>
    rw [hnone (by simp [ht])]
    exact .inr (adding_step ht hh hd h)

/-- What a run of the whole system does while the timer thread is in the loop: a run of the loop,
in which the closures handed over are those of the run and the steps of the timer thread are
bounded by the number of iterations. -/
theorem run_inside {steps : List (State × Act)} (hl : s.Locked) (ht : s.timer = .pass now)
    (hrun : Run (step H) s steps s') (hin : ∀ q ∈ steps, q.1.timer ≠ .wait)
    (hlast : s'.timer ≠ .wait) :
    s'.Locked ∧ ∃ iterations p,
      Run (iteration H now) { heap := s.heap, turns := [] } iterations p ∧
      Inside H now s' p (steps.filterMap handedOver) ∧
      ((steps.countP fun q => q.2 = .timer : ℕ) : ℤ) ≤ 6*p.turns.length+s'.timer.progress := by
  induction hrun with
  | refl =>
    refine ⟨hl,[],_,.refl,.head ht rfl rfl,?_⟩
    simp [ht,Timer.progress]
  | @next steps t a t' before hs ih =>
    obtain ⟨hlt,iterations,p,hrun,hi,hcount⟩ :=
      ih (fun q hq => hin q (List.mem_append_left _ hq)) (hin (t,a) (by simp))
    refine ⟨step_locked hlt hs,?_⟩
    rw [List.filterMap_append,List.countP_append]
    by_cases ha : a = .timer
    · subst ha
      rcases timer_inside hi hs with ⟨hw,-⟩ | ⟨p',hp,hi',hlt⟩
      · exact absurd hw hlast
      · have hi'' : Inside H now t' p' (steps.filterMap handedOver ++
            [(t,Act.timer)].filterMap handedOver) := by
          cases ho : handedOver (t,.timer) <;> simpa [ho] using hi'
        have hcount' : ((steps.countP fun q => q.2 = .timer : ℕ) : ℤ)+1 ≤
            6*p'.turns.length+t'.timer.progress := by omega
        rcases hp with rfl | ⟨l,hp⟩
        · exact ⟨iterations,p',hrun,hi'',by simpa using hcount'⟩
        · exact ⟨_,p',hrun.next hp,hi'',by simpa using hcount'⟩
    · obtain ⟨hk,hh⟩ := timer_frame hlt hi.holds hs ha
      have hnone : handedOver (t,a) = none := by
        unfold handedOver
        split <;> simp_all
      refine ⟨iterations,p,hrun,?_,?_⟩
      · simpa [hnone] using hi.congr hk hh
      · simpa [ha,hk] using hcount

/-- A run of the loop is the loop with the loads of the run. -/
theorem Pass.after_of_run {iterations : List (Pass × Loads)}
    (h : Run (iteration H now) { heap, turns := [] } iterations p) {loads : ℕ → Loads}
    (hl : ∀ (k : ℕ) (q : Pass × Loads), iterations[k]? = some q → loads k = q.2) :
    Pass.after H now loads heap iterations.length = p ∧ p.turns.length = iterations.length := by
  induction h with
  | refl => exact ⟨rfl,rfl⟩
  | @next iterations p l p' before hp ih =>
    obtain ⟨hafter,hlen⟩ := ih fun k q hk => hl k q (by
      rw [List.getElem?_append_left (List.getElem?_eq_some_iff.mp hk).1]
      exact hk)
    have hload : loads p.turns.length = l := hl _ (p,l) (by simp [hlen])
    obtain ⟨x,rest,-,-,hturns,-⟩ := iteration_spec hp
    rw [List.length_append,List.length_singleton]
    constructor
    · rw [Pass.after_succ,hafter,Pass.advance,hload,hp]
      rfl
    · rw [hturns,List.length_append,hlen]
      rfl

/-- The number of iterations of a run of the loop is bounded beforehand. -/
theorem turns_le_rounds {iterations : List (Pass × Loads)}
    (hs : ∀ item ∈ heap.items, item.repeating = true → item.Settles now)
    (h : Run (iteration H now) { heap, turns := [] } iterations p) :
    p.turns.length ≤ Pass.rounds now { heap, turns := [] } := by
  have hinv := h.invariant (I:=fun p =>
    (∀ item ∈ p.heap.items, item.repeating = true → item.Settles now) ∧
      p.turns.length+p.rounds now ≤ Pass.rounds now { heap, turns := [] }) ⟨hs,by simp⟩
    fun p l p' hi hp => by
      obtain ⟨x,rest,-,-,hturns,-⟩ := iteration_spec hp
      have hlt := iteration_rounds hi.1 hp
      refine ⟨iteration_settles hi.1 hp,?_⟩
      rw [hturns,List.length_append,List.length_singleton]
      have hle := hi.2
      omega
  exact (Nat.le_add_right _ _).trans hinv.2

variable {steps : List (State × Act)}

/-- When every repeating item of the heap settles, the number of steps the timer thread can take
in the loop is bounded when it enters the loop, whatever the other threads do. -/
theorem timer_steps_bounded (hl : s.Locked) (ht : s.timer = .pass now)
    (hs : ∀ item ∈ s.heap.items, item.repeating = true → item.Settles now)
    (hrun : Run (step H) s steps s') (hin : ∀ q ∈ steps, q.1.timer ≠ .wait)
    (hlast : s'.timer ≠ .wait) :
    (steps.countP fun q => q.2 = .timer) ≤
      6*Pass.rounds now { heap := s.heap, turns := [] }+3 := by
  obtain ⟨-,iterations,p,hp,-,hcount⟩ := run_inside hl ht hrun hin hlast
  have hle := turns_le_rounds hs hp
  have hprogress : s'.timer.progress ≤ 3 := by
    unfold Timer.progress
    split <;> decide
  omega

/-- When the timer thread leaves the loop it has made the pass over the heap it found, and the
closures handed over in the meantime are those of the pass. -/
theorem timer_pass (hl : s.Locked) (ht : s.timer = .pass now) (hrun : Run (step H) s steps s')
    (hin : ∀ q ∈ steps, q.1.timer ≠ .wait) (hlast : s'.timer ≠ .wait) {a : Act} {t : State}
    (hs : step H s' a = some t) (hw : t.timer = .wait) :
    ∃ loads n, (Pass.after H now loads s.heap n).Ended now ∧
      t.heap = (Pass.after H now loads s.heap n).heap ∧
      steps.filterMap handedOver = (Pass.after H now loads s.heap n).handed := by
  obtain ⟨hl',iterations,p,hp,hi,-⟩ := run_inside hl ht hrun hin hlast
  obtain ⟨loads,hloads⟩ : ∃ loads : ℕ → Loads,
      ∀ (k : ℕ) (q : Pass × Loads), iterations[k]? = some q → loads k = q.2 :=
    ⟨fun k => (iterations[k]?.map Prod.snd).getD ⟨.scheduled,.scheduled⟩,
      fun k q hk => by simp [hk]⟩
  obtain ⟨hafter,-⟩ := Pass.after_of_run hp hloads
  refine ⟨loads,iterations.length,?_⟩
  rw [hafter]
  by_cases ha : a = .timer
  · subst ha
    rcases timer_inside hi hs with ⟨-,he,hh,hd⟩ | ⟨p',-,hi',-⟩
    · exact ⟨he,hh,hd⟩
    · exact absurd hw hi'.ne_wait
  · obtain ⟨hk,-⟩ := timer_frame hl' hi.holds hs ha
    exact absurd (hk.symm.trans hw) hlast

/-- Without overflow every pass of the timer thread does the work of every entry. -/
theorem timer_pass_complete (hl : s.Locked) (ht : s.timer = .pass now)
    (hreg : ∀ item ∈ s.heap.items, item.repeating = true → item.Regular now)
    (hrun : Run (step H) s steps s') (hin : ∀ q ∈ steps, q.1.timer ≠ .wait)
    (hlast : s'.timer ≠ .wait) {a : Act} {t : State} (hs : step H s' a = some t)
    (hw : t.timer = .wait) :
    ∃ (loads : ℕ → Loads) (p : Pass), p.Complete now loads s.heap ∧ t.heap = p.heap ∧
      steps.filterMap handedOver = p.handed := by
  obtain ⟨loads,n,hend,hheap,hhanded⟩ := timer_pass hl ht hrun hin hlast hs hw
  exact ⟨loads,_,complete_of_ended hreg hend,hheap,hhanded⟩

end Blush.TaskScheduler
