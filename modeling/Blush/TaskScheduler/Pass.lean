import Blush.TaskScheduler.Mutex
import Mathlib.Order.Lattice.Nat

/-! Phase 3 of `Run` by itself: the loop that drains the due part of the heap and refills the
heap as it goes. It ends unless an item that is due never leaves the due part. -/
namespace Blush.TaskScheduler
open Function Heap MachineInt Transition

/-- What the `Status()` loads of one iteration return. The second one is not always made. -/
structure Loads where
  first : ScheduleStatus
  second : ScheduleStatus
  deriving DecidableEq, Repr

/-- What an iteration does with the item it popped. -/
inductive Turn
  | discarded
  | skipped
  | dispatched
  deriving DecidableEq, Repr

/-- The heap in the course of the loop, and what became of the items popped so far. -/
structure Pass where
  heap : MinHeap ScheduledItem.nextFireTime
  turns : List (ScheduledItem × Turn)

/-- The body of the loop; `none` when its condition fails. -/
def iteration (H : Algorithms ScheduledItem.nextFireTime) (now : TimePoint) (p : Pass)
    (l : Loads) : Option Pass :=
  if p.heap.front?.any (·.nextFireTime ≤ now) then
    (p.heap.pop H).map fun r =>
      if l.first = .cancelled then { heap := r.2, turns := p.turns ++ [(r.1,.discarded)] }
      else if r.1.repeating then
        if r.1.policy = .skip ∧ l.second = .running then
          { heap := r.2.push H r.1.next, turns := p.turns ++ [(r.1,.skipped)] }
        else { heap := r.2.push H r.1.next, turns := p.turns ++ [(r.1,.dispatched)] }
      else { heap := r.2, turns := p.turns ++ [(r.1,.dispatched)] }
  else none

/-- The next iteration, if there is one; the loads of an iteration go by its number. -/
def Pass.advance (H : Algorithms ScheduledItem.nextFireTime) (now : TimePoint)
    (loads : ℕ → Loads) (p : Pass) : Pass :=
  (iteration H now p (loads p.turns.length)).getD p

/-- The loop after `n` iterations, or where it ended before. -/
def Pass.after (H : Algorithms ScheduledItem.nextFireTime) (now : TimePoint)
    (loads : ℕ → Loads) (heap : MinHeap ScheduledItem.nextFireTime) (n : ℕ) : Pass :=
  (advance H now loads)^[n] { heap, turns := [] }

/-- The condition of the loop fails. -/
def Pass.Ended (now : TimePoint) (p : Pass) : Prop :=
  p.heap.front?.any (·.nextFireTime ≤ now) = false

/-- Whatever the loads return, the loop comes to its end. -/
def Terminates (H : Algorithms ScheduledItem.nextFireTime) (now : TimePoint)
    (heap : MinHeap ScheduledItem.nextFireTime) : Prop :=
  ∀ loads, ∃ n, (Pass.after H now loads heap n).Ended now

variable {H : Algorithms ScheduledItem.nextFireTime} {now : TimePoint} {loads : ℕ → Loads}
  {heap : MinHeap ScheduledItem.nextFireTime} {item x : ScheduledItem} {p p' : Pass} {l : Loads}

namespace ScheduledItem

/-- What becomes of a popped item, by the loads. -/
def turn (item : ScheduledItem) (l : Loads) : Turn :=
  if l.first = .cancelled then .discarded
  else if item.repeating ∧ item.policy = .skip ∧ l.second = .running then .skipped
  else .dispatched

/-- What is put back into the heap for a popped item. -/
def remains (item : ScheduledItem) (t : Turn) : List ScheduledItem :=
  if item.repeating = true ∧ t ≠ .discarded then [item.next] else []

end ScheduledItem

/-! ## One iteration -/

/-- Everything one iteration can do. -/
theorem iteration_spec (h : iteration H now p l = some p') :
    ∃ item rest, p.heap.pop H = some (item,rest) ∧ item.nextFireTime ≤ now ∧
      p'.turns = p.turns ++ [(item,item.turn l)] ∧
      p'.heap.items.Perm (item.remains (item.turn l) ++ rest.items) := by
  unfold iteration at h
  split at h
  · rename_i hdue
    obtain ⟨⟨item,rest⟩,hpop,rfl⟩ := Option.map_eq_some_iff.mp h
    have hfront := (MinHeap.pop_spec H hpop).1
    refine ⟨item,rest,hpop,by simpa [hfront] using hdue,?_⟩
    by_cases hc : l.first = .cancelled
    · simp [hc,ScheduledItem.turn,ScheduledItem.remains]
    · cases hr : item.repeating with
      | true =>
        by_cases hs : item.policy = .skip ∧ l.second = .running
        · simpa [hc,hr,hs,ScheduledItem.turn,ScheduledItem.remains] using rest.push_perm H item.next
        · simpa [hc,hr,hs,ScheduledItem.turn,ScheduledItem.remains] using rest.push_perm H item.next
      | false => simp [hc,hr,ScheduledItem.turn,ScheduledItem.remains]
  · cases h

/-- Every entry after an iteration was there before, or is the next recurrence of the front. -/
theorem iteration_mem (h : iteration H now p l = some p') :
    ∃ x ∈ p.heap.items, x.nextFireTime ≤ now ∧
      (∀ y ∈ p.heap.items, x.nextFireTime ≤ y.nextFireTime) ∧
      p'.turns = p.turns ++ [(x,x.turn l)] ∧
      ∀ y ∈ p'.heap.items, y ∈ p.heap.items ∨ x.repeating = true ∧ y = x.next := by
  obtain ⟨x,rest,hpop,hd,hturns,hperm⟩ := iteration_spec h
  obtain ⟨hfront,hitems⟩ := MinHeap.pop_spec H hpop
  refine ⟨x,hitems.mem_iff.mpr List.mem_cons_self,hd,MinHeap.front_le hfront,hturns,fun y hy => ?_⟩
  rcases List.mem_append.mp (hperm.mem_iff.mp hy) with hy | hy
  · unfold ScheduledItem.remains at hy
    split at hy
    · rename_i hk
      exact .inr ⟨hk.1,List.mem_singleton.mp hy⟩
    · cases hy
  · exact .inl (hitems.mem_iff.mpr (List.mem_cons_of_mem _ hy))

theorem iteration_isSome (h : ¬p.Ended now) : ∃ p', iteration H now p l = some p' := by
  have hdue : p.heap.front?.any (·.nextFireTime ≤ now) = true := by
    simpa [Pass.Ended] using h
  unfold iteration
  rw [if_pos hdue]
  cases hpop : p.heap.pop H with
  | none => simp [MinHeap.front?_of_pop_eq_none hpop] at hdue
  | some r => exact ⟨_,rfl⟩

/-- The loop ends when no entry is due. -/
theorem Pass.ended_iff : p.Ended now ↔ ∀ y ∈ p.heap.items, now < y.nextFireTime := by
  unfold Pass.Ended
  cases hf : p.heap.front? with
  | none =>
    have hnil : p.heap.items = [] := by simpa [MinHeap.front?] using hf
    simp [hnil]
  | some x =>
    have hmem : x ∈ p.heap.items := List.mem_of_mem_head? hf
    simp only [Option.any_some,decide_eq_false_iff_not,not_le]
    exact ⟨fun h y hy => h.trans_le (MinHeap.front_le hf y hy),fun h => h x hmem⟩

namespace Pass

theorem advance_ended (h : p.Ended now) : p.advance H now loads = p := by
  have hnone : iteration H now p (loads p.turns.length) = none := by
    unfold iteration
    rw [if_neg (by simpa [Ended] using h)]
  rw [advance,hnone]
  rfl

theorem advance_cases (h : ¬p.Ended now) :
    iteration H now p (loads p.turns.length) = some (p.advance H now loads) := by
  obtain ⟨p',hp⟩ := iteration_isSome (H:=H) (l:=loads p.turns.length) h
  rw [advance,hp]
  rfl

theorem after_succ (n : ℕ) :
    after H now loads heap (n+1) = (after H now loads heap n).advance H now loads :=
  iterate_succ_apply' _ n _

variable (H now loads heap) in
/-- What an iteration keeps holds throughout the loop. -/
theorem after_invariant {I : Pass → Prop} (hstart : I { heap, turns := [] })
    (hstep : ∀ p p', I p → iteration H now p (loads p.turns.length) = some p' → I p') (n : ℕ) :
    I (after H now loads heap n) := by
  induction n with
  | zero => exact hstart
  | succ n ih =>
    rw [after_succ]
    by_cases he : (after H now loads heap n).Ended now
    · rw [advance_ended he]
      exact ih
    · exact hstep _ _ ih (advance_cases he)

/-- A loop whose iterations make a number smaller ends. -/
theorem after_ended {I : Pass → Prop} {size : Pass → ℕ} (hstart : I { heap, turns := [] })
    (hstep : ∀ p p', I p → iteration H now p (loads p.turns.length) = some p' → I p')
    (hsize : ∀ p p', I p → iteration H now p (loads p.turns.length) = some p' → size p' < size p) :
    (after H now loads heap (size { heap, turns := [] })).Ended now := by
  have hbound : ∀ n, ¬(after H now loads heap n).Ended now →
      size (after H now loads heap n) + n ≤ size { heap, turns := [] } := by
    intro n
    induction n with
    | zero => intro _; exact le_rfl
    | succ n ih =>
      intro hn
      rw [after_succ] at hn ⊢
      by_cases he : (after H now loads heap n).Ended now
      · rw [advance_ended he] at hn
        exact absurd he hn
      · have hlt := hsize _ _ (after_invariant H now loads heap hstart hstep n) (advance_cases he)
        have hle := ih he
        omega
  by_contra hn
  -- one more iteration would make the number negative
  have hle := hbound _ hn
  have hlt := hsize _ _ (after_invariant H now loads heap hstart hstep _) (advance_cases hn)
  omega

end Pass

/-! ## Termination -/

/-- Some recurrence of the item is after the clock reading. -/
def ScheduledItem.Settles (now : TimePoint) (item : ScheduledItem) : Prop :=
  ∃ k, now < (ScheduledItem.next^[k] item).nextFireTime

/-- How many iterations can pop the item or a recurrence of it. -/
noncomputable def ScheduledItem.rounds (now : TimePoint) (item : ScheduledItem) : ℕ :=
  if item.repeating then sInf {k | now < (ScheduledItem.next^[k] item).nextFireTime} else 1

/-- How many iterations the pass can still make. -/
noncomputable def Pass.rounds (now : TimePoint) (p : Pass) : ℕ :=
  (p.heap.items.map (·.rounds now)).sum

namespace ScheduledItem

theorem Settles.next (h : item.Settles now) (hd : item.nextFireTime ≤ now) :
    item.next.Settles now := by
  obtain ⟨k,hk⟩ := h
  cases k with
  | zero => exact absurd hd (by simpa using hk)
  | succ k => exact ⟨k,by rwa [iterate_succ_apply] at hk⟩

theorem repeating_iterate (item : ScheduledItem) (k : ℕ) :
    (ScheduledItem.next^[k] item).repeating = item.repeating := by
  induction k with
  | zero => rfl
  | succ k ih => rw [iterate_succ_apply']; exact ih

theorem period_iterate (item : ScheduledItem) (k : ℕ) :
    (ScheduledItem.next^[k] item).period = item.period := by
  induction k with
  | zero => rfl
  | succ k ih => rw [iterate_succ_apply']; exact ih

/-- The fire time of a later recurrence, computed at once. -/
theorem nextFireTime_iterate (item : ScheduledItem) (k : ℕ) :
    (ScheduledItem.next^[k+1] item).nextFireTime =
      wrap 64 (item.nextFireTime+(k+1 : ℕ)*item.period) := by
  induction k with
  | zero => simp [ScheduledItem.next,TimePoint.add]
  | succ k ih =>
    rw [iterate_succ_apply']
    have hstep : (ScheduledItem.next (ScheduledItem.next^[k+1] item)).nextFireTime =
        wrap 64 ((ScheduledItem.next^[k+1] item).nextFireTime +
          (ScheduledItem.next^[k+1] item).period) := rfl
    rw [hstep,ih,period_iterate,wrap_add_wrap]
    congr 1
    push_cast
    ring

theorem rounds_next (hr : item.repeating = true) (h : item.Settles now)
    (hd : item.nextFireTime ≤ now) : item.next.rounds now < item.rounds now := by
  have hmem := Nat.sInf_mem (s:={k | now < (ScheduledItem.next^[k] item).nextFireTime}) h
  have hnext : item.next.repeating = true := hr
  simp only [rounds,hr,hnext,if_true]
  generalize sInf {k | now < (ScheduledItem.next^[k] item).nextFireTime} = n at hmem ⊢
  cases n with
  | zero => exact absurd hd (by simpa using hmem)
  | succ n =>
    apply Nat.lt_succ_of_le
    apply Nat.sInf_le
    simpa only [Set.mem_ofPred_eq,iterate_succ_apply] using hmem

end ScheduledItem

theorem iteration_settles (hi : ∀ item ∈ p.heap.items, item.repeating = true → item.Settles now)
    (h : iteration H now p l = some p') :
    ∀ item ∈ p'.heap.items, item.repeating = true → item.Settles now := by
  obtain ⟨x,hx,hd,-,-,hmem⟩ := iteration_mem h
  intro y hy hr
  rcases hmem y hy with hy | ⟨hxr,rfl⟩
  · exact hi y hy hr
  · exact (hi x hx hxr).next hd

theorem iteration_rounds (hi : ∀ item ∈ p.heap.items, item.repeating = true → item.Settles now)
    (h : iteration H now p l = some p') : p'.rounds now < p.rounds now := by
  obtain ⟨item,rest,hpop,hd,-,hperm⟩ := iteration_spec h
  have hitems := (MinHeap.pop_spec H hpop).2
  have hlt : ((item.remains (item.turn l)).map (·.rounds now)).sum < item.rounds now := by
    cases hr : item.repeating with
    | true =>
      have hs := hi item (hitems.mem_iff.mpr (List.mem_cons_self ..)) hr
      have hnext := ScheduledItem.rounds_next hr hs hd
      unfold ScheduledItem.remains
      split
      · simpa using hnext
      · exact Nat.zero_lt_of_lt hnext
    | false => simp [ScheduledItem.remains,ScheduledItem.rounds,hr]
  unfold Pass.rounds
  rw [(hperm.map _).sum_nat,(hitems.map _).sum_nat]
  simp only [List.map_append,List.sum_append,List.map_cons,List.sum_cons]
  omega

/-- The pass ends after a number of iterations that does not depend on the loads. -/
theorem ended_of_settles (hs : ∀ item ∈ heap.items, item.repeating = true → item.Settles now)
    (loads : ℕ → Loads) :
    (Pass.after H now loads heap (Pass.rounds now { heap, turns := [] })).Ended now :=
  Pass.after_ended (I:=fun p => ∀ item ∈ p.heap.items, item.repeating = true → item.Settles now) hs
    (fun _ _ => iteration_settles) fun _ _ => iteration_rounds

/-- A recurrence that is always due stays in the heap as long as the task is not cancelled. -/
theorem after_recurs (H : Algorithms ScheduledItem.nextFireTime) (now : TimePoint)
    (hx : item ∈ heap.items) (hr : item.repeating = true) (n : ℕ) :
    ∃ k, ScheduledItem.next^[k] item ∈
      (Pass.after H now (fun _ => ⟨.scheduled,.scheduled⟩) heap n).heap.items := by
  apply Pass.after_invariant H now _ heap
    (I:=fun p => ∃ k, ScheduledItem.next^[k] item ∈ p.heap.items)
  · exact ⟨0,hx⟩
  · rintro p p' ⟨k,hk⟩ h
    obtain ⟨x,rest,hpop,-,-,hperm⟩ := iteration_spec h
    have hitems := (MinHeap.pop_spec H hpop).2
    rcases List.mem_cons.mp (hitems.mem_iff.mp hk) with rfl | hk
    · refine ⟨k+1,hperm.mem_iff.mpr (List.mem_append_left _ ?_)⟩
      rw [iterate_succ_apply']
      simp [ScheduledItem.remains,ScheduledItem.turn,ScheduledItem.repeating_iterate,hr]
    · exact ⟨k,hperm.mem_iff.mpr (List.mem_append_right _ hk)⟩

theorem terminates_iff_settles : Terminates H now heap ↔
    ∀ item ∈ heap.items, item.repeating = true → item.Settles now := by
  constructor
  · intro h item hx hr
    obtain ⟨n,hn⟩ := h fun _ => ⟨.scheduled,.scheduled⟩
    obtain ⟨k,hk⟩ := after_recurs H now hx hr n
    exact ⟨k,Pass.ended_iff.mp hn _ hk⟩
  · intro h loads
    exact ⟨_,ended_of_settles h loads⟩

/-- The greatest fire time the recurrences of the item can reach: `+=` wraps around. -/
def ScheduledItem.latestFireTime (item : ScheduledItem) : TimePoint :=
  greatest 63 item.nextFireTime item.period

theorem settles_iff : item.Settles now ↔
    (item.nextFireTime ≤ now → now < item.latestFireTime) := by
  constructor
  · rintro ⟨k,hk⟩ hd
    cases k with
    | zero => exact absurd hd (by simpa using hk)
    | succ k =>
      rw [ScheduledItem.nextFireTime_iterate] at hk
      exact exists_lt_wrap_iff.mp ⟨k,hk⟩
  · intro h
    by_cases hd : item.nextFireTime ≤ now
    · obtain ⟨k,hk⟩ := exists_lt_wrap_iff.mpr (h hd)
      exact ⟨k+1,by rwa [ScheduledItem.nextFireTime_iterate]⟩
    · exact ⟨0,by simpa using hd⟩

/-- The pass ends if and only if every repeating item that is due has a recurrence that is
not. -/
theorem terminates_iff (H : Algorithms ScheduledItem.nextFireTime) (now : TimePoint)
    (heap : MinHeap ScheduledItem.nextFireTime) : Terminates H now heap ↔
    ∀ item ∈ heap.items, item.repeating = true → item.nextFireTime ≤ now →
      now < item.latestFireTime := by
  rw [terminates_iff_settles]
  simp only [settles_iff]

/-- A task is scheduled with the period zero, and the timer gets to phase 3. -/
def zeroPeriod : Execution (step (insertionAlgorithms _)) (init 1 1) :=
  .ofLabels [.schedule 2 (.every 0),.call 2,.call 2,.call 2,.call 2,
    .timer,.timer,.timer,.timer,.timerWake,.timer,.timer,.timer] (by decide)

/-- The occurrences of the task are due for ever, so the timer never leaves the loop. -/
theorem zeroPeriod_not_terminates : zeroPeriod.final.timer = .pass 0 ∧
    ¬Terminates (insertionAlgorithms _) 0 zeroPeriod.final.heap := by
  refine ⟨by decide,fun h => ?_⟩
  have hmem : (Request.every 0).item 0 0 ∈ zeroPeriod.final.heap.items := by decide
  have hs := settles_iff.mp (terminates_iff_settles.mp h _ hmem rfl) (by decide)
  exact absurd hs (by decide)

end Blush.TaskScheduler
