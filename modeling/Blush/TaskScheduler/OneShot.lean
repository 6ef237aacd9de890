import Blush.TaskScheduler.Simulation

/-! One-shot tasks are neither lost nor duplicated, run at most once, and never start after
a `Cancel` has returned. -/
namespace Blush.TaskScheduler
open Heap Slots Transition
variable {H : Algorithms ScheduledItem.nextFireTime} {s : State} {l l' : Life} {c : Handle}
  {m : Mark}

theorem finish_oneShot {word : ScheduleStatus} (hc : c.isRepeating = false) :
    c.finish word = if word = .running then .completed else word := by
  cases c with
  | oneShot n => cases word <;> rfl
  | repeating n => cases hc

namespace Life

/-- An item in the hand of the timer, between `Pop` and `AddTask`. -/
def inHand (l : Life) : ℕ :=
  match l.hand with
  | some .popped | some .dispatch => 1
  | _ => 0

/-- The invocations that were given up: found cancelled when popped or when about to start. -/
def dropped (l : Life) : ℕ := l.record .discarded + l.record .refused

/-- All places a one-shot task can be in: the heap, the timer's hand or its call of `AddTask`,
the queue of the pool or a worker before `TrySetRunning`, executing, finished, dropped. -/
def places (l : Life) : ℕ :=
  l.heap + (l.inHand + l.pool .handing) + (l.pool .queued + l.pool .taken) + l.pool .executing +
    l.record .completed + l.dropped

/-- A one-shot task is pushed at most once and is in as many places as it was pushed. -/
structure Placed (l : Life) : Prop where
  once : l.calls .pushing + l.record .pushed ≤ 1
  hand : l.hand = none ∨ l.hand = some .popped ∨ l.hand = some .dispatch ∨ l.hand = some .adding
  balance : l.places = l.record .pushed ∨ (l.alive = false ∧ l.places ≤ l.record .pushed)

/-- A step that adds as many places as pushes keeps the balance. -/
theorem Placed.keep (hi : l.Placed) (ha : l'.alive = l.alive)
    (h : l'.places + l.record .pushed = l.places + l'.record .pushed) :
    l'.places = l'.record .pushed ∨ (l'.alive = false ∧ l'.places ≤ l'.record .pushed) := by
  rcases hi.balance with hb | ⟨hd,hb⟩
  · left
    omega
  · exact .inr ⟨ha.trans hd,by omega⟩

theorem Placed.step (hi : l.Placed) (hs : l.Seen) (hr : c.isRepeating = false)
    (h : LifeStep c m l l') : l'.Placed := by
  cases h with
  | schedule hb _ hk =>
    obtain ⟨h1,h2⟩ := hs.unborn hb
    simp [moves_calls_iff] at hk
    exact { hi with once := by dsimp only; omega }
  | forgo => exact { hi with }
  | free =>
    refine ⟨hi.once,hi.hand,.inr ⟨rfl,?_⟩⟩
    rcases hi.balance with hb | ⟨-,hb⟩ <;> simp [places,inHand,dropped] at hb ⊢ <;> omega
  | push hk =>
    simp [moves_calls_iff] at hk
    have := hi.once
    exact ⟨by simp [bump]; omega,hi.hand,hi.keep rfl (by simp [places,inHand,dropped,bump]; omega)⟩
  | announce hk | cancel _ hk | cancelFailed _ hk | cancelScheduled _ hk | cancelRunning _ hk
  | cancelLost _ hk =>
    simp [moves_calls_iff] at hk
    have := hi.once
    exact ⟨by simp [bump]; omega,hi.hand,hi.keep rfl (by simp [places,inHand,dropped,bump])⟩
  | pop hh hn =>
    exact ⟨hi.once,by simp,hi.keep rfl (by simp [places,inHand,dropped,hh,hn]; omega)⟩
  | discard hh =>
    exact ⟨hi.once,by simp,hi.keep rfl (by simp [places,inHand,dropped,bump,hh]; omega)⟩
  | overlap _ _ hc | queue _ _ hc => simp [hr] at hc
  | oneShot hh => exact ⟨hi.once,by simp,hi.keep rfl (by simp [places,inHand,dropped,hh])⟩
  | skip hh | noOverlap hh | slide hh | reinsert hh => simpa [hh] using hi.hand
  | dispatch hh hp =>
    simp [moves_pool_iff] at hp
    exact ⟨hi.once,by simp,hi.keep rfl (by simp [places,inHand,dropped,hh]; omega)⟩
  | added hh => exact ⟨hi.once,by simp,hi.keep rfl (by simp [places,inHand,dropped,hh])⟩
  | enqueue hp | dequeue hp | start _ hp | refuse _ hp | complete hp | finish hp =>
    simp [moves_pool_iff] at hp
    exact ⟨hi.once,hi.hand,hi.keep rfl (by simp [places,inHand,dropped,bump]; omega)⟩

/-- What the status word of a one-shot task stands for. -/
structure Final (l : Life) : Prop where
  dropped : 0 < l.dropped → l.word = .cancelled
  completed : l.word = .completed → 0 < l.record .completed
  recancelling : 0 < l.calls .recancelling → l.word ≠ .scheduled
  returned : 0 < l.record .cancelReturned → l.word = .completed ∨ l.word = .cancelled
  late : ¬l.late

theorem Placed.le (hi : l.Placed) : l.places ≤ l.record .pushed := by
  rcases hi.balance with h | h <;> omega

/-- A one-shot closure that is about to start and cannot was cancelled: no other closure of
the task has run or is running. -/
theorem Final.refused (hi : l.Final) (hp : l.Placed) (hv : l.Inv) (ht : 0 < l.pool .taken)
    (hw : l.word ≠ .scheduled) : l.word = .cancelled := by
  have hle := hp.le
  have h1 := hp.once
  have h2 := hv.accounted.leaving
  simp only [places,Life.dropped] at hle
  cases hc : l.word with
  | scheduled => exact absurd hc hw
  | running =>
    have := hv.exclusive.running hc
    omega
  | completed =>
    have := hi.completed hc
    omega
  | cancelled => rfl

/-- Before the push of a task nothing has been dropped, completed or cancelled. -/
theorem Placed.fresh (hp : l.Placed) (hs : l.Seen) (hb : ¬l.born) :
    l.dropped = 0 ∧ l.calls .recancelling = 0 ∧ l.record .cancelReturned = 0 := by
  have hn := (hs.unborn hb).2
  have hle := hp.le
  have hu : ¬l.published := fun h => by
    have := hs.published h
    omega
  refine ⟨by simp only [places] at hle; omega,?_,?_⟩
  · by_contra h
    exact hu (hs.cancelling (by omega))
  · by_contra h
    exact hu (hs.returned (by omega))

theorem Final.step (hi : l.Final) (hp : l.Placed) (hv : l.Inv) (hr : c.isRepeating = false)
    (h : LifeStep c m l l') : l'.Final := by
  cases h with
  | schedule hb _ hk =>
    obtain ⟨h1,h2,h3⟩ := hp.fresh hv.seen hb
    simp [moves_calls_iff] at hk
    exact ⟨fun h => by simp [Life.dropped] at h h1; omega,by simp,
      fun h => by dsimp only at h; omega,fun h => by dsimp only at h; omega,hi.late⟩
  | forgo | pop | overlap | queue | oneShot | skip | noOverlap | dispatch | added | enqueue
  | dequeue | free => exact { hi with }
  | push hk | announce hk | cancel _ hk =>
    simp [moves_calls_iff] at hk
    exact ⟨hi.dropped,hi.completed,fun h => hi.recancelling (hk.2.2.2 ▸ h),hi.returned,hi.late⟩
  | cancelFailed hw hk => exact { hi with recancelling := fun _ => hw }
  | cancelScheduled hw hk => exact ⟨fun _ => rfl,by simp,by simp,by simp,hi.late⟩
  | cancelRunning hw hk =>
    refine ⟨fun h => ?_,fun h => ?_,fun _ => ?_,fun _ => ?_,hi.late⟩
    · simp [hi.dropped h,ScheduleStatus.cancelRunning,ScheduleStatus.compareExchange]
    · refine hi.completed ?_
      cases hv : l.word <;>
        simp_all [ScheduleStatus.cancelRunning,ScheduleStatus.compareExchange]
    · cases hv : l.word <;>
        simp_all [ScheduleStatus.cancelRunning,ScheduleStatus.compareExchange]
    · cases hv : l.word <;>
        simp_all [ScheduleStatus.cancelRunning,ScheduleStatus.compareExchange]
  | cancelLost hw hk =>
    -- the first compare-exchange failed, and a one-shot task does not become scheduled again
    simp [moves_calls_iff] at hk
    exact absurd hw (hi.recancelling (by omega))
  | discard _ hw => exact { hi with dropped := fun _ => hw }
  | slide | reinsert => exact { hi with }
  | start hw =>
    have hn : ¬0 < l.record .cancelReturned := fun h => by
      have := hi.returned h
      simp [hw] at this
    exact ⟨fun h => absurd (hi.dropped h) (by simp [hw]),by simp,by simp,
      fun h => absurd h hn,fun h => h.elim hi.late hn⟩
  | refuse hw hk =>
    simp [moves_pool_iff] at hk
    exact { hi with dropped := fun _ => hi.refused hp hv (by omega) hw }
  | complete => exact { hi with completed := fun _ => by simp [bump] }
  | finish hk =>
    simp [moves_pool_iff] at hk
    have hl := hv.accounted.leaving
    refine ⟨fun h => ?_,fun _ => by dsimp only; omega,fun h => ?_,fun h => ?_,hi.late⟩
    · exact finish_eq_cancelled.mpr (hi.dropped h)
    · rw [finish_oneShot hr]
      split
      · simp
      · exact hi.recancelling h
    · rw [finish_oneShot hr]
      split
      · simp
      · exact hi.returned h

/-- All that holds of a one-shot task. -/
structure OneShot (l : Life) : Prop where
  inv : l.Inv
  placed : l.Placed
  final : l.Final

theorem OneShot.step (hr : c.isRepeating = false) (hi : l.OneShot) (h : LifeStep c m l l') :
    l'.OneShot :=
  ⟨hi.inv.step h,hi.placed.step hi.inv.seen hr h,hi.final.step hi.placed hi.inv hr h⟩

/-- `Completed` and `Cancelled` are never left. -/
theorem OneShot.settled (hr : c.isRepeating = false) (hi : l.OneShot) (h : LifeStep c m l l')
    {v : ScheduleStatus} (hv : v = .completed ∨ v = .cancelled) (hw : l.word = v) :
    l'.word = v := by
  cases h with
  | schedule hb =>
    have hn := (hi.inv.seen.unborn hb).2
    have hle := hi.placed.le
    simp only [places] at hle
    rcases hv with rfl | rfl
    · have := hi.final.completed hw
      omega
    · have := hi.inv.seen.published (hi.inv.seen.cancelled hw)
      omega
  | cancelScheduled hs | start hs =>
    rw [hs] at hw
    rcases hv with rfl | rfl <;> cases hw
  | cancelRunning => rcases hv with rfl | rfl <;> simp only [hw] <;> rfl
  | finish => rcases hv with rfl | rfl <;> simp [finish_oneShot hr,hw]
  | _ => exact hw

end Life

theorem init_oneShot (workers outside : ℕ) (c : Handle) :
    ((init workers outside).life c).OneShot := by
  refine ⟨init_inv _ _ _,?_,?_⟩ <;> rw [init_life] <;> constructor <;>
    simp [Life.places,Life.inHand,Life.dropped]

/-- In every reachable state a one-shot task that was scheduled is in exactly one place, and
dropped only if it was cancelled; it starts at most once and never after a `Cancel` has
returned; and once it is completed or cancelled it stays so. -/
theorem one_shot_conserved (H : Algorithms ScheduledItem.nextFireTime) (workers outside n : ℕ)
    (e : Execution (step H) (init workers outside)) :
    (e.final.destroyed = false → (.pushed,.oneShot n) ∈ e.final.history →
      (e.final.life (.oneShot n)).places = 1) ∧
    (0 < (e.final.life (.oneShot n)).dropped → e.final.words (.oneShot n) = .cancelled) ∧
    e.final.history.count (.started,.oneShot n) ≤ 1 ∧
    ¬[(Event.cancelReturned,Handle.oneShot n),(.started,.oneShot n)].Sublist e.final.history ∧
    ∀ later : Execution (step H) e.final,
      (e.final.words (.oneShot n) = .completed → later.final.words (.oneShot n) = .completed) ∧
      (e.final.words (.oneShot n) = .cancelled → later.final.words (.oneShot n) = .cancelled) := by
  obtain ⟨hs,hi⟩ := run_life e.run (init_timerSubmits _ _)
    (init_oneShot workers outside (.oneShot n)) fun _ _ _ => Life.OneShot.step rfl
  have hle := hi.placed.le
  have honce := hi.placed.once
  refine ⟨fun ha hp => ?_,hi.final.dropped,?_,hi.final.late,fun later => ?_⟩
  · have hn : 0 < (e.final.life (.oneShot n)).record .pushed := List.count_pos_iff.mpr hp
    rcases hi.placed.balance with h | ⟨h,-⟩
    · omega
    · simp [State.life,ha] at h
  · have h1 : (e.final.life (.oneShot n)).record .started ≤ 1 := by
      rw [hi.inv.accounted.started]
      simp only [Life.places] at hle
      omega
    exact h1
  · have keep {v : ScheduleStatus} (hv : v = .completed ∨ v = .cancelled)
        (hw : e.final.words (.oneShot n) = v) : later.final.words (.oneShot n) = v :=
      (run_life (I:=fun l => l.OneShot ∧ l.word = v) later.run hs ⟨hi,hw⟩
        fun _ _ _ h hl => ⟨h.1.step rfl hl,h.1.settled rfl hl hv h.2⟩).2.2
    exact ⟨keep (.inl rfl),keep (.inr rfl)⟩

end Blush.TaskScheduler
