import Blush.TaskScheduler.Mutex
import Blush.TaskScheduler.Simulation

/-! A repeating task keeps exactly one heap entry until it is found cancelled, and what a
cancelled task can still cause is bounded. -/
namespace Blush.TaskScheduler
open Heap Slots Transition
variable {H : Algorithms ScheduledItem.nextFireTime} {s s' : State} {l l' : Life} {c : Handle}
  {m : Mark}

theorem finish_repeating {word : ScheduleStatus} (hc : c.isRepeating = true) :
    c.finish word = if word = .running then .scheduled else word := by
  cases c with
  | oneShot n => cases hc
  | repeating n => cases word <;> rfl

/-- Only one-shot tasks become `Completed`. -/
theorem LifeStep.word_ne_completed (h : LifeStep c m l l') (hr : c.isRepeating = true)
    (hw : l.word ≠ .completed) : l'.word ≠ .completed := by
  cases h with
  | cancelRunning =>
    cases hv : l.word <;> simp_all [ScheduleStatus.cancelRunning,ScheduleStatus.compareExchange]
  | finish =>
    rw [finish_repeating hr]
    split
    · simp
    · exact hw
  | schedule | cancelScheduled | start => simp
  | _ => exact hw

namespace Life

/-- The entry of the task is in the hand of the timer, to be pushed again or discarded. -/
def entryInHand (l : Life) : ℕ :=
  match l.hand with
  | some .popped | some .overlap | some .slide | some .reinsert => 1
  | _ => 0

/-- The timer is past the check of the status word and will push the task once more. -/
def pushAhead (l : Life) : ℕ :=
  match l.hand with
  | some .overlap | some .slide | some .reinsert => 1
  | _ => 0

/-- The timer is past the check of the status word and may hand a closure to the pool. -/
def closureAhead (l : Life) : ℕ :=
  match l.hand with
  | some .overlap | some .reinsert | some .dispatch => 1
  | _ => 0

/-- The pushes of the task, with the one the timer is committed to. -/
def pushes (l : Life) : ℕ := l.record .pushed + l.pushAhead

/-- The closures handed to the pool, with those on their way. -/
def closures (l : Life) : ℕ := l.handed + (l.pool .handing + l.closureAhead)

/-- A repeating task that was pushed has one entry, until that entry is discarded. -/
structure OneEntry (l : Life) : Prop where
  entry : l.alive = true → 0 < l.record .pushed →
    l.heap + l.entryInHand + l.record .discarded = 1
  discarded : 0 < l.record .discarded → 0 < l.record .pushed

theorem OneEntry.step (hi : l.OneEntry) (hs : l.Seen) (hr : c.isRepeating = true)
    (h : LifeStep c m l l') : l'.OneEntry := by
  cases h with
  | schedule | forgo | announce | cancel | cancelFailed | cancelScheduled | cancelRunning
  | cancelLost | enqueue | dequeue | start | refuse | complete | finish =>
    exact ⟨hi.entry,hi.discarded⟩
  | push hk =>
    simp [moves_calls_iff] at hk
    have hp := (hs.pushing (by omega)).2
    have hh : l.hand = none := by
      by_contra h
      have := hs.hand h
      omega
    have h1 := hs.heap
    have h2 := hi.discarded
    refine ⟨fun _ _ => ?_,fun _ => by simp [bump]⟩
    simp [bump,entryInHand,hh]
    omega
  | pop hh hn =>
    refine ⟨fun ha hp => ?_,hi.discarded⟩
    have := hi.entry ha hp
    simp [entryInHand,hh,hn] at this ⊢
    omega
  | free => exact ⟨by simp,hi.discarded⟩
  | oneShot _ _ hc => simp [hr] at hc
  | discard hh | overlap hh | queue hh | skip hh | noOverlap hh | slide hh | reinsert hh
  | dispatch hh | added hh =>
    have hn := hs.hand (by simp [hh])
    refine ⟨fun ha _ => ?_,fun _ => hn.trans_le (by simp [bump])⟩
    have := hi.entry ha hn
    simp [entryInHand,hh,bump] at this ⊢
    omega

/-- A cancelled task stays cancelled, is not started again, and causes no push or closure
beyond those the timer was already committed to. -/
theorem Seen.cancelled_step (hs : l.Seen) (hw : l.word = .cancelled) (h : LifeStep c m l l') :
    l'.word = .cancelled ∧ l'.pushes ≤ l.pushes ∧ l'.closures ≤ l.closures ∧
      l'.record .started = l.record .started := by
  have hn := hs.published (hs.cancelled hw)
  obtain ⟨hb,hp⟩ := hs.born hn
  cases h with
  | schedule hb' => exact absurd hb hb'
  | push hk =>
    simp [moves_calls_iff] at hk
    omega
  | forgo | announce | cancel | cancelFailed | cancelLost | free =>
    exact ⟨hw,le_rfl,le_rfl,rfl⟩
  | cancelRunning => exact ⟨by simp only [hw]; rfl,le_rfl,le_rfl,rfl⟩
  | cancelScheduled hv | start hv | skip _ hv =>
    rw [hv] at hw
    cases hw
  | overlap _ hv | queue _ hv | oneShot _ hv => exact absurd hw hv
  | pop hh | discard hh | noOverlap hh | added hh =>
    exact ⟨hw,by simp [pushes,pushAhead,hh,bump],by simp [closures,closureAhead,hh],rfl⟩
  | slide hh | reinsert hh =>
    exact ⟨hw,by simp [pushes,pushAhead,hh,bump],by simp [closures,closureAhead,hh],rfl⟩
  | dispatch hh hk =>
    simp [moves_pool_iff] at hk
    exact ⟨hw,by simp [pushes,pushAhead,hh],by simp [closures,closureAhead,hh]; omega,rfl⟩
  | enqueue hk | dequeue hk | refuse _ hk | complete hk =>
    simp [moves_pool_iff] at hk
    exact ⟨hw,le_rfl,by simp [closures,closureAhead]; omega,rfl⟩
  | finish hk =>
    simp [moves_pool_iff] at hk
    exact ⟨finish_eq_cancelled.mpr hw,le_rfl,by simp [closures,closureAhead]; omega,rfl⟩

/-- The timer is committed to one push at most. -/
theorem pushes_le (l : Life) : l.pushes ≤ l.record .pushed+1 := by
  simp only [pushes,pushAhead]
  split <;> omega

/-- A closure is on its way to the pool or ahead of the timer, not both. -/
theorem Accounted.closures_le (hi : l.Accounted) : l.closures ≤ l.handed+1 := by
  simp only [closures,closureAhead]
  rcases hi.handing with h | ⟨h,hh⟩
  · rw [h]
    split <;> omega
  · simp [h,hh]

end Life

/-- With the mutex free the timer holds no entry. -/
theorem entryInHand_free (hi : s.Locked) (hm : s.mutex = none) :
    (s.life c).entryInHand = 0 := by
  have hh := (hi.free hm).1
  have hn : (s.life c).hand = none := by
    change s.timer.hand c = none
    cases ht : s.timer <;> simp_all [Timer.holds,Timer.hand]
  simp [Life.entryInHand,hn]

/-- Whenever the mutex is free, a repeating task has exactly one heap entry from its push until
an entry of it was popped with status `Cancelled`, and none from then on. In every state after
its status became `Cancelled` at most one more entry was pushed and at most one more closure
handed to the pool, and the task was not started again. -/
theorem repeating_entry (H : Algorithms ScheduledItem.nextFireTime) (workers outside n : ℕ)
    (e : Execution (step H) (init workers outside)) :
    (e.final.destroyed = false → e.final.mutex = none →
      (.pushed,.repeating n) ∈ e.final.history →
      e.final.heap.items.countP (·.cancellable = .repeating n) =
        if (.discarded,.repeating n) ∈ e.final.history then 0 else 1) ∧
    (e.final.words (.repeating n) = .cancelled → ∀ later : Execution (step H) e.final,
      later.final.history.count (.pushed,.repeating n) ≤
        e.final.history.count (.pushed,.repeating n) + 1 ∧
      later.final.runner.pushed.count (.invoke (.repeating n)) ≤
        e.final.runner.pushed.count (.invoke (.repeating n)) + 1 ∧
      later.final.history.count (.started,.repeating n) =
        e.final.history.count (.started,.repeating n)) := by
  obtain ⟨hs,hi,ho⟩ := run_life (I:=fun l => l.Inv ∧ l.OneEntry) e.run (init_timerSubmits _ _)
    ⟨init_inv workers outside (.repeating n),by rw [init_life]; constructor <;> simp⟩
    fun _ _ _ h hl => ⟨h.1.step hl,h.2.step h.1.seen rfl hl⟩
  constructor
  · intro hd hm hp
    have hl : e.final.Locked := e.run.invariant (.init _ _) fun _ _ _ => step_locked
    have he := ho.entry (by simp [State.life,hd]) (List.count_pos_iff.mpr hp)
    rw [entryInHand_free hl hm] at he
    change e.final.heap.items.countP _ + 0 + e.final.history.count _ = 1 at he
    split
    · have := List.count_pos_iff.mpr ‹(Event.discarded,Handle.repeating n) ∈ _›
      omega
    · have := List.count_eq_zero.mpr ‹(Event.discarded,Handle.repeating n) ∉ _›
      omega
  · intro hw later
    obtain ⟨-,hj,-,h1,h2,h3⟩ := run_life (c:=.repeating n)
      (I:=fun l => l.Inv ∧ l.word = .cancelled ∧ l.pushes ≤ (e.final.life (.repeating n)).pushes ∧
        l.closures ≤ (e.final.life (.repeating n)).closures ∧
        l.record .started = (e.final.life (.repeating n)).record .started)
      later.run hs ⟨hi,hw,le_rfl,le_rfl,rfl⟩ fun _ _ _ h hl => by
        obtain ⟨a,b,d,f⟩ := h.1.seen.cancelled_step h.2.1 hl
        exact ⟨h.1.step hl,a,b.trans h.2.2.1,d.trans h.2.2.2.1,f.trans h.2.2.2.2⟩
    have hp := (e.final.life (.repeating n)).pushes_le
    have hc := hi.accounted.closures_le
    refine ⟨?_,?_,h3⟩
    · exact (Nat.le_add_right _ _).trans (h1.trans hp)
    · exact (Nat.le_add_right _ _).trans (h2.trans hc)

end Blush.TaskScheduler
