import Blush.TaskScheduler.Repeating

/-! A `Cancel` of a repeating task takes effect unless the task is reset to `Scheduled`
between its two compare-exchanges. -/
namespace Blush.TaskScheduler
open Heap Slots Transition
variable {H : Algorithms ScheduledItem.nextFireTime} {s s' : State} {a : Act} {l l' : Life}
  {c : Handle} {m : Mark}

namespace Life

/-- A `Cancel` that has returned has taken effect. -/
structure Cancels (l : Life) : Prop where
  returned : 0 < l.record .cancelReturned → l.word = .cancelled
  late : ¬l.late

theorem Cancels.step (hi : l.Cancels) (hs : l.Seen) (hc : l.word ≠ .completed)
    (hm : m ≠ .lostCancel) (h : LifeStep c m l l') : l'.Cancels := by
  cases h with
  | schedule hb =>
    have hn := (hs.unborn hb).2
    refine ⟨fun h => ?_,hi.late⟩
    have := hs.published (hs.returned h)
    omega
  | forgo | push | announce | cancel | cancelFailed | pop | discard | overlap | queue | oneShot
  | skip | noOverlap | slide | reinsert | dispatch | added | enqueue | dequeue | refuse | complete
  | free => exact { hi with }
  | cancelScheduled => exact ⟨fun _ => rfl,hi.late⟩
  | cancelRunning hw =>
    have hv : l.word = .running ∨ l.word = .cancelled := by
      cases hl : l.word <;> simp_all
    rcases hv with hv | hv <;> simp only [hv] <;> exact ⟨fun _ => rfl,hi.late⟩
  | cancelLost => exact absurd rfl hm
  | start hw =>
    have hn : ¬0 < l.record .cancelReturned := fun h => by
      have := hi.returned h
      simp [hw] at this
    exact ⟨fun h => absurd h hn,fun h => h.elim hi.late hn⟩
  | finish => exact ⟨fun h => finish_eq_cancelled.mpr (hi.returned h),hi.late⟩

end Life

theorem LifeStep.lost_word (h : LifeStep c .lostCancel l l') : l.word = .scheduled := by
  cases h with
  | cancelLost hw => exact hw

/-- The second compare-exchange of a `Cancel` finds the task scheduled: it was reset after
the first one had failed. -/
def LostCancel (c : Handle) (s : State) (a : Act) : Prop :=
  ∃ t, a = .call t ∧ s.calls[t]? = some (.cancelRunning c) ∧ s.words c = .scheduled

/-- Once a `Cancel` has returned, the task is cancelled and has not been started since. -/
def CancelFinal (c : Handle) (s : State) : Prop :=
  ((.cancelReturned,c) ∈ s.history → s.words c = .cancelled) ∧
    ¬[(Event.cancelReturned,c),(.started,c)].Sublist s.history

theorem run_cancels {workers outside n : ℕ} {steps : List (State × Act)}
    (hr : Run (step H) (init workers outside) steps s)
    (hl : ∀ p ∈ steps, ¬LostCancel (.repeating n) p.1 p.2) :
    CancelFinal (.repeating n) s := by
  have hi := hr.invariant_of
    (I:=fun t => t.TimerSubmits ∧ (t.life (.repeating n)).Inv ∧
      (t.life (.repeating n)).word ≠ .completed ∧ (t.life (.repeating n)).Cancels)
    (C:=fun t a => ¬LostCancel (.repeating n) t a)
    ⟨init_timerSubmits _ _,init_inv _ _ _,by simp [init_life],
      by rw [init_life]; constructor <;> simp⟩
    (fun t a t' hi hc hs => ⟨step_timerSubmits hi.1 hs,by
      cases step_simulates hi.1 hs (.repeating n) with
      | stutter he => exact he ▸ hi.2
      | plain h =>
        exact ⟨hi.2.1.step h,h.word_ne_completed rfl hi.2.2.1,
          hi.2.2.2.step hi.2.1.seen hi.2.2.1 (by simp) h⟩
      | refusal _ _ h =>
        exact ⟨hi.2.1.step h,h.word_ne_completed rfl hi.2.2.1,
          hi.2.2.2.step hi.2.1.seen hi.2.2.1 (by simp) h⟩
      | @lostCancel u ha hu h =>
        exact absurd ⟨u,ha,hu,h.lost_word⟩ hc⟩) hl
  exact ⟨fun h => hi.2.2.2.returned (List.count_pos_iff.mpr h),hi.2.2.2.late⟩

/-- A lost `Cancel` returns and leaves the task scheduled. -/
theorem LostCancel.not_final (hl : LostCancel c s a) :
    ∃ s', step H s a = some s' ∧ ¬CancelFinal c s' := by
  obtain ⟨t,rfl,ht,hw⟩ := hl
  refine ⟨_,by simp only [step,callStep,ht]; rfl,fun hf => ?_⟩
  have := hf.1 (by simp [State.record])
  simp [State.record,State.setCall,State.setWord,hw,ScheduleStatus.cancelRunning,
    ScheduleStatus.compareExchange] at this

/-- In every state of a run every returned `Cancel` of a repeating task is final, exactly when
no `Cancel` of it in that run has its second compare-exchange find the task scheduled. -/
theorem cancel_final_iff (H : Algorithms ScheduledItem.nextFireTime) (workers outside n : ℕ)
    (e : Execution (step H) (init workers outside)) :
    (∀ s ∈ e.visited, CancelFinal (.repeating n) s) ↔
      ∀ p ∈ e.steps, ¬LostCancel (.repeating n) p.1 p.2 := by
  constructor
  · intro hf p hp hl
    obtain ⟨s',hs,hn⟩ := hl.not_final (H:=H)
    exact hn (hf s' (e.target_mem_visited hp hs))
  · intro hl
    exact e.forall_visited fun steps s hp hr => run_cancels hr fun p h => hl p (hp.subset h)

/-- One worker, one client, period `10`: the worker resets the status word between the two
compare-exchanges of the `Cancel`, which returns; one period later the task starts again. -/
def resetDuringCancel :
    Execution (step (insertionAlgorithms ScheduledItem.nextFireTime)) (init 1 1) :=
  .ofLabels [.schedule 2 (.repeating 0 10 .skip),.call 2,.call 2,.call 2,.call 2,
    .timer,.timer,.timer,.timer,.timerWake,.timer,.timer,.timer,.timer,.timer,.timer,.timer,.timer,
    .runner (.call 1 none),.runner (.call 1 none),.runner (.call 1 none),.runner (.call 1 none),
    .runner (.worker 0),.runner (.worker 0),.runner (.worker 0),.runner (.worker 0),.closure 0,
    .cancel 2 (.repeating 0),.call 2,.closure 0,.closure 0,.call 2,
    .timer,.timer,.timer,.timer,.timer,.tick 10,.timerWake,.timer,.timer,.timer,.timer,.timer,
    .timer,.timer,.timer,
    .runner (.call 1 none),.runner (.call 1 none),.runner (.call 1 none),.runner (.call 1 none),
    .runner (.returned 0),
    .runner (.worker 0),.runner (.worker 0),.runner (.worker 0),.runner (.worker 0),.closure 0]
    (by decide)

theorem resetDuringCancel_lost : ¬CancelFinal (.repeating 0) resetDuringCancel.final ∧
    resetDuringCancel.final.words (.repeating 0) ≠ .cancelled ∧
    [(Event.cancelReturned,Handle.repeating 0),(.started,.repeating 0)].Sublist
      resetDuringCancel.final.history :=
  ⟨fun h => h.2 (by decide),by decide⟩

end Blush.TaskScheduler
