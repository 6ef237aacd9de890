import Blush.Connections.Endpoint

/-! Handles that outlive the connection that issued them. -/
namespace Blush.Connections
open Transition
variable {η π μ : Type}

namespace World

/-- The call is a `Cancel` on a handle of a connection that was destroyed. -/
def CancelsDestroyed (w : World η π μ) (a : Act η π μ) : Prop :=
  ∃ h accepted r, a = .cancel h accepted ∧ w.handles[h]? = some r ∧ w.live? r.owner = none

/-- The call is the first `Cancel` on such a handle. -/
def StaleCancel (w : World η π μ) (a : Act η π μ) : Prop :=
  ∃ h accepted r, a = .cancel h accepted ∧ w.handles[h]? = some r ∧ r.cancelled = false ∧
    w.live? r.owner = none

variable {w w' : World η π μ} {a : Act η π μ}

theorem staleCancel_iff {h : ℕ} {r : HandlerRegistration} {accepted : Bool}
    (hr : w.handles[h]? = some r) :
    w.StaleCancel (.cancel h accepted) ↔ r.cancelled = false ∧ w.live? r.owner = none := by
  constructor
  · rintro ⟨i,b,r',he,hr',hx,hc⟩
    obtain ⟨rfl,rfl⟩ := Act.cancel.inj he
    obtain rfl := Option.some.inj (hr.symm.trans hr')
    exact ⟨hx,hc⟩
  · rintro ⟨hx,hc⟩
    exact ⟨h,accepted,r,rfl,hr,hx,hc⟩

/-- Only the first `Cancel` on a handle of a destroyed connection uses that connection. -/
theorem Step.fault_iff (h : w.Step a w') (hf : w.fault = none) :
    w'.fault = none ↔ ¬w.StaleCancel a := by
  cases h with
  | cancelled hm hr hx => simp [staleCancel_iff hr,hf,hx]
  | cancel hm hr hx hc => simp [staleCancel_iff hr,hc,setConnection,setHandle,hf]
  | stale hm hr hx hc => simp [staleCancel_iff hr,hx,hc]
  | create | registerHandler | destroy | callbackHandler | returned | call | predicate
  | handled => simp [StaleCancel,setConnection,hf]

/-- A later `Cancel` on such a handle changes nothing. -/
theorem Step.unchanged (h : w.Step a w') (hd : w.CancelsDestroyed a) (hs : ¬w.StaleCancel a) :
    w' = w := by
  obtain ⟨i,b,r,rfl,hr,hc⟩ := hd
  cases h with
  | cancelled => rfl
  | stale hm hr' hx hc' => exact absurd ((staleCancel_iff hr').mpr ⟨hx,hc'⟩) hs
  | cancel hm hr' hx hc' =>
    obtain rfl := Option.some.inj (hr.symm.trans hr')
    simp [hc] at hc'

end World

/-- No `Cancel` of the run uses a destroyed connection, and a `Cancel` after the destruction
changes nothing and calls no TS. -/
def CancelSafe (e : Execution step (World.init : World η π μ)) : Prop :=
  (∀ w ∈ e.visited, w.fault = none) ∧
    ∀ p ∈ e.steps, p.1.CancelsDestroyed p.2 → step p.1 p.2 = some p.1

/-- `Cancel` is safe in a run if and only if no handle is cancelled for the first time after the
destruction of its connection. -/
theorem cancelSafe_iff (e : Execution step (World.init : World η π μ)) :
    CancelSafe e ↔ ∀ p ∈ e.steps, ¬p.1.StaleCancel p.2 := by
  have hlinked : ∀ w ∈ e.visited, w.Linked := e.forall_visited fun _ _ _ hr => run_linked hr
  constructor
  · rintro ⟨hf,-⟩ p hp
    obtain ⟨w',hs⟩ := e.run.exists_target hp
    obtain ⟨hfault,h⟩ := step_cases (hlinked _ (e.source_mem_visited hp)) hs
    exact (h.fault_iff hfault).mp (hf w' (e.target_mem_visited hp hs))
  · intro hn
    refine ⟨e.forall_visited fun steps w hp hr => ?_,fun p hp hd => ?_⟩
    · have hi := hr.invariant_of (I:=fun w => w.Linked ∧ w.fault = none)
        (C:=fun w a => ¬w.StaleCancel a) ⟨run_linked .refl,rfl⟩ (fun w a w' hi hc hs => by
          have h := (step_cases hi.1 hs).2
          exact ⟨h.linked hi.1,(h.fault_iff hi.2).mpr hc⟩) fun p h => hn p (hp.subset h)
      exact hi.2
    · obtain ⟨w',hs⟩ := e.run.exists_target hp
      have h := (step_cases (hlinked _ (e.source_mem_visited hp)) hs).2
      rw [hs,h.unchanged hd (hn p hp)]

/-- The connection is destroyed before the application cancels its handle. -/
def staleHandle : Execution step (World.init : World Unit Unit Unit) :=
  .ofLabels [.create,.registerHandler 0 ⟨(),none⟩ true,.destroy 0 true,.cancel 0 true] (by decide)

theorem staleHandle_not_safe : ¬CancelSafe staleHandle ∧ staleHandle.final.fault = some 0 :=
  ⟨fun h => absurd (h.1 _ staleHandle.final_mem_visited) (by decide),by decide⟩

end Blush.Connections
