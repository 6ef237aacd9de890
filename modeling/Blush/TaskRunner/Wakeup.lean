import Blush.TaskRunner.Model

/-! No wake-up of a worker is lost: queued work or a stop request always has an awake
worker, or a notification still to come. -/
namespace Blush.TaskRunner
variable {τ φ : Type}

/-- Between the end of a stop store and its `notify_all`. -/
def Call.isStopPending : Call τ → Bool
  | .stopUnlock | .stopNotify => true
  | _ => false

/-- Between a push or a stop store and its notification. -/
def Call.isPending : Call τ → Bool
  | .addTaskUnlock | .addTaskNotify | .stopUnlock | .stopNotify => true
  | _ => false

/-- Neither waiting on the condition variable nor gone. -/
def Worker.isActive (x : Worker τ φ) : Bool := !x.isBlocked && !x.isExited

namespace State

def NotifyPending (s : State τ φ) : Prop := ∃ c ∈ s.calls, c.isPending = true

/-- Stopping leaves nobody blocked once notified; queued work keeps somebody awake. -/
structure WakeInv (s : State τ φ) : Prop where
  stop : s.stop = true → (∃ c ∈ s.calls, c.isStopPending = true) ∨
    ∀ x ∈ s.threads, x.isBlocked = false
  queue : s.taskQueue ≠ [] → s.NotifyPending ∨ (∃ x ∈ s.threads, x.isActive = true) ∨
    ∀ x ∈ s.threads, x.isExited = true

end State

open Slots State

theorem init_wakeInv (workers outside : ℕ) :
    (init workers outside : State τ φ).WakeInv := ⟨by simp [init],by simp [init]⟩

/-- A call that is not between a push or stop store and its notification moves on: what the
other calls and all workers guarantee is kept. -/
theorem State.WakeInv.setCall {s : State τ φ} (hi : s.WakeInv) {t : ℕ} {c d : Call τ}
    (hc : s.calls[t]? = some c) (hp : c.isPending = false ∨ d.isPending = true)
    (hsp : c.isStopPending = false ∨ d.isStopPending = true) : (s.setCall t d).WakeInv := by
  constructor
  · intro hs
    refine (hi.stop hs).imp_left fun he => ?_
    rcases hsp with h | h
    · exact exists_set hc (by simp [h]) he
    · exact ⟨d,mem_set_self hc,h⟩
  · intro hq
    refine (hi.queue hq).imp_left fun he => ?_
    rcases hp with h | h
    · exact exists_set hc (by simp [h]) he
    · exact ⟨d,mem_set_self hc,h⟩

/-- A worker that ends up awake keeps both guarantees. -/
theorem State.WakeInv.setWorker {s : State τ φ} (hi : s.WakeInv) {w : ℕ} {x y : Worker τ φ}
    (hw : s.threads[w]? = some x) (hy : y.isActive = true) : (s.setWorker w y).WakeInv := by
  have hb : y.isBlocked = false := by
    simp only [Worker.isActive,Bool.and_eq_true,Bool.not_eq_true'] at hy
    exact hy.1
  exact ⟨fun hs => (hi.stop hs).imp_right (forall_set hb),
    fun _ => .inr (.inl ⟨y,mem_set_self hw,hy⟩)⟩

/-- The guarantees read only the queue, the stop flag, the calls and the workers. -/
theorem State.WakeInv.congr {s s' : State τ φ} (hi : s.WakeInv) (hq : s'.taskQueue = s.taskQueue)
    (hs : s'.stop = s.stop) (hc : s'.calls = s.calls) (ht : s'.threads = s.threads) :
    s'.WakeInv :=
  ⟨by rw [hs,hc,ht]; exact hi.stop,
    by simp only [NotifyPending,hq,hc,ht]; exact hi.queue⟩

theorem Step.wakeInv {enter : τ → φ} {s s' : State τ φ} {a : Act τ φ} (hi : s.WakeInv)
    (h : Step enter s a s') : s'.WakeInv := by
  cases h with
  | addTask hc _ => exact hi.setCall hc (.inl rfl) (.inl rfl)
  | destroy hc _ => exact (hi.setCall hc (.inl rfl) (.inl rfl)).congr rfl rfl rfl rfl
  | addTaskLock hc _ => exact (hi.setCall hc (.inl rfl) (.inl rfl)).congr rfl rfl rfl rfl
  | addTaskPush hc =>
    have hd := hi.setCall (d:=.addTaskUnlock) hc (.inl rfl) (.inl rfl)
    exact ⟨hd.stop,fun _ => .inl ⟨_,mem_set_self hc,rfl⟩⟩
  | addTaskUnlock hc => exact (hi.setCall hc (.inr rfl) (.inl rfl)).congr rfl rfl rfl rfl
  | @notifyWaiter t w hc hw =>
    -- the woken worker takes over what the notification stood for
    have hd := hi.setWorker (y:=.lock) hw rfl
    have hc' : (s.setWorker w .lock).calls[t]? = some .addTaskNotify := hc
    constructor
    · exact fun hs => (hd.stop hs).imp_left (exists_set hc' (by simp [Call.isStopPending]))
    · exact fun _ => .inr (.inl ⟨_,mem_set_self hw,rfl⟩)
  | notifyNobody hc hn =>
    -- nobody was blocked, so some worker is awake or all have left
    constructor
    · exact fun hs => (hi.stop hs).imp_left (exists_set hc (by simp [Call.isStopPending]))
    · intro _
      by_cases he : ∀ x ∈ s.threads, x.isExited = true
      · exact .inr (.inr he)
      · obtain ⟨x,hx,hxe⟩ : ∃ x ∈ s.threads, x.isExited = false := by simpa using he
        have hb : x.isBlocked = false := by
          simpa using (List.any_eq_false.mp hn) x hx
        exact .inr (.inl ⟨x,hx,by simp [Worker.isActive,hb,hxe]⟩)
  | stopLock hc _ => exact (hi.setCall hc (.inl rfl) (.inl rfl)).congr rfl rfl rfl rfl
  | stopStore hc =>
    have hd := hi.setCall (d:=.stopUnlock) hc (.inl rfl) (.inl rfl)
    exact ⟨fun _ => .inl ⟨_,mem_set_self hc,rfl⟩,hd.queue⟩
  | stopUnlock hc => exact (hi.setCall hc (.inr rfl) (.inr rfl)).congr rfl rfl rfl rfl
  | stopNotify hc =>
    constructor
    · intro _
      right
      intro x hx
      obtain ⟨y,-,rfl⟩ := List.mem_map.mp hx
      cases y <;> rfl
    · intro hq
      right
      by_cases he : ∀ x ∈ s.threads, x.isExited = true
      · right
        intro x hx
        obtain ⟨y,hy,rfl⟩ := List.mem_map.mp hx
        have := he y hy
        cases y <;> simp_all [Worker.isExited,Worker.notified]
      · left
        obtain ⟨x,hx,hxe⟩ : ∃ x ∈ s.threads, x.isExited = false := by simpa using he
        refine ⟨x.notified,List.mem_map_of_mem hx,?_⟩
        cases x <;> simp_all [Worker.isExited,Worker.notified,Worker.isActive,Worker.isBlocked]
  | stopJoin hc _ => exact hi.setCall hc (.inl rfl) (.inl rfl)
  | lock hw _ => exact (hi.setWorker hw rfl).congr rfl rfl rfl rfl
  | awake hw _ => exact hi.setWorker hw rfl
  | block hw hs hq =>
    -- a worker blocks only on an empty queue and before the stop store
    exact ⟨fun h => absurd (hs.symm.trans h) (by decide),fun h => absurd hq h⟩
  | exit hw hs hq =>
    exact ⟨fun _ => (hi.stop hs).imp_right (forall_set rfl),fun h => absurd hq h⟩
  | @dequeue w task rest hw _ =>
    have hd := hi.setWorker (y:=.unlock task) hw rfl
    exact ⟨hd.stop,fun _ => .inr (.inl ⟨_,mem_set_self hw,rfl⟩)⟩
  | unlock hw => exact (hi.setWorker hw rfl).congr rfl rfl rfl rfl
  | spurious hw => exact hi.setWorker hw rfl
  | frame hw => exact hi.setWorker hw rfl
  | returned hw _ => exact (hi.setWorker hw rfl).congr rfl rfl rfl rfl

/-- When a worker is left and every worker that is left is blocked, there is no work and no
stop request, or the notification is still to come. -/
theorem State.WakeInv.idle_or_pending {s : State τ φ} (hi : s.WakeInv)
    (hlive : ∃ x ∈ s.threads, x.isExited = false)
    (hb : ∀ x ∈ s.threads, x.isExited = false → x.isBlocked = true) :
    (s.taskQueue = [] ∧ s.stop = false) ∨ s.NotifyPending := by
  obtain ⟨x,hx,hxe⟩ := hlive
  by_cases hstop : s.stop = true
  · rcases hi.stop hstop with ⟨c,hc,hp⟩ | hn
    · right
      exact ⟨c,hc,by cases c <;> simp_all [Call.isStopPending,Call.isPending]⟩
    · exact absurd (hb x hx hxe) (by simp [hn x hx])
  · by_cases hq : s.taskQueue = []
    · exact .inl ⟨hq,by simpa using hstop⟩
    · rcases hi.queue hq with hp | ⟨y,hy,hya⟩ | he
      · exact .inr hp
      · simp only [Worker.isActive,Bool.and_eq_true,Bool.not_eq_true'] at hya
        exact absurd (hb y hy hya.2) (by simp [hya.1])
      · exact absurd (he x hx) (by simp [hxe])

end Blush.TaskRunner
