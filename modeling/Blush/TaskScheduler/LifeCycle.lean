import Blush.Lib.Slots
import Blush.TaskScheduler.Model

/-! The life of one scheduled task, without threads, locks or other tasks: how many entries,
closures and calls of it exist, its status word, and what has happened to it. -/
namespace Blush.TaskScheduler
open Slots

/-- A call that concerns the task: before and after its push, and before the first and the
second compare-exchange of `Cancel`. -/
inductive CallStage
  | pushing
  | announcing
  | cancelling
  | recancelling
  deriving DecidableEq

/-- A closure of the task: inside `AddTask`, in the queue, taken by a worker, in the task,
and after the task has returned. -/
inductive PoolStage
  | handing
  | queued
  | taken
  | executing
  | leaving
  deriving DecidableEq

/-- What the timer is about to do with an item of the task. -/
inductive Hand
  | popped
  | overlap
  | slide
  | reinsert
  | dispatch
  | adding
  deriving DecidableEq

structure Life where
  born : Prop
  published : Prop
  alive : Bool
  word : ScheduleStatus
  calls : CallStage → ℕ
  heap : ℕ
  hand : Option Hand
  pool : PoolStage → ℕ
  handed : ℕ
  record : Event → ℕ
  late : Prop

/-- One more event of the kind `e`. -/
def bump (e : Event) (n : Event → ℕ) : Event → ℕ := fun e' => n e' + if e = e' then 1 else 0

/-- The steps in which the code does not do what it was asked: an invocation that is refused,
and a `Cancel` whose second compare-exchange finds the task scheduled. -/
inductive Mark
  | plain
  | refusal
  | lostCancel

/-- Everything that can happen to the task `c`; `forgo` is that its number goes to a task of
the other kind. -/
inductive LifeStep (c : Handle) : Mark → Life → Life → Prop
  | schedule {l k} (hb : ¬l.born) (ha : l.alive = true)
      (hk : Moves l.calls k none (some .pushing)) :
      LifeStep c .plain l { l with born := True, word := .scheduled, calls := k }
  | forgo {l} (hb : ¬l.born) : LifeStep c .plain l { l with born := True }
  | push {l k} (hk : Moves l.calls k (some .pushing) (some .announcing)) :
      LifeStep c .plain l
        { l with calls := k, heap := l.heap+1, record := bump .pushed l.record }
  | announce {l k} (hk : Moves l.calls k (some .announcing) none) :
      LifeStep c .plain l { l with calls := k, published := True }
  | cancel {l k} (hp : l.published) (hk : Moves l.calls k none (some .cancelling)) :
      LifeStep c .plain l { l with calls := k }
  | cancelScheduled {l k} (hw : l.word = .scheduled)
      (hk : Moves l.calls k (some .cancelling) none) :
      LifeStep c .plain l
        { l with calls := k, word := .cancelled, record := bump .cancelReturned l.record }
  | cancelFailed {l k} (hw : l.word ≠ .scheduled)
      (hk : Moves l.calls k (some .cancelling) (some .recancelling)) :
      LifeStep c .plain l { l with calls := k }
  | cancelRunning {l k} (hw : l.word ≠ .scheduled)
      (hk : Moves l.calls k (some .recancelling) none) :
      LifeStep c .plain l { l with
        calls := k, word := l.word.cancelRunning.2, record := bump .cancelReturned l.record }
  | cancelLost {l k} (hw : l.word = .scheduled)
      (hk : Moves l.calls k (some .recancelling) none) :
      LifeStep c .lostCancel l { l with calls := k, record := bump .cancelReturned l.record }
  | pop {l n} (hh : l.hand = none) (hn : l.heap = n+1) :
      LifeStep c .plain l { l with heap := n, hand := some .popped }
  | discard {l} (hh : l.hand = some .popped) (hw : l.word = .cancelled) :
      LifeStep c .plain l { l with hand := none, record := bump .discarded l.record }
  | overlap {l} (hh : l.hand = some .popped) (hw : l.word ≠ .cancelled)
      (hr : c.isRepeating = true) : LifeStep c .plain l { l with hand := some .overlap }
  | queue {l} (hh : l.hand = some .popped) (hw : l.word ≠ .cancelled)
      (hr : c.isRepeating = true) : LifeStep c .plain l { l with hand := some .reinsert }
  | oneShot {l} (hh : l.hand = some .popped) (hw : l.word ≠ .cancelled)
      (hr : c.isRepeating = false) : LifeStep c .plain l { l with hand := some .dispatch }
  | skip {l} (hh : l.hand = some .overlap) (hw : l.word = .running) :
      LifeStep c .plain l { l with hand := some .slide }
  | noOverlap {l} (hh : l.hand = some .overlap) (hw : l.word ≠ .running) :
      LifeStep c .plain l { l with hand := some .reinsert }
  | slide {l} (hh : l.hand = some .slide) :
      LifeStep c .plain l { l with
        hand := none, heap := l.heap+1, record := bump .pushed l.record }
  | reinsert {l} (hh : l.hand = some .reinsert) :
      LifeStep c .plain l { l with
        hand := some .dispatch, heap := l.heap+1, record := bump .pushed l.record }
  | dispatch {l p} (hh : l.hand = some .dispatch) (hp : Moves l.pool p none (some .handing)) :
      LifeStep c .plain l { l with hand := some .adding, pool := p }
  | added {l} (hh : l.hand = some .adding) (hp : l.pool .handing = 0) :
      LifeStep c .plain l { l with hand := none }
  | enqueue {l p} (hp : Moves l.pool p (some .handing) (some .queued)) :
      LifeStep c .plain l { l with pool := p, handed := l.handed+1 }
  | dequeue {l p} (hp : Moves l.pool p (some .queued) (some .taken)) :
      LifeStep c .plain l { l with pool := p }
  | start {l p} (hw : l.word = .scheduled) (hp : Moves l.pool p (some .taken) (some .executing)) :
      LifeStep c .plain l { l with
        pool := p, word := .running, record := bump .started l.record
        late := l.late ∨ 0 < l.record .cancelReturned }
  | refuse {l p} (hw : l.word ≠ .scheduled) (hp : Moves l.pool p (some .taken) none) :
      LifeStep c .refusal l { l with pool := p, record := bump .refused l.record }
  | complete {l p} (hp : Moves l.pool p (some .executing) (some .leaving)) :
      LifeStep c .plain l { l with pool := p, record := bump .completed l.record }
  | finish {l p} (hp : Moves l.pool p (some .leaving) none) :
      LifeStep c .plain l { l with pool := p, word := c.finish l.word }
  | free {l} : LifeStep c .plain l { l with alive := false, heap := 0 }

namespace Life
variable {l l' : Life} {c : Handle} {m : Mark}

/-- Nothing of a task exists before its push, and nobody cancels it before it is handed out. -/
structure Seen (l : Life) : Prop where
  unborn : ¬l.born → l.calls .pushing = 0 ∧ l.record .pushed = 0
  pushing : 0 < l.calls .pushing → l.calls .pushing = 1 ∧ l.record .pushed = 0
  announcing : 0 < l.calls .announcing → 0 < l.record .pushed
  published : l.published → 0 < l.record .pushed
  cancelling : 0 < l.calls .cancelling + l.calls .recancelling → l.published
  returned : 0 < l.record .cancelReturned → l.published
  cancelled : l.word = .cancelled → l.published
  heap : 0 < l.heap → 0 < l.record .pushed
  hand : l.hand ≠ none → 0 < l.record .pushed
  handing : 0 < l.pool .handing → 0 < l.record .pushed
  handed : 0 < l.handed → 0 < l.record .pushed

/-- Where the closures handed to the pool are, and how far they got. -/
structure Accounted (l : Life) : Prop where
  queue : l.handed = l.pool .queued + l.pool .taken + l.record .started + l.record .refused
  started : l.record .started = l.pool .executing + l.record .completed
  leaving : l.pool .leaving ≤ l.record .completed
  handing : l.pool .handing = 0 ∨ (l.pool .handing = 1 ∧ l.hand = some .adding)

/-- The status word says whether a worker is between `TrySetRunning` and the end of the
closure, and there is never more than one. -/
structure Exclusive (l : Life) : Prop where
  atMost : l.pool .executing + l.pool .leaving ≤ 1
  running : l.word = .running → l.pool .executing + l.pool .leaving = 1
  free : l.word = .scheduled ∨ l.word = .completed → l.pool .executing + l.pool .leaving = 0

end Life

@[simp] theorem finish_eq_cancelled {c : Handle} {word : ScheduleStatus} :
    c.finish word = .cancelled ↔ word = .cancelled := by
  cases c <;> cases word <;> simp [Handle.finish,ScheduleStatus.setCompleted,
    ScheduleStatus.resetToScheduled,ScheduleStatus.compareExchange]

@[simp] theorem finish_ne_running {c : Handle} {word : ScheduleStatus} :
    c.finish word ≠ .running := by
  cases c <;> cases word <;> simp [Handle.finish,ScheduleStatus.setCompleted,
    ScheduleStatus.resetToScheduled,ScheduleStatus.compareExchange]

@[simp] theorem cancelRunning_ne_running {word : ScheduleStatus} :
    word.cancelRunning.2 ≠ .running := by
  cases word <;> decide

variable {l l' : Life} {c : Handle} {m : Mark}

theorem moves_calls_iff {n n' : CallStage → ℕ} {x y : Option CallStage} : Moves n n' x y ↔
    (n' .pushing + (if x = some .pushing then 1 else 0) =
      n .pushing + if y = some .pushing then 1 else 0) ∧
    (n' .announcing + (if x = some .announcing then 1 else 0) =
      n .announcing + if y = some .announcing then 1 else 0) ∧
    (n' .cancelling + (if x = some .cancelling then 1 else 0) =
      n .cancelling + if y = some .cancelling then 1 else 0) ∧
    n' .recancelling + (if x = some .recancelling then 1 else 0) =
      n .recancelling + if y = some .recancelling then 1 else 0 :=
  ⟨fun h => ⟨h _,h _,h _,h _⟩,fun h k => by
    obtain ⟨h1,h2,h3,h4⟩ := h
    cases k <;> assumption⟩

theorem moves_pool_iff {n n' : PoolStage → ℕ} {x y : Option PoolStage} : Moves n n' x y ↔
    (n' .handing + (if x = some .handing then 1 else 0) =
      n .handing + if y = some .handing then 1 else 0) ∧
    (n' .queued + (if x = some .queued then 1 else 0) =
      n .queued + if y = some .queued then 1 else 0) ∧
    (n' .taken + (if x = some .taken then 1 else 0) =
      n .taken + if y = some .taken then 1 else 0) ∧
    (n' .executing + (if x = some .executing then 1 else 0) =
      n .executing + if y = some .executing then 1 else 0) ∧
    n' .leaving + (if x = some .leaving then 1 else 0) =
      n .leaving + if y = some .leaving then 1 else 0 :=
  ⟨fun h => ⟨h _,h _,h _,h _,h _⟩,fun h k => by
    obtain ⟨h1,h2,h3,h4,h5⟩ := h
    cases k <;> assumption⟩

namespace Life

/-- After the first push every guarantee is about what may cancel. -/
theorem Seen.of_pushed (hb : l.born) (hp : l.calls .pushing = 0) (hn : 0 < l.record .pushed)
    (hc : 0 < l.calls .cancelling + l.calls .recancelling → l.published)
    (hr : 0 < l.record .cancelReturned → l.published) (hw : l.word = .cancelled → l.published) :
    l.Seen :=
  ⟨fun h => absurd hb h,fun h => absurd hp (by omega),fun _ => hn,fun _ => hn,hc,hr,hw,
    fun _ => hn,fun _ => hn,fun _ => hn,fun _ => hn⟩

/-- Calls start and go on; none that has yet to push is among them. -/
theorem Seen.setCalls (hi : l.Seen) {k : CallStage → ℕ} (hp : k .pushing = l.calls .pushing)
    (ha : k .announcing ≤ l.calls .announcing)
    (hc : 0 < k .cancelling + k .recancelling → l.published) : { l with calls := k }.Seen :=
  { hi with
    unborn := fun h => ⟨hp.trans (hi.unborn h).1,(hi.unborn h).2⟩
    pushing := fun h => (hi.pushing (hp ▸ h)).imp_left hp.trans
    announcing := fun h => hi.announcing (lt_of_lt_of_le h ha)
    cancelling := hc }

theorem Seen.born (hi : l.Seen) (hn : 0 < l.record .pushed) : l.born ∧ l.calls .pushing = 0 := by
  constructor
  · by_contra hb
    have := (hi.unborn hb).2
    omega
  · by_contra hp
    have := (hi.pushing (by omega)).2
    omega

theorem Seen.step (hi : l.Seen) (h : LifeStep c m l l') : l'.Seen := by
  cases h with
  | schedule hb _ hk =>
    obtain ⟨hp,hn⟩ := hi.unborn hb
    simp [moves_calls_iff] at hk
    exact { hi with
      unborn := fun h => absurd trivial h
      pushing := fun _ => ⟨by dsimp only; omega,hn⟩
      announcing := fun h => hi.announcing (hk.2.1 ▸ h)
      cancelling := fun h => hi.cancelling (hk.2.2.1 ▸ hk.2.2.2 ▸ h)
      cancelled := fun h => by cases h }
  | forgo => exact { hi with unborn := fun h => absurd trivial h }
  | push hk =>
    simp [moves_calls_iff] at hk
    have hb : l.born := by
      by_contra hb
      have := (hi.unborn hb).1
      omega
    have hp := (hi.pushing (by omega)).1
    exact .of_pushed hb (by dsimp only; omega) (by simp [bump])
      (fun h => hi.cancelling (hk.2.2.1 ▸ hk.2.2.2 ▸ h)) hi.returned hi.cancelled
  | announce hk =>
    simp [moves_calls_iff] at hk
    have hn := hi.announcing (by omega)
    obtain ⟨hb,hp⟩ := hi.born hn
    exact .of_pushed hb (hk.1.trans hp) hn (fun _ => trivial) (fun _ => trivial) fun _ => trivial
  | cancel hp hk =>
    simp [moves_calls_iff] at hk
    exact hi.setCalls hk.1 hk.2.1.le fun _ => hp
  | cancelFailed _ hk =>
    simp [moves_calls_iff] at hk
    exact hi.setCalls hk.1 hk.2.1.le fun _ => hi.cancelling (by omega)
  | cancelScheduled _ hk =>
    simp [moves_calls_iff] at hk
    have hp := hi.cancelling (by omega)
    exact { hi.setCalls hk.1 hk.2.1.le fun _ => hp with
      returned := fun _ => hp, cancelled := fun _ => hp }
  | cancelRunning _ hk | cancelLost _ hk =>
    simp [moves_calls_iff] at hk
    have hp := hi.cancelling (by omega)
    exact { hi.setCalls hk.1 hk.2.1.le fun _ => hp with
      returned := fun _ => hp, cancelled := fun _ => hp }
  | pop _ hn =>
    have hp := hi.heap (by omega)
    exact { hi with heap := fun _ => hp, hand := fun _ => hp }
  | discard => exact { hi with hand := fun h => absurd rfl h }
  | overlap hh | queue hh | oneShot hh | skip hh | noOverlap hh =>
    exact { hi with hand := fun _ => hi.hand (by simp [hh]) }
  | slide hh | reinsert hh =>
    obtain ⟨hb,hp⟩ := hi.born (hi.hand (by simp [hh]))
    exact .of_pushed hb hp (by simp [bump]) hi.cancelling hi.returned hi.cancelled
  | dispatch hh =>
    have hn := hi.hand (by simp [hh])
    exact { hi with hand := fun _ => hn, handing := fun _ => hn }
  | added => exact { hi with hand := fun h => absurd rfl h }
  | enqueue hp =>
    simp [moves_pool_iff] at hp
    have hn := hi.handing (by omega)
    exact { hi with handing := fun _ => hn, handed := fun _ => hn }
  | dequeue hp | refuse _ hp | complete hp =>
    simp [moves_pool_iff] at hp
    exact { hi with handing := fun h => hi.handing (hp.1 ▸ h) }
  | start _ hp =>
    simp [moves_pool_iff] at hp
    exact { hi with handing := fun h => hi.handing (hp.1 ▸ h), cancelled := fun h => by cases h }
  | finish hp =>
    simp [moves_pool_iff] at hp
    exact { hi with
      handing := fun h => hi.handing (hp.1 ▸ h)
      cancelled := fun h => hi.cancelled (finish_eq_cancelled.mp h) }
  | free => exact { hi with heap := fun h => absurd h (lt_irrefl 0) }

/-- A closure enters `AddTask` only from the hand of the timer. -/
theorem Accounted.handing_zero (hi : l.Accounted) (h : l.hand ≠ some .adding) :
    l.pool .handing = 0 := hi.handing.resolve_right fun he => h he.2

theorem Accounted.step (hi : l.Accounted) (h : LifeStep c m l l') : l'.Accounted := by
  cases h with
  | schedule | forgo | push | announce | cancel | cancelFailed | cancelScheduled | cancelRunning
  | cancelLost | free => exact { hi with }
  | pop hh => exact { hi with handing := .inl (hi.handing_zero (by simp [hh])) }
  | discard hh | overlap hh | queue hh | oneShot hh | skip hh | noOverlap hh | slide hh
  | reinsert hh => exact { hi with handing := .inl (hi.handing_zero (by simp [hh])) }
  | dispatch hh hp =>
    have h0 := hi.handing_zero (by simp [hh])
    simp [moves_pool_iff] at hp
    obtain ⟨hq,hs,hl,-⟩ := hi
    exact ⟨by dsimp only; omega,by dsimp only; omega,by dsimp only; omega,
      .inr ⟨by dsimp only; omega,rfl⟩⟩
  | added _ hp => exact { hi with handing := .inl hp }
  | enqueue hp | dequeue hp | start _ hp | refuse _ hp | complete hp | finish hp =>
    simp [moves_pool_iff] at hp
    obtain ⟨hq,hs,hl,hh⟩ := hi
    constructor <;> simp [bump] <;> grind

/-- Before the first push no worker is in the task. -/
theorem Accounted.outside (hi : l.Accounted) (hs : l.Seen) (hn : l.record .pushed = 0) :
    l.pool .executing = 0 ∧ l.pool .leaving = 0 := by
  have hh : l.handed = 0 := by
    by_contra h
    have := hs.handed (by omega)
    omega
  obtain ⟨hq,he,hl,-⟩ := hi
  omega

theorem Exclusive.step (hi : l.Exclusive) (ha : l.Accounted) (hs : l.Seen)
    (h : LifeStep c m l l') : l'.Exclusive := by
  cases h with
  | schedule hb =>
    obtain ⟨he,hl⟩ := ha.outside hs (hs.unborn hb).2
    exact ⟨hi.atMost,by simp,fun _ => by simp [he,hl]⟩
  | forgo | push | announce | cancel | cancelFailed | cancelLost | pop | discard | overlap | queue
  | oneShot | skip | noOverlap | slide | reinsert | added | free => exact { hi with }
  | cancelScheduled => exact ⟨hi.atMost,by simp,by simp⟩
  | cancelRunning hw =>
    refine ⟨hi.atMost,fun h => absurd h cancelRunning_ne_running,fun h => hi.free ?_⟩
    cases hc : l.word <;> simp_all [ScheduleStatus.cancelRunning,ScheduleStatus.compareExchange]
  | dispatch _ hp | enqueue hp | dequeue hp | refuse _ hp | complete hp =>
    simp [moves_pool_iff] at hp
    obtain ⟨h1,h2,h3⟩ := hi
    constructor <;> grind
  | start hw hp =>
    simp [moves_pool_iff] at hp
    have := hi.free (.inl hw)
    exact ⟨by dsimp only; omega,fun _ => by dsimp only; omega,by simp⟩
  | finish hp =>
    simp [moves_pool_iff] at hp
    obtain ⟨h1,h2,h3⟩ := hi
    exact ⟨by dsimp only; omega,fun h => absurd h finish_ne_running,fun _ => by dsimp only; omega⟩

end Life
end Blush.TaskScheduler
