import Blush.Lib.Progress
import Blush.TaskRunner.Drain
import Blush.TaskRunner.Wakeup

/-! The pool comes to rest when nobody submits any more: whatever the scheduler does, all queued
tasks are executed and the workers end up blocked or, once the destructor runs, gone. -/
namespace Blush.TaskRunner
open Slots Transition Progress Relation
variable {τ φ : Type} {enter : τ → φ} {s s' : State τ φ} {a : Act τ φ} {t : ℕ} {c d : Call τ}
  {x y : Worker τ φ}

/-! ## Who holds the mutex -/

def Call.holds : Call τ → Bool
  | .addTaskPush _ | .addTaskUnlock | .stopStore | .stopUnlock => true
  | _ => false

def Worker.holds : Worker τ φ → Bool
  | .wait | .front | .unlock _ => true
  | _ => false

/-- After the stop store. -/
def Call.isStopped : Call τ → Bool
  | .stopUnlock | .stopNotify | .stopJoin => true
  | _ => false

/-- Before the stop store. -/
def Call.isStopping : Call τ → Bool
  | .stopLock | .stopStore => true
  | _ => false

namespace State

def Holds (s : State τ φ) (t : ℕ) : Prop :=
  (∃ c, s.calls[t]? = some c ∧ c.holds = true) ∨ ∃ x, s.threads[t]? = some x ∧ x.holds = true

/-- The mutex names whoever holds it, a worker past its wait has something to do there, and only
threads of the application run the destructor. -/
structure Orderly (s : State τ φ) : Prop where
  owner : ∀ t, s.mutex = some t ↔ s.Holds t
  front : .front ∈ s.threads → s.stop = true ∨ s.taskQueue ≠ []
  stopped : ∀ c ∈ s.calls, c.isStopped = true → s.stop = true
  outside : ∀ (t : ℕ) (c : Call τ), s.calls[t]? = some c → c.isStop = true →
    s.threads[t]? = none
  enough : s.threads.length ≤ s.calls.length
  begun : s.destroying = true → (∃ c ∈ s.calls, c.isStopping = true) ∨ s.stop = true

end State

theorem init_orderly (workers outside : ℕ) :
    (init workers outside : State τ φ).Orderly where
  owner t := by
    refine ⟨nofun,?_⟩
    rintro (⟨c,hc,hh⟩ | ⟨x,hx,hh⟩)
    · obtain rfl := List.eq_of_mem_replicate (List.mem_of_getElem? hc)
      cases hh
    · obtain rfl := List.eq_of_mem_replicate (List.mem_of_getElem? hx)
      cases hh
  front h := nomatch List.eq_of_mem_replicate h
  stopped c hc h := by
    obtain rfl := List.eq_of_mem_replicate hc
    cases h
  outside t c hc h := by
    obtain rfl := List.eq_of_mem_replicate (List.mem_of_getElem? hc)
    cases h
  enough := by simp [init]
  begun := nofun

/-- A thread is at most in one place where the mutex is held. -/
theorem State.Drains.worker_free (hd : s.Drains) (hc : s.calls[t]? = some c)
    (hn : c.isIdle = false) : ∀ x, s.threads[t]? = some x → x.holds = false := by
  intro x hx
  obtain ⟨task,f,rfl⟩ := hd.inTask t c x hc hx hn
  rfl

theorem State.Drains.call_free (hd : s.Drains) {w : ℕ} (hw : s.threads[w]? = some x)
    (hx : x.running? = none) : ∀ c, s.calls[w]? = some c → c.holds = false := by
  intro c hc
  cases c with
  | idle => rfl
  | _ =>
    obtain ⟨task,f,rfl⟩ := hd.inTask w _ x hc hw rfl
    cases hx

/-- One thread takes the free mutex, keeps it, or releases it. -/
theorem owner_change {H H' : ℕ → Prop} {m : Option ℕ} {b : Bool} (hi : ∀ u, m = some u ↔ H u)
    (hm : m = none ∨ m = some t) (hne : ∀ u, u ≠ t → (H' u ↔ H u)) (ht : H' t ↔ b = true) (u : ℕ) :
    (if b then some t else none) = some u ↔ H' u := by
  by_cases hu : u = t
  · subst u
    rw [ht]
    cases b <;> simp
  · rw [hne u hu,← hi u]
    rcases hm with hm | hm <;> cases b <;> simp [hm,Ne.symm hu]

namespace State.Orderly

theorem owner_call (hi : s.Orderly) (hc : s.calls[t]? = some c)
    (hw : ∀ x, s.threads[t]? = some x → x.holds = false) (hm : s.mutex = none ∨ s.mutex = some t)
    (hcalls : s'.calls = s.calls.set t d) (hthreads : s'.threads = s.threads)
    (hmutex : s'.mutex = if d.holds then some t else none) :
    ∀ u, s'.mutex = some u ↔ s'.Holds u := by
  rw [hmutex]
  refine owner_change hi.owner hm (fun u hu => ?_) ?_
  · simp only [State.Holds,hcalls,hthreads,List.getElem?_set_ne (Ne.symm hu)]
  · simp only [State.Holds,hcalls,hthreads,getElem?_set_self hc,Option.some.injEq,exists_eq_left']
    refine or_iff_left ?_
    rintro ⟨x,hx,hh⟩
    simp [hw x hx] at hh

theorem owner_worker (hi : s.Orderly) {w : ℕ} (hw : s.threads[w]? = some x)
    (hc : ∀ c, s.calls[w]? = some c → c.holds = false) (hm : s.mutex = none ∨ s.mutex = some w)
    (hcalls : s'.calls = s.calls) (hthreads : s'.threads = s.threads.set w y)
    (hmutex : s'.mutex = if y.holds then some w else none) :
    ∀ u, s'.mutex = some u ↔ s'.Holds u := by
  rw [hmutex]
  refine owner_change hi.owner hm (fun u hu => ?_) ?_
  · simp only [State.Holds,hcalls,hthreads,List.getElem?_set_ne (Ne.symm hu)]
  · simp only [State.Holds,hcalls,hthreads,getElem?_set_self hw,Option.some.injEq,exists_eq_left']
    refine or_iff_right ?_
    rintro ⟨c,hx,hh⟩
    simp [hc c hx] at hh

/-- A step that neither takes nor releases the mutex. -/
theorem owner_keep (hi : s.Orderly) (hm : s'.mutex = s.mutex)
    (hc : ∀ u : ℕ, (∃ c, s'.calls[u]? = some c ∧ Call.holds c = true) ↔
      ∃ c, s.calls[u]? = some c ∧ Call.holds c = true)
    (hw : ∀ u : ℕ, (∃ x, s'.threads[u]? = some x ∧ Worker.holds x = true) ↔
      ∃ x, s.threads[u]? = some x ∧ Worker.holds x = true) : ∀ u, s'.mutex = some u ↔ s'.Holds u := by
  intro u
  rw [hm,hi.owner u]
  exact (or_congr (hc u) (hw u)).symm

theorem holder (hi : s.Orderly) (hc : s.calls[t]? = some c) (hh : c.holds = true) :
    s.mutex = some t := (hi.owner t).mpr (.inl ⟨c,hc,hh⟩)

theorem holder_worker (hi : s.Orderly) {w : ℕ} (hw : s.threads[w]? = some x)
    (hh : x.holds = true) : s.mutex = some w := (hi.owner w).mpr (.inr ⟨x,hw,hh⟩)

/-- What a step of a call has to leave in order. -/
theorem of_call (hi : s.Orderly) (ho : ∀ u, s'.mutex = some u ↔ s'.Holds u)
    (hcalls : s'.calls = s.calls.set t d) (hthreads : s'.threads = s.threads)
    (hq : s.taskQueue ≠ [] → s'.taskQueue ≠ []) (hstop : s.stop = true → s'.stop = true)
    (hs : d.isStopped = false ∨ s'.stop = true) (hd : d.isStop = false ∨ s.threads[t]? = none)
    (hb : s'.destroying = true → s'.stop = false → ∃ c ∈ s.calls.set t d, c.isStopping = true) :
    s'.Orderly where
  owner := ho
  front h := by
    rw [hthreads] at h
    exact (hi.front h).imp hstop hq
  stopped e he h := by
    rw [hcalls] at he
    rcases List.mem_or_eq_of_mem_set he with he | rfl
    · exact hstop (hi.stopped e he h)
    · exact hs.resolve_left (by simp [h])
  outside u e he h := by
    rw [hcalls] at he
    rw [hthreads]
    rcases getElem?_set_cases he with ⟨rfl,rfl⟩ | ⟨-,he⟩
    · exact hd.resolve_left (by simp [h])
    · exact hi.outside u e he h
  enough := by
    rw [hcalls,hthreads,List.length_set]
    exact hi.enough
  begun hd' := by
    rw [hcalls]
    cases hs' : s'.stop with
    | true => exact .inr rfl
    | false => exact .inl (hb hd' hs')

/-- A call other than the one that stops the pool moves on. -/
theorem begun_set (hi : s.Orderly) (hc : s.calls[t]? = some c)
    (hd : c.isStopping = false ∨ d.isStopping = true) (hb : s.destroying = true)
    (hs : s.stop = false) : ∃ c ∈ s.calls.set t d, c.isStopping = true := by
  rcases hi.begun hb with ⟨e,he,hh⟩ | h
  · by_cases hcs : c.isStopping = true
    · exact ⟨d,mem_set_self hc,hd.resolve_left (by simp [hcs])⟩
    · exact ⟨e,mem_set_of_ne hc he fun h => hcs (h ▸ hh),hh⟩
  · simp [hs] at h

/-- What a step of a worker has to leave in order. -/
theorem of_worker (hi : s.Orderly) {w : ℕ} (ho : ∀ u, s'.mutex = some u ↔ s'.Holds u)
    (hcalls : s'.calls = s.calls) (hthreads : s'.threads = s.threads.set w y)
    (hstop : s'.stop = s.stop) (hdestroying : s'.destroying = s.destroying)
    (hf : .front ∈ s.threads.set w y → s.stop = true ∨ s'.taskQueue ≠ []) : s'.Orderly where
  owner := ho
  front h := by
    rw [hthreads] at h
    exact hstop ▸ hf h
  stopped e he h := by
    rw [hcalls] at he
    exact hstop ▸ hi.stopped e he h
  outside u e he h := by
    rw [hcalls] at he
    simpa [hthreads] using hi.outside u e he h
  enough := by
    rw [hcalls,hthreads,List.length_set]
    exact hi.enough
  begun := by
    rw [hcalls,hstop,hdestroying]
    exact hi.begun

/-- A worker that does not get past its wait has nothing to find there. -/
theorem front_set (hi : s.Orderly) {w : ℕ} (hy : y ≠ .front) :
    .front ∈ s.threads.set w y → s.stop = true ∨ s.taskQueue ≠ [] := by
  intro h
  rcases List.mem_or_eq_of_mem_set h with h | h
  · exact hi.front h
  · exact absurd h.symm hy

/-- Only the worker that dequeues is past its wait. -/
theorem front_unique (hi : s.Orderly) {w : ℕ} (hw : s.threads[w]? = some .front)
    (hy : y ≠ .front) : .front ∉ s.threads.set w y := by
  intro h
  obtain ⟨v,hv⟩ := List.mem_iff_getElem?.mp h
  rcases getElem?_set_cases hv with ⟨-,hv⟩ | ⟨hne,hv⟩
  · exact hy hv.symm
  · have hm := hi.holder_worker hv rfl
    rw [hi.holder_worker hw rfl] at hm
    exact hne (Option.some.inj hm).symm

end State.Orderly

theorem step_orderly (hi : s.Orderly) (hd : s.Drains) (h : step enter s a = some s') :
    s'.Orderly := by
  cases step_cases h with
  | addTask hc ho =>
    exact hi.of_call (hi.owner_keep rfl (exists_set_same hc rfl) fun _ => .rfl) rfl rfl id id
      (.inl rfl) (.inl rfl) (hi.begun_set hc (.inl rfl))
  | destroy hc ht =>
    exact hi.of_call (hi.owner_keep rfl (exists_set_same hc rfl) fun _ => .rfl) rfl rfl id id
      (.inl rfl) (.inr ht) fun _ _ => ⟨_,mem_set_self hc,rfl⟩
  | @addTaskLock t waiter task hc hm =>
    exact hi.of_call (hi.owner_call hc (hd.worker_free hc rfl) (.inl hm) rfl rfl rfl) rfl rfl id id
      (.inl rfl) (.inl rfl) (hi.begun_set hc (.inl rfl))
  | @addTaskPush t waiter task hc =>
    have hm := hi.holder hc rfl
    exact hi.of_call (hi.owner_call hc (hd.worker_free hc rfl) (.inr hm) rfl rfl hm) rfl rfl
      (by simp) id (.inl rfl) (.inl rfl) (hi.begun_set hc (.inl rfl))
  | addTaskUnlock hc =>
    have hm := hi.holder hc rfl
    exact hi.of_call (hi.owner_call hc (hd.worker_free hc rfl) (.inr hm) rfl rfl rfl) rfl rfl id id
      (.inl rfl) (.inl rfl) (hi.begun_set hc (.inl rfl))
  | @notifyWaiter t w hc hw =>
    have hd' : (s.setWorker w .lock).Orderly :=
      hi.of_worker (hi.owner_keep rfl (fun _ => .rfl) (exists_set_same hw rfl)) rfl rfl rfl rfl
        (hi.front_set (by simp))
    have hc' : (s.setWorker w .lock).calls[t]? = some .addTaskNotify := hc
    exact hd'.of_call (hd'.owner_keep rfl (exists_set_same hc' rfl) fun _ => .rfl) rfl rfl id id
      (.inl rfl) (.inl rfl) (hd'.begun_set hc' (.inl rfl))
  | notifyNobody hc hn =>
    exact hi.of_call (hi.owner_keep rfl (exists_set_same hc rfl) fun _ => .rfl) rfl rfl id id
      (.inl rfl) (.inl rfl) (hi.begun_set hc (.inl rfl))
  | stopLock hc hm =>
    exact hi.of_call (hi.owner_call hc (hd.worker_free hc rfl) (.inl hm) rfl rfl rfl) rfl rfl id id
      (.inl rfl) (.inr (hi.outside _ _ hc rfl)) (hi.begun_set hc (.inr rfl))
  | stopStore hc =>
    have hm := hi.holder hc rfl
    exact hi.of_call (hi.owner_call hc (hd.worker_free hc rfl) (.inr hm) rfl rfl hm) rfl rfl id
      (fun _ => rfl) (.inr rfl) (.inr (hi.outside _ _ hc rfl)) fun _ h => absurd h (by simp)
  | stopUnlock hc =>
    have hm := hi.holder hc rfl
    exact hi.of_call (hi.owner_call hc (hd.worker_free hc rfl) (.inr hm) rfl rfl rfl) rfl rfl id id
      (.inr (hi.stopped _ (List.mem_of_getElem? hc) rfl)) (.inr (hi.outside _ _ hc rfl))
      (hi.begun_set hc (.inl rfl))
  | @stopNotify t waiter hc =>
    have hs := hi.stopped _ (List.mem_of_getElem? hc) rfl
    have hd' : (s.setCall t .stopJoin).Orderly :=
      hi.of_call (hi.owner_keep rfl (exists_set_same hc rfl) fun _ => .rfl) rfl rfl id id
        (.inr hs) (.inr (hi.outside _ _ hc rfl)) (hi.begun_set hc (.inl rfl))
    have hn : ∀ x : Worker τ φ, x.notified.holds = x.holds := by intro x; cases x <;> rfl
    refine ⟨hd'.owner_keep rfl (fun _ => .rfl) fun u => ?_,fun _ => .inl hs,hd'.stopped,
      fun u e he h => ?_,?_,fun _ => .inr hs⟩
    · rw [List.getElem?_map]
      change _ ↔ ∃ x, s.threads[u]? = some x ∧ Worker.holds x = true
      cases s.threads[u]? <;> simp [hn]
    · have hu : s.threads[u]? = none := hd'.outside u e he h
      rw [List.getElem?_map,hu]
      rfl
    · simpa [State.setCall] using hi.enough
  | stopJoin hc he =>
    exact hi.of_call (hi.owner_keep rfl (exists_set_same hc rfl) fun _ => .rfl) rfl rfl id id
      (.inl rfl) (.inl rfl) (hi.begun_set hc (.inl rfl))
  | lock hw hm =>
    exact hi.of_worker (hi.owner_worker hw (hd.call_free hw rfl) (.inl hm) rfl rfl rfl) rfl rfl rfl
      rfl (hi.front_set (by simp))
  | awake hw hp =>
    have hm := hi.holder_worker hw rfl
    exact hi.of_worker (hi.owner_worker hw (hd.call_free hw rfl) (.inr hm) rfl rfl hm) rfl rfl rfl
      rfl fun _ => hp
  | block hw hs hq =>
    have hm := hi.holder_worker hw rfl
    exact hi.of_worker (hi.owner_worker hw (hd.call_free hw rfl) (.inr hm) rfl rfl rfl) rfl rfl rfl
      rfl (hi.front_set (by simp))
  | exit hw hs hq =>
    have hm := hi.holder_worker hw rfl
    exact hi.of_worker (hi.owner_worker hw (hd.call_free hw rfl) (.inr hm) rfl rfl rfl) rfl rfl rfl
      rfl (hi.front_set (by simp))
  | @dequeue w task rest hw hq =>
    have hm := hi.holder_worker hw rfl
    exact hi.of_worker (hi.owner_worker hw (hd.call_free hw rfl) (.inr hm) rfl rfl hm) rfl rfl rfl
      rfl fun h => absurd h (hi.front_unique hw (by simp))
  | unlock hw =>
    have hm := hi.holder_worker hw rfl
    exact hi.of_worker (hi.owner_worker hw (hd.call_free hw rfl) (.inr hm) rfl rfl rfl) rfl rfl rfl
      rfl (hi.front_set (by simp))
  | spurious hw =>
    exact hi.of_worker (hi.owner_keep rfl (fun _ => .rfl) (exists_set_same hw rfl)) rfl rfl rfl rfl
      (hi.front_set (by simp))
  | frame hw =>
    exact hi.of_worker (hi.owner_keep rfl (fun _ => .rfl) (exists_set_same hw rfl)) rfl rfl rfl rfl
      (hi.front_set (by simp))
  | returned hw hc =>
    exact hi.of_worker (hi.owner_keep rfl (fun _ => .rfl) (exists_set_same hw rfl)) rfl rfl rfl rfl
      (hi.front_set (by simp))

/-! ## What is left to do -/

/-- What the pool has in hand: calls in progress, queued tasks, and its workers. -/
inductive Item (τ φ : Type)
  | call (c : Call τ)
  | queued (task : τ)
  | worker (x : Worker τ φ)

def State.items (s : State τ φ) : Multiset (Item τ φ) :=
  (s.calls.map Item.call : List (Item τ φ)) + ((s.taskQueue.map Item.queued : List (Item τ φ)) +
    (s.threads.map Item.worker : List (Item τ φ)))

/-- What an item comes to in one step, while tasks go down `r`. Before the stop store a worker
blocks; afterwards a blocked worker can only wake up. -/
inductive Item.After (enter : τ → φ) (r : φ → φ → Prop) :
    Bool → Item τ φ → Item τ φ → Prop
  | addTaskLock {b task} : After enter r b (.call (.addTaskPush task)) (.call (.addTaskLock task))
  | push {b task} : After enter r b (.queued task) (.call (.addTaskPush task))
  | addTaskPush {b task} : After enter r b (.call .addTaskUnlock) (.call (.addTaskPush task))
  | addTaskUnlock {b} : After enter r b (.call .addTaskNotify) (.call .addTaskUnlock)
  | notify {b} : After enter r b (.worker .lock) (.call .addTaskNotify)
  | addTaskNotify {b} : After enter r b (.call .idle) (.call .addTaskNotify)
  | stopLock {b} : After enter r b (.call .stopStore) (.call .stopLock)
  | stopStore {b} : After enter r b (.call .stopUnlock) (.call .stopStore)
  | stopUnlock {b} : After enter r b (.call .stopNotify) (.call .stopUnlock)
  | stopNotify {b} : After enter r b (.call .stopJoin) (.call .stopNotify)
  | stopJoin {b} : After enter r b (.call .idle) (.call .stopJoin)
  | dequeue {b task} : After enter r b (.worker (.unlock task)) (.queued task)
  | unlock {b task} :
      After enter r b (.worker (.running task (enter task))) (.worker (.unlock task))
  | frame {b task f f'} (h : r f' f) :
      After enter r b (.worker (.running task f')) (.worker (.running task f))
  | returned {b task f} : After enter r b (.worker .lock) (.worker (.running task f))
  | lock {b} : After enter r b (.worker .wait) (.worker .lock)
  | awake {b} : After enter r b (.worker .front) (.worker .wait)
  | exit {b} : After enter r b (.worker .exited) (.worker .front)
  | block : After enter r false (.worker .blocked) (.worker .wait)
  | wake : After enter r true (.worker .lock) (.worker .blocked)

theorem Item.after_wf {r : φ → φ → Prop} (hr : WellFounded r) (b : Bool) :
    WellFounded (Item.After enter r b) := by
  have hexited : Acc (After enter r b) (.worker .exited) := .intro _ nofun
  have hfront : Acc (After enter r b) (.worker .front) :=
    .intro _ fun x h => by cases h; exact hexited
  have hwait : Acc (After enter r b) (.worker .wait) := .intro _ fun x h => by
    cases h with
    | awake => exact hfront
    | block => exact .intro _ nofun
  have hlock : Acc (After enter r b) (.worker .lock) :=
    .intro _ fun x h => by cases h; exact hwait
  have hblocked : Acc (After enter r b) (.worker .blocked) :=
    .intro _ fun x h => by cases h; exact hlock
  have hrunning (task : τ) (f : φ) : Acc (After enter r b) (.worker (.running task f)) := by
    induction f using hr.induction with
    | h f ih =>
      refine .intro _ fun x h => ?_
      cases h with
      | frame h => exact ih _ h
      | returned => exact hlock
  have hunlock (task : τ) : Acc (After enter r b) (.worker (.unlock task)) :=
    .intro _ fun x h => by cases h; exact hrunning task _
  have hqueued (task : τ) : Acc (After enter r b) (.queued task) :=
    .intro _ fun x h => by cases h; exact hunlock task
  have hidle : Acc (After enter r b) (.call .idle) := .intro _ nofun
  have hnotify : Acc (After enter r b) (.call .addTaskNotify) := .intro _ fun x h => by
    cases h with
    | notify => exact hlock
    | addTaskNotify => exact hidle
  have haddUnlock : Acc (After enter r b) (.call .addTaskUnlock) :=
    .intro _ fun x h => by cases h; exact hnotify
  have hpush (task : τ) : Acc (After enter r b) (.call (.addTaskPush task)) :=
    .intro _ fun x h => by
      cases h with
      | push => exact hqueued task
      | addTaskPush => exact haddUnlock
  have hjoin : Acc (After enter r b) (.call .stopJoin) :=
    .intro _ fun x h => by cases h; exact hidle
  have hstopNotify : Acc (After enter r b) (.call .stopNotify) :=
    .intro _ fun x h => by cases h; exact hjoin
  have hstopUnlock : Acc (After enter r b) (.call .stopUnlock) :=
    .intro _ fun x h => by cases h; exact hstopNotify
  have hstopStore : Acc (After enter r b) (.call .stopStore) :=
    .intro _ fun x h => by cases h; exact hstopUnlock
  refine ⟨fun x => ?_⟩
  cases x with
  | queued task => exact hqueued task
  | call c =>
    cases c with
    | idle => exact hidle
    | addTaskLock task => exact .intro _ fun x h => by cases h; exact hpush task
    | addTaskPush task => exact hpush task
    | addTaskUnlock => exact haddUnlock
    | addTaskNotify => exact hnotify
    | stopLock => exact .intro _ fun x h => by cases h; exact hstopStore
    | stopStore => exact hstopStore
    | stopUnlock => exact hstopUnlock
    | stopNotify => exact hstopNotify
    | stopJoin => exact hjoin
  | worker x =>
    cases x with
    | lock => exact hlock
    | wait => exact hwait
    | blocked => exact hblocked
    | front => exact hfront
    | unlock task => exact hunlock task
    | running task f => exact hrunning task f
    | exited => exact hexited

/-- The steps the pool takes by itself: tasks get on, nobody submits, and before the stop store no
worker wakes up for nothing, which it could do for ever. -/
def proceeds (r : φ → φ → Prop) (s : State τ φ) : Act τ φ → Prop
  | .addTask _ _ | .destroy _ => False
  | .spurious _ => s.stop = true
  | .frame w f' => ∃ task f, s.threads[w]? = some (.running task f) ∧ r f' f
  | _ => True

variable {r : φ → φ → Prop} {b : Bool}

theorem calls_add (hc : s.calls[t]? = some c) :
    ((s.calls.set t d).map .call : List (Item τ φ)) + ({.call c} : Multiset (Item τ φ)) =
      (s.calls.map .call : List (Item τ φ)) + ({.call d} : Multiset (Item τ φ)) := by
  rw [List.map_set]
  exact set_add_singleton (by rw [List.getElem?_map,hc,Option.map_some])

theorem threads_add {w : ℕ} (hw : s.threads[w]? = some x) :
    ((s.threads.set w y).map .worker : List (Item τ φ)) + ({.worker x} : Multiset (Item τ φ)) =
      (s.threads.map .worker : List (Item τ φ)) + ({.worker y} : Multiset (Item τ φ)) := by
  rw [List.map_set]
  exact set_add_singleton (by rw [List.getElem?_map,hw,Option.map_some])

theorem items_call (hc : s.calls[t]? = some c) (hr : Item.After enter r b (.call d) (.call c))
    (hcalls : s'.calls = s.calls.set t d) (hq : s'.taskQueue = s.taskQueue)
    (hthreads : s'.threads = s.threads) : CutExpand (Item.After enter r b) s'.items s.items := by
  simp only [State.items,hcalls,hq,hthreads]
  exact (cutExpand_add_right _).mpr ⟨_,_,by simpa using hr,calls_add hc⟩

theorem items_worker {w : ℕ} (hw : s.threads[w]? = some x)
    (hr : Item.After enter r b (.worker y) (.worker x)) (hcalls : s'.calls = s.calls)
    (hq : s'.taskQueue = s.taskQueue) (hthreads : s'.threads = s.threads.set w y) :
    CutExpand (Item.After enter r b) s'.items s.items := by
  simp only [State.items,hcalls,hq,hthreads]
  exact (cutExpand_add_left _).mpr ((cutExpand_add_left _).mpr
    ⟨_,_,by simpa using hr,threads_add hw⟩)

/-- Every such step brings the pool nearer to rest. -/
theorem Step.nearer (hi : s.Orderly) (h : Step enter s a s') (ha : proceeds r s a) :
    (s.stop = false ∧ s'.stop = true) ∨
      (s'.stop = s.stop ∧ TransGen (CutExpand (Item.After enter r s.stop)) s'.items s.items) := by
  cases h with
  | addTask => exact ha.elim
  | destroy => exact ha.elim
  | addTaskLock hc => exact .inr ⟨rfl,.single (items_call hc .addTaskLock rfl rfl rfl)⟩
  | @addTaskPush t waiter task hc =>
    refine .inr ⟨rfl,.single ⟨{.queued task} + {.call .addTaskUnlock},.call (.addTaskPush task),
      ?_,?_⟩⟩
    · intro x hx
      rcases Multiset.mem_add.mp hx with hx | hx
      · exact Multiset.mem_singleton.mp hx ▸ .push
      · exact Multiset.mem_singleton.mp hx ▸ .addTaskPush
    · have hcalls := calls_add (φ:=φ) (d:=.addTaskUnlock) hc
      simp only [State.items,State.setCall,List.map_append,← Multiset.coe_add]
      rw [add_right_comm,hcalls]
      simp only [List.map_cons,List.map_nil,Multiset.coe_singleton]
      abel
  | addTaskUnlock hc => exact .inr ⟨rfl,.single (items_call hc .addTaskUnlock rfl rfl rfl)⟩
  | @notifyWaiter t w hc hw =>
    refine .inr ⟨rfl,transGen_drop (a:=.call .addTaskNotify) (b:=.worker .blocked)
      (u:={.call .idle} + {.worker .lock}) (fun x hx => ?_) ?_⟩
    · rcases Multiset.mem_add.mp hx with hx | hx
      · exact Multiset.mem_singleton.mp hx ▸ .addTaskNotify
      · exact Multiset.mem_singleton.mp hx ▸ .notify
    · have hcalls := calls_add (φ:=φ) (d:=.idle) hc
      have hthreads := threads_add (y:=.lock) hw
      simp only [State.items,State.setCall,State.setWorker]
      grind
  | notifyNobody hc => exact .inr ⟨rfl,.single (items_call hc .addTaskNotify rfl rfl rfl)⟩
  | stopLock hc => exact .inr ⟨rfl,.single (items_call hc .stopLock rfl rfl rfl)⟩
  | stopStore hc =>
    cases hs : s.stop with
    | false => exact .inl ⟨rfl,rfl⟩
    | true => exact .inr ⟨rfl,.single (items_call hc .stopStore rfl rfl rfl)⟩
  | stopUnlock hc => exact .inr ⟨rfl,.single (items_call hc .stopUnlock rfl rfl rfl)⟩
  | @stopNotify t waiter hc =>
    have hs := hi.stopped _ (List.mem_of_getElem? hc) rfl
    have hcall : CutExpand (Item.After enter r s.stop) (s.setCall t .stopJoin).items s.items :=
      items_call hc .stopNotify rfl rfl rfl
    refine .inr ⟨rfl,.tail' ?_ hcall⟩
    simp only [State.items,List.map_map]
    refine (reflTransGen_map fun x _ => ?_).lift _ fun _ _ h =>
      (cutExpand_add_left _).mpr ((cutExpand_add_left _).mpr h)
    cases x with
    | blocked => exact .inr (hs ▸ .wake)
    | _ => exact .inl rfl
  | stopJoin hc => exact .inr ⟨rfl,.single (items_call hc .stopJoin rfl rfl rfl)⟩
  | lock hw => exact .inr ⟨rfl,.single (items_worker hw .lock rfl rfl rfl)⟩
  | awake hw => exact .inr ⟨rfl,.single (items_worker hw .awake rfl rfl rfl)⟩
  | block hw hs => exact .inr ⟨rfl,.single (hs ▸ items_worker hw .block rfl rfl rfl)⟩
  | exit hw => exact .inr ⟨rfl,.single (items_worker hw .exit rfl rfl rfl)⟩
  | @dequeue w task rest hw hq =>
    refine .inr ⟨rfl,transGen_drop (a:=.queued task) (b:=.worker .front)
      (u:={.worker (.unlock task)}) (fun x hx => Multiset.mem_singleton.mp hx ▸ .dequeue) ?_⟩
    have hthreads := threads_add (y:=.unlock task) hw
    simp only [State.items,State.setWorker,hq,List.map_cons,← Multiset.cons_coe,
      ← Multiset.singleton_add]
    grind
  | unlock hw => exact .inr ⟨rfl,.single (items_worker hw .unlock rfl rfl rfl)⟩
  | spurious hw =>
    have hs : s.stop = true := ha
    exact .inr ⟨rfl,.single (hs ▸ items_worker hw .wake rfl rfl rfl)⟩
  | @frame w task f f' hw =>
    obtain ⟨task',f'',hw',hr⟩ := ha
    cases Option.some.inj (hw.symm.trans hw')
    exact .inr ⟨rfl,.single (items_worker hw (.frame hr) rfl rfl rfl)⟩
  | returned hw => exact .inr ⟨rfl,.single (items_worker hw .returned rfl rfl rfl)⟩

/-- Nearer to rest: the pool has stopped meanwhile, or has less to do. -/
def Nearer (enter : τ → φ) (r : φ → φ → Prop) (y x : Bool × Multiset (Item τ φ)) : Prop :=
  (x.1 = false ∧ y.1 = true) ∨
    (y.1 = x.1 ∧ TransGen (CutExpand (Item.After enter r x.1)) y.2 x.2)

theorem nearer_wf (enter : τ → φ) (hr : WellFounded r) : WellFounded (Nearer enter r) := by
  have hwf (b : Bool) : WellFounded (TransGen (CutExpand (Item.After (τ:=τ) enter r b))) :=
    (Item.after_wf hr b).cutExpand.transGen
  have hstopped (m : Multiset (Item τ φ)) : Acc (Nearer enter r) (true,m) := by
    induction m using (hwf true).induction with
    | h m ih =>
      refine .intro _ fun y h => ?_
      obtain ⟨b,m'⟩ := y
      rcases h with ⟨h,-⟩ | ⟨rfl,h⟩
      · cases h
      · exact ih m' h
  refine ⟨fun ⟨b,m⟩ => ?_⟩
  cases b with
  | true => exact hstopped m
  | false =>
    induction m using (hwf false).induction with
    | h m ih =>
      refine .intro _ fun y h => ?_
      obtain ⟨b,m'⟩ := y
      rcases h with ⟨-,rfl⟩ | ⟨rfl,h⟩
      · exact hstopped m'
      · exact ih m' h

/-! ## Somebody can go on -/

theorem Call.eq_idle (h : c.isIdle = true) : c = .idle := by
  cases c with
  | idle => rfl
  | _ => cases h

/-- A statement of the pool's code. -/
def Act.isStatement : Act τ φ → Bool
  | .call _ _ | .worker _ => true
  | _ => false

/-- A statement of the pool, or the return of a task. -/
def Act.isOwn : Act τ φ → Bool
  | .call _ _ | .worker _ | .returned _ => true
  | _ => false

def Lively (enter : τ → φ) (s : State τ φ) : Prop :=
  ∃ a : Act τ φ, a.isOwn = true ∧ (step enter s a).isSome = true

/-- Some thread is inside the pool's code and not held up. -/
def Runs (enter : τ → φ) (s : State τ φ) : Prop :=
  ∃ a : Act τ φ, a.isStatement = true ∧ (step enter s a).isSome = true

theorem Runs.lively (h : Runs enter s) : Lively enter s := by
  obtain ⟨a,ha,hs⟩ := h
  refine ⟨a,?_,hs⟩
  cases a <;> first | rfl | cases ha

namespace State.Orderly

/-- Past its wait a worker takes a task, or leaves. -/
theorem front_runs (hi : s.Orderly) {w : ℕ} (hw : s.threads[w]? = some .front) :
    Runs enter s := by
  refine ⟨.worker w,rfl,?_⟩
  simp only [step,workerThread,hw]
  split
  · rfl
  · rename_i hp
    cases hq : s.taskQueue with
    | nil =>
      rcases hi.front (List.mem_of_getElem? hw) with h | h
      · simp [h,hq] at hp
      · exact absurd hq h
    | cons task rest => rfl

/-- Whoever holds the mutex is not held up. -/
theorem owner_runs (hi : s.Orderly) (hm : s.mutex = some t) : Runs enter s := by
  rcases (hi.owner t).mp hm with ⟨c,hc,hh⟩ | ⟨x,hx,hh⟩
  · refine ⟨.call t none,rfl,?_⟩
    simp only [step,callStep,hc]
    cases c with
    | addTaskPush | addTaskUnlock | stopStore | stopUnlock => rfl
    | _ => cases hh
  · cases x with
    | wait =>
      refine ⟨.worker t,rfl,?_⟩
      simp only [step,workerThread,hx]
      split <;> rfl
    | front => exact hi.front_runs hx
    | unlock task => exact ⟨.worker t,rfl,by simp [step,workerThread,hx]⟩
    | _ => cases hh

/-- A call in progress goes on, unless it waits for the workers to leave. -/
theorem call_runs (hi : s.Orderly) (hc : s.calls[t]? = some c) (hn : c.isIdle = false)
    (hj : c ≠ .stopJoin) : Runs enter s := by
  have hlocked (hl : c = .stopLock ∨ ∃ task, c = .addTaskLock task) : Runs enter s := by
    cases hm : s.mutex with
    | some u => exact hi.owner_runs hm
    | none =>
      refine ⟨.call t none,rfl,?_⟩
      rcases hl with rfl | ⟨task,rfl⟩ <;> simp [step,callStep,hc,hm]
  cases c with
  | idle => cases hn
  | stopJoin => exact absurd rfl hj
  | addTaskLock task => exact hlocked (.inr ⟨task,rfl⟩)
  | stopLock => exact hlocked (.inl rfl)
  | addTaskNotify =>
    by_cases hb : s.threads.any Worker.isBlocked = true
    · obtain ⟨x,hx,hxb⟩ := List.any_eq_true.mp hb
      obtain ⟨w,hw⟩ := List.mem_iff_getElem?.mp hx
      obtain rfl : x = .blocked := by cases x <;> first | rfl | cases hxb
      exact ⟨.call t (some w),rfl,by simp [step,callStep,hc,notifyOne,hw]⟩
    · exact ⟨.call t none,rfl,by simp [step,callStep,hc,notifyOne,hb]⟩
  | addTaskPush | addTaskUnlock | stopStore | stopUnlock | stopNotify =>
    exact ⟨.call t none,rfl,by simp [step,callStep,hc]⟩

/-- A worker that is neither blocked nor gone goes on, or whoever holds it up does. -/
theorem worker_live (hi : s.Orderly) {w : ℕ} (hw : s.threads[w]? = some x)
    (ha : x.isActive = true) : Lively enter s := by
  cases x with
  | lock =>
    cases hm : s.mutex with
    | some u => exact (hi.owner_runs hm).lively
    | none => exact ⟨.worker w,rfl,by simp [step,workerThread,hw,hm]⟩
  | wait => exact (hi.owner_runs (hi.holder_worker hw rfl)).lively
  | front => exact (hi.front_runs hw).lively
  | unlock task => exact (hi.owner_runs (hi.holder_worker hw rfl)).lively
  | running task f =>
    have hlt : w < s.calls.length :=
      ((List.getElem?_eq_some_iff.mp hw).1).trans_le hi.enough
    have hc : s.calls[w]? = some s.calls[w] := List.getElem?_eq_getElem hlt
    cases hn : s.calls[w].isIdle with
    | true =>
      exact ⟨.returned w,rfl,by simp [step,hw,hc,Call.eq_idle hn]⟩
    | false =>
      refine (hi.call_runs hc hn fun he => ?_).lively
      have := hi.outside w _ hc (by rw [he]; rfl)
      simp [hw] at this
  | blocked | exited => cases ha

end State.Orderly

/-- No call is in progress, everything submitted is executed, and the workers are blocked or, when
the destructor ran, gone. -/
structure State.AtRest (s : State τ φ) : Prop where
  calls : ∀ c ∈ s.calls, c.isIdle = true
  queue : s.taskQueue = []
  left : s.destroying = true → ∀ x ∈ s.threads, x.isExited = true
  waiting : s.destroying = false → ∀ x ∈ s.threads, x.isBlocked = true
  finished : s.finished.Perm s.pushed

/-- Workers that are blocked or gone have no task in hand. -/
theorem State.Accounted.finished_of_inactive (hi : s.Accounted) (hq : s.taskQueue = [])
    (hx : ∀ x ∈ s.threads, x.isActive = false) : s.finished.Perm s.pushed := by
  have hh : s.threads.filterMap Worker.held? = [] := List.filterMap_eq_nil_iff.mpr fun x hm => by
    have := hx x hm
    cases x <;> simp_all [Worker.isActive,Worker.isBlocked,Worker.isExited,Worker.held?]
  have hr : s.threads.filterMap Worker.running? = [] := List.filterMap_eq_nil_iff.mpr fun x hm => by
    have := hx x hm
    cases x <;> simp_all [Worker.isActive,Worker.isBlocked,Worker.isExited,Worker.running?]
  have h₁ := hi.dequeued
  have h₂ := hi.started
  simp only [State.held,State.inside,hh,hr,Multiset.coe_nil,add_zero] at h₁ h₂
  rw [hi.fifo,hq,List.append_nil]
  exact Multiset.coe_eq_coe.mp (h₂.symm.trans h₁.symm)

/-- A pool that is not at rest goes on. -/
theorem rest_or_lively (hi : s.Orderly) (hd : s.Drains) (hw : s.WakeInv) (ha : s.Accounted) :
    s.AtRest ∨ Lively enter s := by
  by_cases hx : ∃ x ∈ s.threads, x.isActive = true
  · obtain ⟨x,hx,hxa⟩ := hx
    obtain ⟨w,hw⟩ := List.mem_iff_getElem?.mp hx
    exact .inr (hi.worker_live hw hxa)
  have hinactive : ∀ x ∈ s.threads, x.isActive = false := by simpa using hx
  by_cases hc : ∃ c ∈ s.calls, c.isIdle = false ∧ c ≠ .stopJoin
  · obtain ⟨c,hc,hn,hj⟩ := hc
    obtain ⟨t,ht⟩ := List.mem_iff_getElem?.mp hc
    exact .inr (hi.call_runs ht hn hj).lively
  have hjoin : ∀ c ∈ s.calls, c.isIdle = false → c = .stopJoin := by simpa using hc
  -- once the stop store is made and announced, an inactive worker is gone
  have hgone (hs : s.stop = true) : ∀ x ∈ s.threads, x.isExited = true := by
    rcases hw.stop hs with ⟨c,hc,hp⟩ | hb
    · have := hjoin c hc (by cases c <;> first | rfl | cases hp)
      subst this
      cases hp
    · intro x hx
      have := hinactive x hx
      simpa [Worker.isActive,hb x hx] using this
  by_cases hidle : ∀ c ∈ s.calls, c.isIdle = true
  · left
    have hqueue : s.taskQueue = [] := by
      by_contra hq
      rcases hw.queue hq with ⟨c,hc,hp⟩ | ⟨x,hx,hxa⟩ | he
      · obtain rfl := Call.eq_idle (hidle c hc)
        cases hp
      · simp [hinactive x hx] at hxa
      · obtain ⟨x,hx,hxe⟩ := hd.work hq
        simp [he x hx] at hxe
    refine ⟨hidle,hqueue,fun hdes => ?_,fun hdes x hx => ?_,ha.finished_of_inactive hqueue hinactive⟩
    · rcases hi.begun hdes with ⟨c,hc,hp⟩ | hs
      · obtain rfl := Call.eq_idle (hidle c hc)
        cases hp
      · exact hgone hs
    · have hnot : x.isExited = false := by
        by_contra he
        have := hd.stopping (.inr (hd.exited x hx (by simpa using he)))
        simp [hdes] at this
      simpa [Worker.isActive,hnot] using hinactive x hx
  · right
    obtain ⟨c,hc,hn⟩ : ∃ c ∈ s.calls, c.isIdle = false := by simpa using hidle
    obtain rfl := hjoin c hc hn
    obtain ⟨t,ht⟩ := List.mem_iff_getElem?.mp hc
    have he := hgone (hi.stopped _ hc rfl)
    exact ⟨.call t none,rfl,by simp [step,callStep,ht,List.all_eq_true.mpr he]⟩

/-- From every state a program that respects the lifetime of the pool can bring it to, the pool
comes to rest once nobody submits, whatever the scheduler does: every task that was handed over is
executed to its end, and a destructor that was called returns. -/
theorem pool_settles (enter : τ → φ) {r : φ → φ → Prop} (hr : WellFounded r) (n outside : ℕ)
    (e : Execution (step enter) (init (n+1) outside))
    (hl : ∀ p ∈ e.steps, legalUse p.1 p.2 = true) :
    Settles (step enter) (fun _ a => a.isOwn = true) (proceeds r) State.AtRest e.final := by
  have hd : e.final.Drains ∧ e.final.Orderly :=
    e.run.invariant_of (I:=fun s => s.Drains ∧ s.Orderly)
      ⟨init_drains n outside,init_orderly (n+1) outside⟩
      (fun _ _ _ hi hc hs => ⟨step_drains hi.1 hc hs,step_orderly hi.2 hi.1 hs⟩) hl
  have hw : e.final.WakeInv :=
    e.run.invariant (init_wakeInv (n+1) outside) fun _ _ _ hi hs => (step_cases hs).wakeInv hi
  refine Settles.of_measure (nearer_wf enter hr) (fun s => (s.stop,s.items))
    (I:=fun s => (s.Drains ∧ s.Orderly) ∧ s.WakeInv ∧ s.Accounted) (fun s a s' hI ha hs => ?_)
    (fun s ⟨⟨hd,hi⟩,hw,ha⟩ => rest_or_lively hi hd hw ha) ⟨hd,hw,run_accounted e.run⟩
  obtain ⟨⟨hd,hi⟩,hw,hacc⟩ := hI
  have hlegal : legalUse s a = true := by
    cases a <;> first | rfl | exact ha.elim
  exact ⟨⟨⟨step_drains hd hlegal hs,step_orderly hi hd hs⟩,(step_cases hs).wakeInv hw,
    step_accounted hacc hs⟩,(step_cases hs).nearer hi ha⟩

/-- A task is queued and the destructor is called. -/
def busyPool : Execution (step fun _ : ℕ => ()) (init 2 1) :=
  .ofLabels [.addTask 2 7,.call 2 none,.call 2 none,.call 2 none,.call 2 none,.destroy 2]
    (by decide)

theorem busyPool_settles : busyPool.final.taskQueue = [7] ∧
    Settles (step fun _ : ℕ => ()) (fun _ a => a.isOwn = true) (proceeds fun _ _ => False)
      State.AtRest busyPool.final :=
  ⟨by decide,pool_settles (fun _ : ℕ => ()) ⟨fun _ => .intro _ nofun⟩ 1 1 busyPool (by decide)⟩

end Blush.TaskRunner
