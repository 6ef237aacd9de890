import Blush.TaskRunner.Model

/-! Every submitted task is dequeued in submission order and executed exactly once, and
the queue is empty when the last worker has left. -/
namespace Blush.TaskRunner
open Slots Transition
variable {τ φ : Type} {enter : τ → φ} {s s' : State τ φ} {a : Act τ φ}

def Call.isIdle : Call τ → Bool
  | .idle => true
  | _ => false

def Call.isStop : Call τ → Bool
  | .stopLock | .stopStore | .stopUnlock | .stopNotify | .stopJoin => true
  | _ => false

/-- The task a worker has dequeued and not started yet. -/
def Worker.held? : Worker τ φ → Option τ
  | .unlock task => some task
  | _ => none

/-- The task a worker is inside of. -/
def Worker.running? : Worker τ φ → Option τ
  | .running task _ => some task
  | _ => none

namespace State

def held (s : State τ φ) : Multiset τ := (s.threads.filterMap Worker.held? : List τ)
def inside (s : State τ φ) : Multiset τ := (s.threads.filterMap Worker.running? : List τ)

end State

/-! ## Accounting -/

/-- Where every submitted task is: still queued, dequeued, inside a worker, or finished. -/
structure State.Accounted (s : State τ φ) : Prop where
  fifo : s.pushed = s.dequeued ++ s.taskQueue
  dequeued : (s.dequeued : Multiset τ) = s.started + s.held
  started : (s.started : Multiset τ) = s.finished + s.inside

theorem init_accounted (workers outside : ℕ) :
    (init workers outside : State τ φ).Accounted := by
  have hh : (List.replicate workers (.lock : Worker τ φ)).filterMap Worker.held? = [] :=
    List.filterMap_eq_nil_iff.mpr fun x hx => by rw [List.eq_of_mem_replicate hx]; rfl
  have hr : (List.replicate workers (.lock : Worker τ φ)).filterMap Worker.running? = [] :=
    List.filterMap_eq_nil_iff.mpr fun x hx => by rw [List.eq_of_mem_replicate hx]; rfl
  exact ⟨rfl,by simp [init,State.held,hh],by simp [init,State.inside,hr]⟩

/-- A worker that neither takes up nor puts down a task leaves the accounts as they are. -/
theorem State.Accounted.congr (hi : s.Accounted) (hp : s'.pushed = s.pushed)
    (hd : s'.dequeued = s.dequeued) (hq : s'.taskQueue = s.taskQueue)
    (hs : s'.started = s.started) (hf : s'.finished = s.finished) (hh : s'.held = s.held)
    (hin : s'.inside = s.inside) : s'.Accounted :=
  ⟨by rw [hp,hd,hq]; exact hi.fifo,by rw [hd,hs,hh]; exact hi.dequeued,
    by rw [hs,hf,hin]; exact hi.started⟩

theorem held_setWorker {w : ℕ} {x y : Worker τ φ} (hw : s.threads[w]? = some x) :
    (s.setWorker w y).held + (x.held?.toList : Multiset τ) = s.held + y.held?.toList :=
  filterMap_set Worker.held? hw

theorem inside_setWorker {w : ℕ} {x y : Worker τ φ} (hw : s.threads[w]? = some x) :
    (s.setWorker w y).inside + (x.running?.toList : Multiset τ) = s.inside + y.running?.toList :=
  filterMap_set Worker.running? hw

theorem State.Accounted.setWorker (hi : s.Accounted) {w : ℕ} {x y : Worker τ φ}
    (hw : s.threads[w]? = some x) (hh : y.held? = x.held?) (hr : y.running? = x.running?) :
    (s.setWorker w y).Accounted := by
  refine hi.congr rfl rfl rfl rfl rfl ?_ ?_
  · have h := held_setWorker (y:=y) hw
    rw [hh] at h
    exact add_right_cancel h
  · have h := inside_setWorker (y:=y) hw
    rw [hr] at h
    exact add_right_cancel h

theorem step_accounted (hi : s.Accounted) (h : step enter s a = some s') : s'.Accounted := by
  cases step_cases h with
  | addTask | destroy | addTaskLock | addTaskUnlock | stopLock | stopStore | stopUnlock
  | stopJoin | notifyNobody => exact hi.congr rfl rfl rfl rfl rfl rfl rfl
  | @addTaskPush t waiter task hc =>
    exact ⟨by simp [State.setCall,hi.fifo],hi.dequeued,hi.started⟩
  | notifyWaiter _ hw =>
    exact (hi.setWorker (y:=.lock) hw rfl rfl).congr rfl rfl rfl rfl rfl rfl rfl
  | stopNotify =>
    refine hi.congr rfl rfl rfl rfl rfl ?_ ?_
    · simp only [State.held,List.filterMap_map]
      congr 2
      funext x
      cases x <;> rfl
    · simp only [State.inside,List.filterMap_map]
      congr 2
      funext x
      cases x <;> rfl
  | lock hw => exact (hi.setWorker (y:=.wait) hw rfl rfl).congr rfl rfl rfl rfl rfl rfl rfl
  | awake hw => exact hi.setWorker hw rfl rfl
  | block hw => exact (hi.setWorker (y:=.blocked) hw rfl rfl).congr rfl rfl rfl rfl rfl rfl rfl
  | exit hw => exact (hi.setWorker (y:=.exited) hw rfl rfl).congr rfl rfl rfl rfl rfl rfl rfl
  | @dequeue w task rest hw hq =>
    have hh := held_setWorker (y:=.unlock task) hw
    have hr := inside_setWorker (y:=.unlock task) hw
    simp only [Worker.held?,Worker.running?,Option.toList_none,Option.toList_some,
      Multiset.coe_nil,add_zero] at hh hr
    refine ⟨?_,?_,?_⟩
    · simp [State.setWorker,hi.fifo,hq]
    · change ((s.dequeued ++ [task] : List τ) : Multiset τ) = s.started + (s.setWorker w _).held
      rw [hh,← Multiset.coe_add,hi.dequeued,add_assoc]
    · exact hi.started.trans (congrArg _ hr.symm)
  | @unlock w task hw =>
    have hh := held_setWorker (y:=.running task (enter task)) hw
    have hr := inside_setWorker (y:=.running task (enter task)) hw
    simp only [Worker.held?,Worker.running?,Option.toList_none,Option.toList_some,
      Multiset.coe_nil,add_zero] at hh hr
    refine ⟨hi.fifo,?_,?_⟩
    · change (s.dequeued : Multiset τ) = (s.started ++ [task] : List τ) + (s.setWorker w _).held
      rw [hi.dequeued,← hh,← Multiset.coe_add]
      abel
    · change ((s.started ++ [task] : List τ) : Multiset τ) = s.finished + (s.setWorker w _).inside
      rw [hr,← Multiset.coe_add,hi.started,add_assoc]
  | spurious hw => exact hi.setWorker hw rfl rfl
  | frame hw => exact hi.setWorker hw rfl rfl
  | @returned w task f hw hc =>
    have hh := held_setWorker (y:=.lock) hw
    have hr := inside_setWorker (y:=.lock) hw
    simp only [Worker.held?,Worker.running?,Option.toList_none,Option.toList_some,
      Multiset.coe_nil,add_zero] at hh hr
    refine ⟨hi.fifo,?_,?_⟩
    · exact hi.dequeued.trans (congrArg _ hh.symm)
    · change (s.started : Multiset τ) = (s.finished ++ [task] : List τ) + (s.setWorker w _).inside
      rw [hi.started,← hr,← Multiset.coe_add]
      abel

/-! ## Draining -/

/-- A program that respects the lifetime of the pool: an application thread calls `AddTask`
before the destructor starts, and the destructor starts once, after those calls have
returned. Tasks running on a worker may call `AddTask` at any time. -/
def legalUse (s : State τ φ) : Act τ φ → Bool
  | .addTask t _ => (s.threads[t]?).isSome || !s.destroying
  | .destroy _ => !s.destroying && (s.calls.drop s.threads.length).all Call.isIdle
  | _ => true

/-- Who can still add work, and that somebody is left to do the work there is. -/
structure State.Drains (s : State τ φ) : Prop where
  nonempty : s.threads ≠ []
  inTask : ∀ (w : ℕ) (c : Call τ) (x : Worker τ φ), s.calls[w]? = some c →
    s.threads[w]? = some x → c.isIdle = false → ∃ task f, x = .running task f
  outside : s.destroying = true → ∀ (t : ℕ) (c : Call τ), s.calls[t]? = some c →
    s.threads[t]? = none → c.isIdle = true ∨ c.isStop = true
  stopping : (∃ c ∈ s.calls, c.isStop = true) ∨ s.stop = true → s.destroying = true
  exited : ∀ x ∈ s.threads, x.isExited = true → s.stop = true
  work : s.taskQueue ≠ [] → ∃ x ∈ s.threads, x.isExited = false

theorem init_drains (workers outside : ℕ) :
    (init (workers+1) outside : State τ φ).Drains where
  nonempty := by simp [init]
  inTask w c x hc := by
    obtain rfl := List.eq_of_mem_replicate (List.mem_of_getElem? hc)
    intro _ h
    cases h
  outside h := by cases h
  stopping h := by
    rcases h with ⟨c,hc,hs⟩ | h
    · obtain rfl := List.eq_of_mem_replicate hc
      cases hs
    · cases h
  exited x hx he := by
    obtain rfl := List.eq_of_mem_replicate hx
    cases he
  work h := absurd rfl h

/-- The conditions read only the workers, the calls, the two flags and the queue. -/
theorem State.Drains.congr (hi : s.Drains) (ht : s'.threads = s.threads) (hc : s'.calls = s.calls)
    (hd : s'.destroying = s.destroying) (hs : s'.stop = s.stop)
    (hq : s'.taskQueue = s.taskQueue) : s'.Drains where
  nonempty := ht ▸ hi.nonempty
  inTask := by rw [ht,hc]; exact hi.inTask
  outside := by rw [ht,hc,hd]; exact hi.outside
  stopping := by rw [hc,hd,hs]; exact hi.stopping
  exited := by rw [ht,hs]; exact hi.exited
  work := by rw [ht,hq]; exact hi.work

/-- A call in progress that returns, or goes on without changing sides. -/
theorem State.Drains.setCall (hi : s.Drains) {t : ℕ} {c d : Call τ} (hc : s.calls[t]? = some c)
    (hne : c.isIdle = false) (hd : d.isIdle = true ∨ d.isStop = c.isStop) :
    (s.setCall t d).Drains where
  nonempty := hi.nonempty
  inTask w e x he hx hi' := by
    rcases getElem?_set_cases he with ⟨rfl,rfl⟩ | ⟨-,he⟩
    · exact hi.inTask w c x hc hx hne
    · exact hi.inTask w e x he hx hi'
  outside hs u e he hu := by
    rcases getElem?_set_cases he with ⟨rfl,rfl⟩ | ⟨-,he⟩
    · refine hd.imp_right fun h => ?_
      rcases hi.outside hs u c hc hu with h' | h'
      · simp [hne] at h'
      · exact h.trans h'
    · exact hi.outside hs u e he hu
  stopping h := by
    refine hi.stopping (h.imp_left ?_)
    rintro ⟨e,he,hs⟩
    rcases List.mem_or_eq_of_mem_set he with he | rfl
    · exact ⟨e,he,hs⟩
    · rcases hd with h | h
      · cases e <;> simp_all [Call.isIdle,Call.isStop]
      · exact ⟨c,List.mem_of_getElem? hc,h ▸ hs⟩
  exited := hi.exited
  work := hi.work

/-- A worker may leave a task only between its calls, and leave the pool only when it is
stopping with nothing queued. -/
theorem State.Drains.setWorker (hi : s.Drains) {w : ℕ} {x y : Worker τ φ}
    (hw : s.threads[w]? = some x)
    (hr : (∀ task f, x ≠ .running task f) ∨ (∃ task f, y = .running task f) ∨
      s.calls[w]? = some .idle)
    (hy : y.isExited = false ∨ (s.stop = true ∧ s.taskQueue = [])) : (s.setWorker w y).Drains where
  nonempty := by simpa [State.setWorker] using hi.nonempty
  inTask v c z hc hz hne := by
    rcases getElem?_set_cases hz with ⟨rfl,rfl⟩ | ⟨-,hz⟩
    · rcases hr with hr | hr | hr
      · obtain ⟨task,f,h⟩ := hi.inTask v c x hc hw hne
        exact absurd h (hr task f)
      · exact hr
      · obtain rfl : c = .idle := Option.some.inj (hc.symm.trans hr)
        cases hne
    · exact hi.inTask v c z hc hz hne
  outside hs t c hc ht := hi.outside hs t c hc (by simpa [State.setWorker] using ht)
  stopping := hi.stopping
  exited := forall_set (fun h => hy.elim (fun h' => by simp [h] at h') And.left) hi.exited
  work hq := by
    rcases hy with hy | hy
    · exact ⟨y,mem_set_self hw,hy⟩
    · exact absurd hy.2 hq

/-- Before the stop store every worker is still there. -/
theorem State.Drains.live (hi : s.Drains) (hs : s.stop = false) :
    ∃ x ∈ s.threads, x.isExited = false := by
  obtain ⟨x,hx⟩ := List.exists_mem_of_ne_nil _ hi.nonempty
  refine ⟨x,hx,?_⟩
  by_contra he
  exact absurd (hi.exited x hx (by simpa using he)) (by simp [hs])

/-- A push comes from a task that is running, or from outside before the stop store. -/
theorem State.Drains.push_live (hi : s.Drains) {t : ℕ} {task : τ}
    (hc : s.calls[t]? = some (.addTaskPush task)) : ∃ x ∈ s.threads, x.isExited = false := by
  cases hx : s.threads[t]? with
  | some x =>
    obtain ⟨task,f,rfl⟩ := hi.inTask t _ x hc hx rfl
    exact ⟨_,List.mem_of_getElem? hx,rfl⟩
  | none =>
    apply hi.live
    by_contra hs
    have hd := hi.stopping (.inr (by simpa using hs))
    rcases hi.outside hd t _ hc hx with h | h <;> cases h

theorem step_drains (hi : s.Drains) (hl : legalUse s a = true) (h : step enter s a = some s') :
    s'.Drains := by
  cases step_cases h with
  | @addTask t task hc ho =>
    refine ⟨hi.nonempty,?_,?_,?_,hi.exited,hi.work⟩
    · intro w c x he hx hne
      rcases getElem?_set_cases he with ⟨rfl,rfl⟩ | ⟨-,he⟩
      · change s.threads[w]? = some x at hx
        cases x <;> simp_all [State.mayCall]
      · exact hi.inTask w c x he hx hne
    · intro hd u c he hu
      rcases getElem?_set_cases he with ⟨rfl,rfl⟩ | ⟨-,he⟩
      · change s.threads[u]? = none at hu
        change s.destroying = true at hd
        simp [legalUse,hu,hd] at hl
      · exact hi.outside hd u c he hu
    · intro h
      refine hi.stopping (h.imp_left ?_)
      rintro ⟨e,he,hs⟩
      rcases List.mem_or_eq_of_mem_set he with he | rfl
      · exact ⟨e,he,hs⟩
      · cases hs
  | @destroy t hc ht =>
    simp only [legalUse,Bool.and_eq_true,Bool.not_eq_true',List.all_eq_true] at hl
    refine ⟨hi.nonempty,?_,?_,fun _ => rfl,hi.exited,hi.work⟩
    · intro w c x he hx hne
      rcases getElem?_set_cases he with ⟨rfl,rfl⟩ | ⟨-,he⟩
      · exact absurd (ht.symm.trans hx) (by simp)
      · exact hi.inTask w c x he hx hne
    · intro _ u c he hu
      rcases getElem?_set_cases he with ⟨rfl,rfl⟩ | ⟨-,he⟩
      · exact .inr rfl
      · left
        have hlen : s.threads.length ≤ u := List.getElem?_eq_none_iff.mp hu
        refine hl.2 c (List.mem_of_getElem? (i:=u-s.threads.length) ?_)
        rw [List.getElem?_drop,← he]
        congr 1
        omega
  | @addTaskLock t waiter task hc =>
    exact (hi.setCall (d:=.addTaskPush task) hc rfl (.inr rfl)).congr rfl rfl rfl rfl rfl
  | addTaskPush hc =>
    have hd := hi.setCall (d:=.addTaskUnlock) hc rfl (.inr rfl)
    exact ⟨hd.nonempty,hd.inTask,hd.outside,hd.stopping,hd.exited,fun _ => hi.push_live hc⟩
  | addTaskUnlock hc =>
    exact (hi.setCall (d:=.addTaskNotify) hc rfl (.inr rfl)).congr rfl rfl rfl rfl rfl
  | @notifyWaiter t w hc hw =>
    have hd := hi.setWorker (y:=.lock) hw (.inl (by simp)) (.inl rfl)
    have hc' : (s.setWorker w .lock).calls[t]? = some .addTaskNotify := hc
    exact hd.setCall hc' rfl (.inl rfl)
  | notifyNobody hc => exact hi.setCall hc rfl (.inl rfl)
  | stopLock hc =>
    exact (hi.setCall (d:=.stopStore) hc rfl (.inr rfl)).congr rfl rfl rfl rfl rfl
  | stopStore hc =>
    have hd := hi.setCall (d:=.stopUnlock) hc rfl (.inr rfl)
    have hs := hi.stopping (.inl ⟨_,List.mem_of_getElem? hc,rfl⟩)
    exact ⟨hd.nonempty,hd.inTask,hd.outside,fun _ => hs,fun _ _ _ => rfl,hd.work⟩
  | stopUnlock hc =>
    exact (hi.setCall (d:=.stopNotify) hc rfl (.inr rfl)).congr rfl rfl rfl rfl rfl
  | @stopNotify t waiter hc =>
    have hd := hi.setCall (d:=.stopJoin) hc rfl (.inr rfl)
    have he : ∀ x : Worker τ φ, x.notified.isExited = x.isExited := by intro x; cases x <;> rfl
    refine ⟨by simpa using hi.nonempty,?_,?_,hd.stopping,?_,?_⟩
    · intro w c x hcw hx hne
      obtain ⟨z,hz,rfl⟩ : ∃ z, s.threads[w]? = some z ∧ z.notified = x := by simpa using hx
      obtain ⟨task,f,rfl⟩ := hd.inTask w c z hcw hz hne
      exact ⟨task,f,rfl⟩
    · exact fun hs u c hcu hu => hd.outside hs u c hcu (by simpa [State.setCall] using hu)
    · intro x hx hxe
      obtain ⟨z,hz,rfl⟩ := List.mem_map.mp hx
      exact hd.exited z hz ((he z).symm.trans hxe)
    · intro hq
      obtain ⟨z,hz,hze⟩ := hd.work hq
      exact ⟨z.notified,List.mem_map_of_mem hz,(he z).trans hze⟩
  | stopJoin hc => exact hi.setCall hc rfl (.inl rfl)
  | lock hw =>
    exact (hi.setWorker (y:=.wait) hw (.inl (by simp)) (.inl rfl)).congr rfl rfl rfl rfl rfl
  | awake hw => exact hi.setWorker hw (.inl (by simp)) (.inl rfl)
  | block hw =>
    exact (hi.setWorker (y:=.blocked) hw (.inl (by simp)) (.inl rfl)).congr rfl rfl rfl rfl rfl
  | exit hw hs hq =>
    exact (hi.setWorker (y:=.exited) hw (.inl (by simp)) (.inr ⟨hs,hq⟩)).congr rfl rfl rfl rfl rfl
  | @dequeue w task rest hw hq =>
    have hd := hi.setWorker (y:=.unlock task) hw (.inl (by simp)) (.inl rfl)
    exact ⟨hd.nonempty,hd.inTask,hd.outside,hd.stopping,hd.exited,
      fun _ => ⟨_,mem_set_self hw,rfl⟩⟩
  | @unlock w task hw =>
    exact (hi.setWorker (y:=.running task (enter task)) hw (.inl (by simp)) (.inl rfl)).congr
      rfl rfl rfl rfl rfl
  | spurious hw => exact hi.setWorker hw (.inl (by simp)) (.inl rfl)
  | frame hw => exact hi.setWorker hw (.inr (.inl ⟨_,_,rfl⟩)) (.inl rfl)
  | returned hw hc =>
    exact (hi.setWorker (y:=.lock) hw (.inr (.inr hc)) (.inl rfl)).congr rfl rfl rfl rfl rfl

/-! ## One worker -/

theorem singleton_set {α : Type*} {l : List α} {i : ℕ} {a : α} (hl : l.length = 1)
    (h : l[i]? = some a) (b : α) : l = [a] ∧ l.set i b = [b] := by
  obtain ⟨c,rfl⟩ := List.length_eq_one_iff.mp hl
  cases i with
  | zero =>
    obtain rfl : c = a := by simpa using h
    exact ⟨rfl,rfl⟩
  | succ i => simp at h

/-- A single worker starts tasks in the order it dequeues them. -/
def State.InOrder (s : State τ φ) : Prop :=
  s.threads.length = 1 → s.dequeued = s.started ++ s.threads.filterMap Worker.held?

theorem State.InOrder.setWorker (hi : s.InOrder) {w : ℕ} {x y : Worker τ φ}
    (hw : s.threads[w]? = some x) (hh : y.held? = x.held?) : (s.setWorker w y).InOrder := by
  intro hl
  have hl' : s.threads.length = 1 := by simpa [State.setWorker] using hl
  obtain ⟨he,hs⟩ := singleton_set hl' hw y
  have h := hi hl'
  rw [he] at h
  change s.dequeued = s.started ++ (s.threads.set w y).filterMap Worker.held?
  rw [hs,h,filterMap_cons_toList,filterMap_cons_toList,hh]

theorem step_inOrder (hi : s.InOrder) (h : step enter s a = some s') : s'.InOrder := by
  cases step_cases h with
  | addTask | destroy | addTaskLock | addTaskPush | addTaskUnlock | stopLock | stopStore
  | stopUnlock | stopJoin | notifyNobody => exact hi
  | notifyWaiter _ hw => exact hi.setWorker (y:=.lock) hw rfl
  | stopNotify =>
    intro hl
    have h := hi (by simpa using hl)
    have he : (s.threads.map Worker.notified).filterMap Worker.held? =
        s.threads.filterMap Worker.held? := by
      rw [List.filterMap_map]
      congr 1
      funext x
      cases x <;> rfl
    exact h.trans (congrArg (s.started ++ ·) he.symm)
  | lock hw => exact hi.setWorker (y:=.wait) hw rfl
  | awake hw => exact hi.setWorker hw rfl
  | block hw => exact hi.setWorker (y:=.blocked) hw rfl
  | exit hw => exact hi.setWorker (y:=.exited) hw rfl
  | @dequeue w task rest hw hq =>
    intro hl
    have hl' : s.threads.length = 1 := by simpa [State.setWorker] using hl
    obtain ⟨he,hs⟩ := singleton_set hl' hw (.unlock task)
    have h := hi hl'
    rw [he] at h
    change s.dequeued ++ [task] = s.started ++ (s.threads.set w _).filterMap Worker.held?
    rw [hs,h]
    simp [Worker.held?]
  | @unlock w task hw =>
    intro hl
    have hl' : s.threads.length = 1 := by simpa [State.setWorker] using hl
    obtain ⟨he,hs⟩ := singleton_set hl' hw (.running task (enter task))
    have h := hi hl'
    rw [he] at h
    change s.dequeued = s.started ++ [task] ++ (s.threads.set w _).filterMap Worker.held?
    rw [hs,h]
    simp [Worker.held?]
  | spurious hw => exact hi.setWorker hw rfl
  | frame hw => exact hi.setWorker hw rfl
  | returned hw _ => exact hi.setWorker (y:=.lock) hw rfl

/-! ## Executions -/

/-- No step adds or removes a worker. -/
theorem step_threads_length (h : step enter s a = some s') :
    s'.threads.length = s.threads.length := by
  cases step_cases h <;> simp [State.setCall,State.setWorker]

theorem run_threads_length {steps : List (State τ φ × Act τ φ)}
    (h : Run (step enter) s steps s') : s'.threads.length = s.threads.length :=
  h.invariant (I:=fun t => t.threads.length = s.threads.length) rfl
    fun _ _ _ hi hs => (step_threads_length hs).trans hi

theorem run_accounted {workers outside : ℕ} {steps : List (State τ φ × Act τ φ)}
    (h : Run (step enter) (init workers outside) steps s) : s.Accounted :=
  h.invariant (init_accounted workers outside) fun _ _ _ => step_accounted

/-- Tasks leave the queue in the order they were pushed, and each one that was started
accounts for a push of its own. -/
theorem State.Accounted.started_subperm (hi : s.Accounted) : s.started.Subperm s.pushed := by
  have hd : s.started.Subperm s.dequeued :=
    Multiset.coe_le.mp (hi.dequeued ▸ Multiset.le_add_right _ _)
  rw [hi.fifo]
  exact hd.trans (List.sublist_append_left _ _).subperm

/-- With every worker gone and nothing queued, what was pushed is what finished. -/
theorem State.Accounted.finished_perm (hi : s.Accounted) (hq : s.taskQueue = [])
    (he : ∀ x ∈ s.threads, x.isExited = true) : s.finished.Perm s.pushed := by
  have hh : s.threads.filterMap Worker.held? = [] := List.filterMap_eq_nil_iff.mpr fun x hx => by
    have := he x hx
    cases x <;> simp_all [Worker.isExited,Worker.held?]
  have hr : s.threads.filterMap Worker.running? = [] := List.filterMap_eq_nil_iff.mpr fun x hx => by
    have := he x hx
    cases x <;> simp_all [Worker.isExited,Worker.running?]
  have h₁ := hi.dequeued
  have h₂ := hi.started
  simp only [State.held,State.inside,hh,hr,Multiset.coe_nil,add_zero] at h₁ h₂
  rw [hi.fifo,hq,List.append_nil]
  exact Multiset.coe_eq_coe.mp (h₂.symm.trans h₁.symm)

/-- Once every worker has left, nobody is inside `AddTask` any more. -/
theorem State.Drains.no_addTask (hi : s.Drains) (he : ∀ x ∈ s.threads, x.isExited = true) :
    ∀ c ∈ s.calls, c.isIdle = true ∨ c.isStop = true := by
  intro c hc
  obtain ⟨t,ht⟩ := List.mem_iff_getElem?.mp hc
  obtain ⟨x,hx⟩ := List.exists_mem_of_ne_nil _ hi.nonempty
  have hd := hi.stopping (.inr (hi.exited x hx (he x hx)))
  cases hw : s.threads[t]? with
  | none => exact hi.outside hd t c ht hw
  | some y =>
    left
    by_contra hne
    obtain ⟨task,f,rfl⟩ := hi.inTask t c y ht hw (by simpa using hne)
    exact absurd (he _ (List.mem_of_getElem? hw)) (by simp [Worker.isExited])

/-- Every submitted task is dequeued in submission order and executed at most once; when
all workers have left, no submission is under way, the queue is empty and every task was
executed exactly once; a single worker executes in submission order. -/
theorem executes_every_task_once (enter : τ → φ) (n outside : ℕ)
    (e : Execution (step enter) (init (n+1) outside))
    (hl : ∀ p ∈ e.steps, legalUse p.1 p.2 = true) :
    e.final.pushed = e.final.dequeued ++ e.final.taskQueue ∧
    e.final.started.Subperm e.final.pushed ∧
    ((∀ x ∈ e.final.threads, x.isExited = true) →
      (∀ c ∈ e.final.calls, c.isIdle = true ∨ c.isStop = true) ∧ e.final.taskQueue = [] ∧
        e.final.finished.Perm e.final.pushed ∧ e.final.started.Perm e.final.pushed) ∧
    (n = 0 → e.final.started <+: e.final.pushed) := by
  have ha := run_accounted e.run
  have hd : e.final.Drains := e.run.invariant_of (init_drains n outside)
    (fun _ _ _ hi hc hs => step_drains hi hc hs) hl
  refine ⟨ha.fifo,ha.started_subperm,fun hx => ?_,fun hn => ?_⟩
  · have hq : e.final.taskQueue = [] := by
      by_contra hq
      obtain ⟨x,hm,he⟩ := hd.work hq
      exact absurd (hx x hm) (by simp [he])
    have hf := ha.finished_perm hq hx
    have hle : e.final.finished.Subperm e.final.started :=
      Multiset.coe_le.mp (ha.started ▸ Multiset.le_add_right _ _)
    exact ⟨hd.no_addTask hx,hq,hf,ha.started_subperm.antisymm (hf.symm.subperm.trans hle)⟩
  · have ho : e.final.InOrder := e.run.invariant (I:=State.InOrder)
      (fun _ => by simp [init,hn,Worker.held?]) fun _ _ _ => step_inOrder
    have hlen : e.final.threads.length = 1 :=
      (run_threads_length e.run).trans (by simp [init,hn])
    rw [ha.fifo,ho hlen,List.append_assoc]
    exact List.prefix_append _ _

/-- Two workers; the task `7` submits `8` after the other worker has seen the stop request
with nothing queued and has left. -/
def lateSubmission : Execution (step fun _ : ℕ => ()) (init 2 1) :=
  .ofLabels [.addTask 2 7,.call 2 none,.call 2 none,.call 2 none,.call 2 none,
    .worker 0,.worker 0,.worker 0,.worker 0,
    .destroy 2,.call 2 none,.call 2 none,.call 2 none,.call 2 none,
    .worker 1,.worker 1,.worker 1,
    .addTask 0 8,.call 0 none,.call 0 none,.call 0 none,.call 0 none,.returned 0,
    .worker 0,.worker 0,.worker 0,.worker 0,.returned 0,
    .worker 0,.worker 0,.worker 0,.call 2 none] (by decide)

theorem lateSubmission_finished : lateSubmission.final.finished.Perm [7,8] ∧
    lateSubmission.final.taskQueue = [] := by
  obtain ⟨-,-,h,-⟩ := executes_every_task_once (fun _ : ℕ => ()) 1 1 lateSubmission (by decide)
  obtain ⟨-,hq,hf,-⟩ := h (by decide)
  exact ⟨hf,hq⟩

end Blush.TaskRunner
