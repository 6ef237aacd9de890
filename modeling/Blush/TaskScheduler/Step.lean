import Blush.TaskScheduler.Model

/-! Everything one step of the scheduler can do, guards included. -/
namespace Blush.TaskScheduler
open Function Heap
variable {H : Algorithms ScheduledItem.nextFireTime} {s s' : State}

inductive Step (H : Algorithms ScheduledItem.nextFireTime) (s : State) : Act → State → Prop
  | runner {a r} (ha : s.mayRun a = true) (hr : TaskRunner.Step Closure.enter s.runner a r) :
      Step H s (.runner a) { s with runner := r }
  | started {w c} (hw : s.runner.threads[w]? = some (.running (.invoke c) .trySetRunning))
      (hc : s.words c = .scheduled) :
      Step H s (.closure w)
        (((s.setWord c .running).setFrame w (.invoke c) .task).record .started c)
  | refused {w c} (hw : s.runner.threads[w]? = some (.running (.invoke c) .trySetRunning))
      (hc : s.words c ≠ .scheduled) :
      Step H s (.closure w) ((s.setFrame w (.invoke c) .done).record .refused c)
  | completed {w c} (hw : s.runner.threads[w]? = some (.running (.invoke c) .task))
      (hb : s.betweenCalls w = true) :
      Step H s (.closure w) ((s.setFrame w (.invoke c) .finish).record .completed c)
  | finish {w c} (hw : s.runner.threads[w]? = some (.running (.invoke c) .finish)) :
      Step H s (.closure w)
        ((s.setWord c (c.finish (s.words c))).setFrame w (.invoke c) .done)
  | external {w n} (hw : s.runner.threads[w]? = some (.running (.external n) .task))
      (hb : s.betweenCalls w = true) :
      Step H s (.closure w) (s.setFrame w (.external n) .done)
  | schedule {t request} (ht : s.mayCall t = true) (hd : s.destroyed = false) :
      Step H s (.schedule t request)
        { s.setCall t (.pushLock (request.item s.clock s.allocated)) with
          allocated := s.allocated+1
          words := update s.words (request.item s.clock s.allocated).cancellable .scheduled }
  | cancel {t c} (ht : s.mayCall t = true) (hc : c ∈ s.handles) :
      Step H s (.cancel t c) (s.setCall t (.cancelScheduled c))
  | destroy {t} (ht : s.mayCall t = true) (hd : s.destroying = false) :
      Step H s (.destroy t) { s.setCall t .stopLock with destroying := true }
  | cancelScheduled {t c} (hc : s.calls[t]? = some (.cancelScheduled c))
      (hw : s.words c = .scheduled) :
      Step H s (.call t) (((s.setWord c .cancelled).setCall t .idle).record .cancelReturned c)
  | cancelFailed {t c} (hc : s.calls[t]? = some (.cancelScheduled c))
      (hw : s.words c ≠ .scheduled) : Step H s (.call t) (s.setCall t (.cancelRunning c))
  | cancelRunning {t c} (hc : s.calls[t]? = some (.cancelRunning c)) :
      Step H s (.call t)
        (((s.setWord c (s.words c).cancelRunning.2).setCall t .idle).record .cancelReturned c)
  | pushLock {t item} (hc : s.calls[t]? = some (.pushLock item)) (hm : s.mutex = none) :
      Step H s (.call t) { s.setCall t (.push item) with mutex := some (.caller t) }
  | push {t item} (hc : s.calls[t]? = some (.push item)) :
      Step H s (.call t) ({ s.setCall t (.pushUnlock item.cancellable) with
        heap := s.heap.push H item }.record .pushed item.cancellable)
  | pushUnlock {t c} (hc : s.calls[t]? = some (.pushUnlock c)) :
      Step H s (.call t) { s.setCall t (.pushNotify c) with mutex := none }
  | pushNotify {t c} (hc : s.calls[t]? = some (.pushNotify c)) :
      Step H s (.call t)
        { s.setCall t .idle with timer := s.timer.notified, handles := c::s.handles }
  | stopLock {t} (hc : s.calls[t]? = some .stopLock) (hm : s.mutex = none) :
      Step H s (.call t) { s.setCall t .stopStore with mutex := some (.caller t) }
  | stopStore {t} (hc : s.calls[t]? = some .stopStore) :
      Step H s (.call t) { s.setCall t .stopUnlock with stop := true }
  | stopUnlock {t} (hc : s.calls[t]? = some .stopUnlock) :
      Step H s (.call t) { s.setCall t .stopNotify with mutex := none }
  | stopNotify {t} (hc : s.calls[t]? = some .stopNotify) :
      Step H s (.call t) { s.setCall t .stopJoin with timer := s.timer.notified }
  | stopJoin {t} (hc : s.calls[t]? = some .stopJoin) (ht : s.timer.isExited = true)
      (hs : ∀ c ∈ s.calls, c.isSchedule = false) :
      Step H s (.call t) { s.setCall t .idle with destroyed := true, heap := MinHeap.empty _ }
  | timerLock (ht : s.timer = .lock) (hm : s.mutex = none) :
      Step H s .timer { s with timer := .wait, mutex := some .timer }
  | timerAwake (ht : s.timer = .wait) (hp : s.stop = true ∨ s.heap.items ≠ []) :
      Step H s .timer { s with timer := .stopCheck }
  | timerBlock (ht : s.timer = .wait) (hs : s.stop = false) (hh : s.heap.items = []) :
      Step H s .timer { s with timer := .blocked, mutex := none }
  | timerStop (ht : s.timer = .stopCheck ∨ s.timer = .stopCheckUntil) (hs : s.stop = true) :
      Step H s .timer { s with timer := .exited, mutex := none }
  | timerGo (ht : s.timer = .stopCheck) (hs : s.stop = false) :
      Step H s .timer { s with timer := .waitUntil }
  | waitUntil {item} (ht : s.timer = .waitUntil) (hf : s.heap.front? = some item) :
      Step H s .timer { s with timer := .blockedUntil item.nextFireTime, mutex := none }
  | relock (ht : s.timer = .relock) (hm : s.mutex = none) :
      Step H s .timer { s with timer := .stopCheckUntil, mutex := some .timer }
  | timerGoUntil (ht : s.timer = .stopCheckUntil) (hs : s.stop = false) :
      Step H s .timer { s with timer := .now }
  | now (ht : s.timer = .now) : Step H s .timer { s with timer := .pass s.clock }
  | pop {now item heap} (ht : s.timer = .pass now) (hp : s.heap.pop H = some (item,heap))
      (hd : item.nextFireTime ≤ now) :
      Step H s .timer { s with timer := .popped now item, heap := heap }
  | passEnd {now} (ht : s.timer = .pass now)
      (hd : ∀ item, s.heap.front? = some item → now < item.nextFireTime) :
      Step H s .timer { s with timer := .wait }
  | discard {now item} (ht : s.timer = .popped now item)
      (hc : s.words item.cancellable = .cancelled) :
      Step H s .timer ({ s with timer := .pass now }.record .discarded item.cancellable)
  | overlap {now item} (ht : s.timer = .popped now item)
      (hc : s.words item.cancellable ≠ .cancelled) (hr : item.repeating = true)
      (hp : item.policy = .skip) : Step H s .timer { s with timer := .overlap now item }
  | queue {now item} (ht : s.timer = .popped now item)
      (hc : s.words item.cancellable ≠ .cancelled) (hr : item.repeating = true)
      (hp : item.policy = .queue) : Step H s .timer { s with timer := .reinsert now item }
  | oneShot {now item} (ht : s.timer = .popped now item)
      (hc : s.words item.cancellable ≠ .cancelled) (hr : item.repeating = false) :
      Step H s .timer { s with timer := .dispatch now item }
  | skip {now item} (ht : s.timer = .overlap now item)
      (hc : s.words item.cancellable = .running) :
      Step H s .timer { s with timer := .slide now item }
  | noOverlap {now item} (ht : s.timer = .overlap now item)
      (hc : s.words item.cancellable ≠ .running) :
      Step H s .timer { s with timer := .reinsert now item }
  | slide {now item} (ht : s.timer = .slide now item) :
      Step H s .timer ({ s with
        timer := .pass now
        heap := s.heap.push H item.next }.record .pushed item.cancellable)
  | reinsert {now item} (ht : s.timer = .reinsert now item) :
      Step H s .timer ({ s with
        timer := .dispatch now item
        heap := s.heap.push H item.next }.record .pushed item.cancellable)
  | dispatch {now item} (ht : s.timer = .dispatch now item)
      (hc : s.runner.calls[s.timerThread]? = some .idle) :
      Step H s .timer { s with
        runner := s.runner.setCall s.timerThread (.addTaskLock (.invoke item.cancellable))
        timer := .adding now item }
  | added {now item} (ht : s.timer = .adding now item)
      (hc : s.runner.calls[s.timerThread]? = some .idle) :
      Step H s .timer { s with timer := .pass now }
  | wake (ht : s.timer.isBlocked = true) : Step H s .timerWake { s with timer := s.timer.notified }
  | tick {d : ℕ} : Step H s (.tick d) { s with clock := s.clock+d }

theorem compareExchange_fst {word expected desired : ScheduleStatus} :
    (word.compareExchange expected desired).1 = true ↔ word = expected := by
  unfold ScheduleStatus.compareExchange
  split <;> simp_all

theorem compareExchange_snd {word expected desired : ScheduleStatus} (h : word = expected) :
    (word.compareExchange expected desired).2 = desired := by
  simp [ScheduleStatus.compareExchange,h]

theorem callStep_cases {t : ℕ} (h : callStep H s t = some s') : Step H s (.call t) s' := by
  unfold callStep at h
  split at h
  · rename_i c hc
    split at h
    · rename_i hw
      have hw := compareExchange_fst.mp hw
      cases h
      have hs : (s.words c).cancelScheduled.2 = .cancelled := compareExchange_snd hw
      rw [hs]
      exact .cancelScheduled hc hw
    · rename_i hw
      cases h
      exact .cancelFailed hc fun he => hw (compareExchange_fst.mpr he)
  · rename_i c hc
    cases h; exact .cancelRunning hc
  · rename_i item hc
    split at h
    · cases h; exact .pushLock hc (by simpa using ‹s.mutex.isNone = true›)
    · cases h
  · rename_i item hc
    cases h; exact .push hc
  · rename_i c hc
    cases h; exact .pushUnlock hc
  · rename_i c hc
    cases h; exact .pushNotify hc
  · rename_i hc
    split at h
    · cases h; exact .stopLock hc (by simpa using ‹s.mutex.isNone = true›)
    · cases h
  · rename_i hc
    cases h; exact .stopStore hc
  · rename_i hc
    cases h; exact .stopUnlock hc
  · rename_i hc
    cases h; exact .stopNotify hc
  · rename_i hc
    split at h
    · rename_i hp
      simp only [Bool.and_eq_true,List.all_eq_true,Bool.not_eq_true'] at hp
      cases h; exact .stopJoin hc hp.1 hp.2
    · cases h
  · cases h

theorem timerStep_cases (h : timerStep H s = some s') : Step H s .timer s' := by
  unfold timerStep at h
  split at h
  · rename_i ht
    split at h
    · cases h; exact .timerLock ht (by simpa using ‹s.mutex.isNone = true›)
    · cases h
  · rename_i ht
    split at h
    · rename_i hp
      cases h; exact .timerAwake ht (by simpa using hp)
    · rename_i hp
      simp only [Bool.or_eq_true,Bool.not_eq_true',not_or,Bool.not_eq_true,Bool.not_eq_false,
        List.isEmpty_iff] at hp
      cases h; exact .timerBlock ht hp.1 hp.2
  · rename_i ht
    split at h
    · cases h; exact .timerStop (.inl ht) ‹_›
    · cases h; exact .timerGo ht (by simpa using ‹¬s.stop = true›)
  · rename_i ht
    obtain ⟨item,hf,rfl⟩ := Option.map_eq_some_iff.mp h
    exact .waitUntil ht hf
  · rename_i ht
    split at h
    · cases h; exact .relock ht (by simpa using ‹s.mutex.isNone = true›)
    · cases h
  · rename_i ht
    split at h
    · cases h; exact .timerStop (.inr ht) ‹_›
    · cases h; exact .timerGoUntil ht (by simpa using ‹¬s.stop = true›)
  · rename_i ht
    cases h; exact .now ht
  · rename_i now ht
    split at h
    · rename_i hd
      obtain ⟨⟨item,heap⟩,hp,rfl⟩ := Option.map_eq_some_iff.mp h
      have hf := (MinHeap.pop_spec H hp).1
      exact .pop ht hp (by simpa [hf] using hd)
    · rename_i hd
      cases h
      exact .passEnd ht fun item hf => by simpa [hf] using hd
  · rename_i now item ht
    split at h
    · cases h; exact .discard ht ‹_›
    · rename_i hc
      split at h
      · rename_i hr
        split at h
        · cases h; exact .overlap ht hc hr ‹_›
        · rename_i hp
          cases h
          exact .queue ht hc hr (by cases hq : item.policy <;> simp_all)
      · rename_i hr
        cases h; exact .oneShot ht hc (by simpa using hr)
  · rename_i now item ht
    split at h
    · cases h; exact .skip ht ‹_›
    · cases h; exact .noOverlap ht ‹_›
  · rename_i now item ht
    cases h; exact .slide ht
  · rename_i now item ht
    cases h; exact .reinsert ht
  · rename_i now item ht
    obtain ⟨r,hr,rfl⟩ := Option.map_eq_some_iff.mp h
    cases TaskRunner.step_cases hr with
    | addTask hc _ => exact .dispatch ht hc
  · rename_i now item ht
    split at h
    · cases h; exact .added ht ‹_›
    · cases h
  · cases h

theorem closureStep_cases {w : ℕ} (h : closureStep s w = some s') : Step H s (.closure w) s' := by
  unfold closureStep at h
  split at h
  · rename_i c hw
    split at h
    · rename_i hc
      have hc := compareExchange_fst.mp hc
      have hs : (s.words c).trySetRunning.2 = .running := compareExchange_snd hc
      cases h
      rw [hs]
      exact .started hw hc
    · rename_i hc
      cases h
      exact .refused hw fun he => hc (compareExchange_fst.mpr he)
  · rename_i c hw
    split at h
    · cases h; exact .completed hw ‹_›
    · cases h
  · rename_i c hw
    cases h; exact .finish hw
  · rename_i n hw
    split at h
    · cases h; exact .external hw ‹_›
    · cases h
  · cases h

theorem step_cases {a : Act} (h : step H s a = some s') : Step H s a s' := by
  cases a with
  | runner a =>
    simp only [step] at h
    split at h
    · obtain ⟨r,hr,rfl⟩ := Option.map_eq_some_iff.mp h
      exact .runner ‹_› (TaskRunner.step_cases hr)
    · cases h
  | closure w => exact closureStep_cases h
  | schedule t request =>
    simp only [step] at h
    split at h
    · rename_i hg
      simp only [Bool.and_eq_true,Bool.not_eq_true'] at hg
      cases h; exact .schedule hg.1 hg.2
    · cases h
  | cancel t c =>
    simp only [step] at h
    split at h
    · rename_i hg
      simp only [Bool.and_eq_true,List.contains_eq_mem,decide_eq_true_eq] at hg
      cases h; exact .cancel hg.1 hg.2
    · cases h
  | destroy t =>
    simp only [step] at h
    split at h
    · rename_i hg
      simp only [Bool.and_eq_true,Bool.not_eq_true'] at hg
      cases h; exact .destroy hg.1 hg.2
    · cases h
  | call t => exact callStep_cases h
  | timer => exact timerStep_cases h
  | timerWake =>
    simp only [step] at h
    split at h
    · cases h; exact .wake ‹_›
    · cases h
  | tick d =>
    cases h; exact .tick

theorem betweenCalls_idle {t : ℕ} (h : s.betweenCalls t = true) :
    s.calls[t]? = some .idle ∧ s.runner.calls[t]? = some .idle := by
  unfold State.betweenCalls at h
  split at h
  · exact ⟨‹_›,‹_›⟩
  · cases h

theorem mayCall_idle {t : ℕ} (h : s.mayCall t = true) :
    s.calls[t]? = some .idle ∧ s.runner.calls[t]? = some .idle ∧ t ≠ s.timerThread := by
  simp only [State.mayCall,Bool.and_eq_true,bne_iff_ne] at h
  exact ⟨(betweenCalls_idle h.1.1).1,(betweenCalls_idle h.1.1).2,h.1.2⟩

end Blush.TaskScheduler
