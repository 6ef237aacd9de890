import Blush.Lib.Progress
import Blush.ReadWriteLocked.Model

/-! Nobody can tell `read` and `write` from operations that take effect at one moment: the moment
the lock is taken. Every call comes to its end. -/
namespace Blush.ReadWriteLocked
open Transition Slots Progress
variable {T ρ ε : Type}

/-- Between `lock_shared` and `unlock_shared`. -/
def Call.isShared : Call T ρ ε → Bool
  | .reading _ | .unlockShared _ => true
  | _ => false

/-- Between `lock` and `unlock`. -/
def Call.isExclusive : Call T ρ ε → Bool
  | .writing _ | .unlock _ => true
  | _ => false

/-- Inside the callable, where the value is accessed. -/
def Call.isInside : Call T ρ ε → Bool
  | .reading _ | .writing _ => true
  | _ => false

namespace State

/-- The mutex knows who holds it, and how. -/
structure Locked (s : State T ρ ε) : Prop where
  exclusive : ∀ t, s.mutex.owner = some t ↔ ∃ c, s.calls[t]? = some c ∧ c.isExclusive = true
  shared : ∀ t, t ∈ s.mutex.sharers ↔ ∃ c, s.calls[t]? = some c ∧ c.isShared = true
  nodup : s.mutex.sharers.Nodup
  apart : s.mutex.owner ≠ none → s.mutex.sharers = []

/-- Nobody accesses the value while another thread is in a callable that may store. -/
def RaceFree (s : State T ρ ε) : Prop :=
  ∀ (t u : ℕ) (fn : Writer T ρ ε) (c : Call T ρ ε), s.calls[t]? = some (.writing fn) →
    s.calls[u]? = some c → c.isInside = true → u = t

end State

variable {s s' : State T ρ ε} {t : ℕ} {c d : Call T ρ ε}

theorem init_locked (v : T) (threads : ℕ) : (init v threads : State T ρ ε).Locked := by
  have hidle : ∀ (t : ℕ) (c : Call T ρ ε), (init v threads).calls[t]? = some c → c = .idle :=
    fun t c hc => List.eq_of_mem_replicate (List.mem_of_getElem? hc)
  refine ⟨fun t => ⟨nofun,?_⟩,fun t => ⟨nofun,?_⟩,List.nodup_nil,fun _ => rfl⟩
  · rintro ⟨c,hc,he⟩
    simp [hidle t c hc,Call.isExclusive] at he
  · rintro ⟨c,hc,he⟩
    simp [hidle t c hc,Call.isShared] at he

namespace State.Locked

/-- A call moves on and the mutex follows it; what the other calls hold stays. -/
theorem move (hi : s.Locked) (hc : s.calls[t]? = some c) {m : SharedMutex}
    (he : ∀ u, m.owner = some u ↔ (u = t ∧ d.isExclusive = true) ∨
      (u ≠ t ∧ s.mutex.owner = some u))
    (hs : ∀ u, u ∈ m.sharers ↔ (u = t ∧ d.isShared = true) ∨ (u ≠ t ∧ u ∈ s.mutex.sharers))
    (hn : m.sharers.Nodup) (ha : m.owner ≠ none → m.sharers = []) :
    ((s.setCall t d).setMutex m).Locked := by
  refine ⟨fun u => (he u).trans ?_,fun u => (hs u).trans ?_,hn,ha⟩
  · rw [hi.exclusive u]
    exact (exists_set_iff hc u).symm
  · rw [hi.shared u]
    exact (exists_set_iff hc u).symm

/-- A call that keeps what it holds moves on. -/
theorem setCall (hi : s.Locked) (hc : s.calls[t]? = some c) (he : d.isExclusive = c.isExclusive)
    (hs : d.isShared = c.isShared) : (s.setCall t d).Locked := by
  refine hi.move hc (m:=s.mutex) (fun u => ?_) (fun u => ?_) hi.nodup hi.apart
  · by_cases hu : u = t
    · subst u
      simp [hi.exclusive t,hc,he]
    · simp [hu]
  · by_cases hu : u = t
    · subst u
      simp [hi.shared t,hc,hs]
    · simp [hu]

theorem setValue (hi : s.Locked) (v : T) : (s.setValue v).Locked :=
  ⟨hi.exclusive,hi.shared,hi.nodup,hi.apart⟩

theorem owner (hi : s.Locked) (hc : s.calls[t]? = some c) (he : c.isExclusive = true) :
    s.mutex.owner = some t := (hi.exclusive t).mpr ⟨c,hc,he⟩

theorem not_owner (hi : s.Locked) (hc : s.calls[t]? = some c) (he : c.isExclusive = false) :
    s.mutex.owner ≠ some t := by
  intro ho
  obtain ⟨x,hx,hh⟩ := (hi.exclusive t).mp ho
  obtain rfl := Option.some.inj (hc.symm.trans hx)
  simp [he] at hh

theorem not_sharer (hi : s.Locked) (hc : s.calls[t]? = some c) (he : c.isShared = false) :
    t ∉ s.mutex.sharers := by
  intro ho
  obtain ⟨x,hx,hh⟩ := (hi.shared t).mp ho
  obtain rfl := Option.some.inj (hc.symm.trans hx)
  simp [he] at hh

/-- While one thread holds the mutex exclusively no other call holds it at all. -/
theorem alone (hi : s.Locked) (hc : s.calls[t]? = some c) (he : c.isExclusive = true) {u : ℕ}
    {x : Call T ρ ε} (hx : s.calls[u]? = some x) (hu : u ≠ t) :
    x.isExclusive = false ∧ x.isShared = false := by
  have ho := hi.owner hc he
  constructor
  · by_contra h
    have := hi.owner hx (by simpa using h)
    exact hu (Option.some.inj (this.symm.trans ho))
  · by_contra h
    have hm := (hi.shared u).mpr ⟨x,hx,by simpa using h⟩
    rw [hi.apart (by simp [ho])] at hm
    cases hm

theorem raceFree (hi : s.Locked) : s.RaceFree := by
  intro t u fn c ht hu hin
  by_contra hne
  obtain ⟨he,hs⟩ := hi.alone ht rfl hu hne
  cases c with
  | reading fn => cases hs
  | writing fn => cases he
  | _ => cases hin

end State.Locked

theorem step_locked {a : Act T ρ ε} (hi : s.Locked) (h : step s a = some s') : s'.Locked := by
  cases step_cases h with
  | @call t op hc =>
    refine hi.setCall hc ?_ ?_ <;> cases op <;> rfl
  | @lockShared t fn hc hm =>
    refine hi.move hc (fun u => ?_) (fun u => ?_)
      (List.nodup_cons.mpr ⟨hi.not_sharer hc rfl,hi.nodup⟩) (fun h => absurd rfl h)
    · simp [hm,Call.isExclusive]
    · by_cases hu : u = t <;> simp [hu,Call.isShared]
  | readLoad hc => exact hi.setCall hc rfl rfl
  | readEnds hc => exact hi.setCall hc rfl rfl
  | @unlockShared t result hc =>
    refine hi.move hc (fun u => ?_) (fun u => ?_) (hi.nodup.erase t) (fun ho => ?_)
    · have hne := hi.not_owner hc rfl
      by_cases hu : u = t
      · subst u
        simp [hne,Call.isExclusive]
      · simp [hu]
    · rw [hi.nodup.mem_erase_iff]
      simp [Call.isShared]
    · rw [hi.apart ho,List.erase_nil]
  | @lock t fn hc hm =>
    refine hi.move hc (fun u => ?_) (fun u => ?_) List.nodup_nil fun _ => rfl
    · simp [hm,Call.isExclusive,eq_comm]
    · simp [hm,Call.isShared]
  | writeLoad hc => exact hi.setCall hc rfl rfl
  | @writeStore t change next hc =>
    exact (hi.setCall (d:=.writing next) hc rfl rfl).setValue (change s.value)
  | writeEnds hc => exact hi.setCall hc rfl rfl
  | @unlock t result hc =>
    have ho := hi.owner hc rfl
    refine hi.move hc (fun u => ?_) (fun u => ?_) hi.nodup fun h => absurd rfl h
    · simp only [ho,Option.some.injEq,Call.isExclusive]
      grind
    · simp [hi.apart (by simp [ho]),Call.isShared]
  | leave hc => exact hi.setCall hc rfl rfl

/-! ## The moment an operation takes effect -/

/-- A call before its lock is pending; from its lock on, its result is fixed. -/
def Call.atomic (v : T) : Call T ρ ε → Atomic.Call (Op T ρ ε) (Except ε ρ)
  | .idle => .idle
  | .lockShared fn => .pending (.read fn)
  | .reading fn => .done (fn.run v)
  | .lock fn => .pending (.write fn)
  | .writing fn => .done (fn.run v).1
  | .unlockShared result | .unlock result | .leaving result => .done result

/-- What a call that holds the mutex exclusively leaves behind. -/
def Call.settle : Call T ρ ε → T → T
  | .writing fn,v => (fn.run v).2
  | _,v => v

/-- The value there will be when the writer inside, if any, is through. -/
def State.settled (s : State T ρ ε) : T :=
  match s.mutex.owner.bind fun t => s.calls[t]? with
  | some c => c.settle s.value
  | none => s.value

/-- How the locked value looks to somebody who takes it for an atomic object. -/
structure Looks (s : State T ρ ε) (a : Atomic.State T (Op T ρ ε) (Except ε ρ)) : Prop where
  locked : s.Locked
  calls : a.calls = s.calls.map (Call.atomic s.value)
  value : a.value = s.settled

theorem settled_of_free (hm : s.mutex.owner = none) : s.settled = s.value := by
  simp [State.settled,hm]

theorem settled_of_owner (hm : s.mutex.owner = some t) (hc : s.calls[t]? = some c) :
    s.settled = c.settle s.value := by simp only [State.settled,hm,Option.bind_some,hc]

theorem settled_setCall (hm : s.mutex.owner ≠ some t) : (s.setCall t d).settled = s.settled := by
  cases ho : s.mutex.owner with
  | none => simp [State.settled,State.setCall,ho]
  | some u =>
    have hu : t ≠ u := fun h => hm (by rw [ho,h])
    simp [State.settled,State.setCall,ho,List.getElem?_set_ne hu]

namespace Looks
variable {a : Atomic.State T (Op T ρ ε) (Except ε ρ)}

theorem call (h : Looks s a) (hc : s.calls[t]? = some c) :
    a.calls[t]? = some (c.atomic s.value) := by
  rw [h.calls,List.getElem?_map,hc,Option.map_some]

theorem set (h : Looks s a) (t : ℕ) (d : Call T ρ ε) :
    a.calls.set t (d.atomic s.value) = (s.setCall t d).calls.map (Call.atomic s.value) := by
  rw [h.calls,State.setCall,List.map_set]

/-- A call that moves on without a change of its result is not seen. -/
theorem stutter (h : Looks s a) (hc : s.calls[t]? = some c) (hl : (s.setCall t d).Locked)
    (ha : d.atomic s.value = c.atomic s.value) (hs : (s.setCall t d).settled = s.settled) :
    Looks (s.setCall t d) a :=
  ⟨hl,h.calls.trans (map_set_of_eq hc ha).symm,h.value.trans hs.symm⟩

end Looks

/-- Every step is the same step of the atomic object, its taking effect, or nothing. -/
theorem step_looks {a : Atomic.State T (Op T ρ ε) (Except ε ρ)} {x : Act T ρ ε} (h : Looks s a)
    (hs : step s x = some s') : ∃ a' more, Looks s' a' ∧
      Run (Atomic.step Op.apply) a more a' ∧
        Atomic.history Atomic.event more = (event s x).toList := by
  have hl := step_locked h.locked hs
  cases step_cases hs with
  | @call t op hc =>
    have ha := h.call hc
    refine ⟨{ a with calls := a.calls.set t (.pending op) },[(a,.invoke t op)],
      ⟨hl,?_,?_⟩,Run.refl.next ?_,rfl⟩
    · have he : op.enter.atomic s.value = .pending op := by cases op <;> rfl
      exact he ▸ h.set t op.enter
    · exact h.value.trans (settled_setCall (h.locked.not_owner hc rfl)).symm
    · simp [Atomic.step,ha,Call.atomic]
  | @lockShared t fn hc hm =>
    have ha := h.call hc
    have hv := h.value.trans (settled_of_free hm)
    refine ⟨⟨a.value,a.calls.set t (.done (fn.run s.value)),
      a.order ++ [(t,.read fn,fn.run s.value)]⟩,[(a,.commit t)],⟨hl,?_,?_⟩,Run.refl.next ?_,rfl⟩
    · exact h.set t (.reading fn)
    · exact hv.trans (settled_of_free (s:=(s.setCall t _).setMutex _) rfl).symm
    · simp [Atomic.step,ha,Call.atomic,Op.apply,hv]
  | @readLoad t next hc =>
    exact ⟨a,[],h.stutter hc hl rfl (settled_setCall (h.locked.not_owner hc rfl)),.refl,rfl⟩
  | @readEnds t result hc =>
    exact ⟨a,[],h.stutter hc hl rfl (settled_setCall (h.locked.not_owner hc rfl)),.refl,rfl⟩
  | @unlockShared t result hc =>
    refine ⟨a,[],⟨hl,?_,?_⟩,.refl,rfl⟩
    · exact h.calls.trans (map_set_of_eq (b:=.leaving result) hc rfl).symm
    · exact h.value.trans (settled_setCall (d:=.leaving result) (h.locked.not_owner hc rfl)).symm
  | @lock t fn hc hm =>
    have ha := h.call hc
    have hv := h.value.trans (settled_of_free (by rw [hm]))
    refine ⟨⟨(fn.run s.value).2,a.calls.set t (.done (fn.run s.value).1),
      a.order ++ [(t,.write fn,(fn.run s.value).1)]⟩,[(a,.commit t)],⟨hl,?_,?_⟩,Run.refl.next ?_,
      rfl⟩
    · exact h.set t (.writing fn)
    · exact (settled_of_owner (s:=(s.setCall t (.writing fn)).setMutex ⟨some t,[]⟩) rfl
        (getElem?_set_self hc)).symm
    · simp [Atomic.step,ha,Call.atomic,Op.apply,hv]
  | @writeLoad t next hc =>
    have ho := h.locked.owner hc rfl
    refine ⟨a,[],h.stutter hc hl rfl ?_,.refl,rfl⟩
    exact (settled_of_owner (s:=s.setCall t _) ho (getElem?_set_self hc)).trans
      (settled_of_owner ho hc).symm
  | @writeStore t change next hc =>
    have ho := h.locked.owner hc rfl
    refine ⟨a,[],⟨hl,?_,?_⟩,.refl,rfl⟩
    · -- Only the writer itself has a result that depends on the value.
      rw [h.calls]
      apply List.ext_getElem?
      intro u
      rw [List.getElem?_map,List.getElem?_map,State.setValue,State.setCall]
      by_cases hu : u = t
      · subst u
        rw [hc,getElem?_set_self hc]
        rfl
      · rw [List.getElem?_set_ne (Ne.symm hu)]
        cases hx : s.calls[u]? with
        | none => rfl
        | some x =>
          obtain ⟨he,hs⟩ := h.locked.alone hc rfl hx hu
          cases x with
          | reading fn => cases hs
          | writing fn => cases he
          | _ => rfl
    · exact (h.value.trans (settled_of_owner ho hc)).trans
        (settled_of_owner (s:=(s.setCall t (.writing next)).setValue (change s.value)) ho
          (getElem?_set_self hc)).symm
  | @writeEnds t result hc =>
    have ho := h.locked.owner hc rfl
    refine ⟨a,[],h.stutter hc hl rfl ?_,.refl,rfl⟩
    exact (settled_of_owner (s:=s.setCall t _) ho (getElem?_set_self hc)).trans
      (settled_of_owner ho hc).symm
  | @unlock t result hc =>
    have ho := h.locked.owner hc rfl
    refine ⟨a,[],⟨hl,?_,?_⟩,.refl,rfl⟩
    · exact h.calls.trans (map_set_of_eq (b:=.leaving result) hc rfl).symm
    · exact (h.value.trans (settled_of_owner ho hc)).trans
        (settled_of_free (s:=(s.setCall t _).setMutex _) rfl).symm
  | @leave t result hc =>
    have ha := h.call hc
    refine ⟨{ a with calls := a.calls.set t .idle },[(a,.respond t)],⟨hl,?_,?_⟩,
      Run.refl.next ?_,?_⟩
    · exact h.set t .idle
    · exact h.value.trans (settled_setCall (h.locked.not_owner hc rfl)).symm
    · simp [Atomic.step,ha,Call.atomic]
    · simp [Atomic.history,Atomic.event,event,ha,hc,Call.atomic]

theorem init_looks (v : T) (threads : ℕ) :
    Looks (init v threads : State T ρ ε) (Atomic.init v threads) :=
  ⟨init_locked v threads,by simp [init,Atomic.init,Call.atomic],rfl⟩

/-- A run of the locked value is a run of an atomic object with the same calls, results and last
value, however the threads are interleaved; and no two threads race on the value. -/
theorem linearizable (v : T) (threads : ℕ)
    (e : Execution (step (T:=T) (ρ:=ρ) (ε:=ε)) (init v threads)) :
    (∃ (a : Atomic.State T (Op T ρ ε) (Except ε ρ)) (more : _),
      Run (Atomic.step Op.apply) (Atomic.init v threads) more a ∧
      Atomic.history Atomic.event more = Atomic.history event e.steps ∧
      Atomic.Legal Op.apply v a.order a.value ∧
      (e.final.mutex.owner = none → a.value = e.final.value)) ∧
    ∀ s ∈ e.visited, s.RaceFree := by
  constructor
  · obtain ⟨a,more,ha,hr,hh⟩ := Atomic.simulate (R:=Looks)
      (fun _ _ _ _ hl hs => step_looks hl hs) e.run (init_looks v threads)
    exact ⟨a,more,hr,hh,Atomic.run_legal hr,fun hm => ha.value.trans (settled_of_free hm)⟩
  · refine e.forall_visited fun steps s _ hr => ?_
    exact (hr.invariant (init_locked v threads) fun _ _ _ => step_locked).raceFree

/-! ## Every call ends -/

/-- What a call comes to next, whatever the value was when it was loaded. -/
inductive Call.After : Call T ρ ε → Call T ρ ε → Prop
  | lockShared {fn} : After (.reading fn) (.lockShared fn)
  | readLoad {next} (v : T) : After (.reading (next v)) (.reading (.load next))
  | readEnds {result} : After (.unlockShared result) (.reading (.ends result))
  | unlockShared {result} : After (.leaving result) (.unlockShared result)
  | lock {fn} : After (.writing fn) (.lock fn)
  | writeLoad {next} (v : T) : After (.writing (next v)) (.writing (.load next))
  | writeStore {change next} : After (.writing next) (.writing (.store change next))
  | writeEnds {result} : After (.unlock result) (.writing (.ends result))
  | unlock {result} : After (.leaving result) (.unlock result)
  | leave {result} : After .idle (.leaving result)

/-- A callable is a tree of its possible courses, and each of them is finite. -/
theorem Call.after_wf : WellFounded (Call.After (T:=T) (ρ:=ρ) (ε:=ε)) := by
  have hidle : Acc (Call.After (T:=T) (ρ:=ρ) (ε:=ε)) .idle := .intro _ nofun
  have hleaving (r : Except ε ρ) : Acc (Call.After (T:=T)) (.leaving r) :=
    .intro _ fun c h => by cases h; exact hidle
  have hshared (r : Except ε ρ) : Acc (Call.After (T:=T)) (.unlockShared r) :=
    .intro _ fun c h => by cases h; exact hleaving r
  have hunlock (r : Except ε ρ) : Acc (Call.After (T:=T)) (.unlock r) :=
    .intro _ fun c h => by cases h; exact hleaving r
  have hreading (fn : Reader T ρ ε) : Acc Call.After (.reading fn) := by
    induction fn with
    | ends r => exact .intro _ fun c h => by cases h; exact hshared r
    | load next ih => exact .intro _ fun c h => by cases h; exact ih _
  have hwriting (fn : Writer T ρ ε) : Acc Call.After (.writing fn) := by
    induction fn with
    | ends r => exact .intro _ fun c h => by cases h; exact hunlock r
    | load next ih => exact .intro _ fun c h => by cases h; exact ih _
    | store change next ih => exact .intro _ fun c h => by cases h; exact ih
  refine ⟨fun c => ?_⟩
  cases c with
  | idle => exact hidle
  | lockShared fn => exact .intro _ fun c h => by cases h; exact hreading fn
  | reading fn => exact hreading fn
  | unlockShared r => exact hshared r
  | lock fn => exact .intro _ fun c h => by cases h; exact hwriting fn
  | writing fn => exact hwriting fn
  | unlock r => exact hunlock r
  | leaving r => exact hleaving r

/-- A step other than a new call. -/
def Act.isInner : Act T ρ ε → Bool
  | .call _ _ => false
  | _ => true

/-- Every such step takes one call further. -/
theorem Step.after {a : Act T ρ ε} (h : Step s a s') (ha : a.isInner = true) :
    ∃ t c d, s.calls[t]? = some c ∧ s'.calls = s.calls.set t d ∧ Call.After d c := by
  cases h with
  | call => cases ha
  | lockShared hc => exact ⟨_,_,_,hc,rfl,.lockShared⟩
  | readLoad hc => exact ⟨_,_,_,hc,rfl,.readLoad _⟩
  | readEnds hc => exact ⟨_,_,_,hc,rfl,.readEnds⟩
  | unlockShared hc => exact ⟨_,_,_,hc,rfl,.unlockShared⟩
  | lock hc => exact ⟨_,_,_,hc,rfl,.lock⟩
  | writeLoad hc => exact ⟨_,_,_,hc,rfl,.writeLoad _⟩
  | writeStore hc => exact ⟨_,_,_,hc,rfl,.writeStore⟩
  | writeEnds hc => exact ⟨_,_,_,hc,rfl,.writeEnds⟩
  | unlock hc => exact ⟨_,_,_,hc,rfl,.unlock⟩
  | leave hc => exact ⟨_,_,_,hc,rfl,.leave⟩

/-- A call that holds the mutex, or waits for nothing, has an enabled step. -/
theorem enabled_of_holds (hc : s.calls[t]? = some c)
    (hh : c.isExclusive = true ∨ c.isShared = true) : (step s (.thread t)).isSome = true := by
  simp only [step,threadStep,hc]
  cases c with
  | reading fn => cases fn <;> rfl
  | writing fn => cases fn <;> rfl
  | unlockShared | unlock => rfl
  | _ => simp [Call.isExclusive,Call.isShared] at hh

/-- A call can go on, or the thread that keeps it out of the mutex can. -/
theorem State.Locked.live (hi : s.Locked) (hc : s.calls[t]? = some c) (hn : c ≠ .idle) :
    ∃ a : Act T ρ ε, a.isInner = true ∧ (step s a).isSome = true := by
  have hexclusive (u : ℕ) (hu : s.mutex.owner = some u) :
      ∃ a : Act T ρ ε, a.isInner = true ∧ (step s a).isSome = true := by
    obtain ⟨x,hx,he⟩ := (hi.exclusive u).mp hu
    exact ⟨.thread u,rfl,enabled_of_holds hx (.inl he)⟩
  cases c with
  | idle => exact absurd rfl hn
  | leaving result => exact ⟨.leave t,rfl,by simp [step,hc]⟩
  | lockShared fn =>
    cases ho : s.mutex.owner with
    | none => exact ⟨.thread t,rfl,by simp [step,threadStep,hc,ho]⟩
    | some u => exact hexclusive u ho
  | lock fn =>
    cases ho : s.mutex.owner with
    | none =>
      cases hs : s.mutex.sharers with
      | nil => exact ⟨.thread t,rfl,by simp [step,threadStep,hc,ho,hs]⟩
      | cons u rest =>
        obtain ⟨x,hx,he⟩ := (hi.shared u).mp (by simp [hs])
        exact ⟨.thread u,rfl,enabled_of_holds hx (.inr he)⟩
    | some u => exact hexclusive u ho
  | reading | unlockShared => exact ⟨.thread t,rfl,enabled_of_holds hc (.inr rfl)⟩
  | writing | unlock => exact ⟨.thread t,rfl,enabled_of_holds hc (.inl rfl)⟩

/-- From every reachable state, however the threads are scheduled from there on, the calls in
progress all return: no two of them block each other. -/
theorem calls_return (v : T) (threads : ℕ)
    (e : Execution (step (T:=T) (ρ:=ρ) (ε:=ε)) (init v threads)) :
    Settles step (fun _ a => a.isInner = true) (fun _ a => a.isInner = true)
      (fun s => ∀ c ∈ s.calls, c = .idle) e.final := by
  refine Settles.of_measure Call.after_wf.cutExpand (fun s => (s.calls : Multiset (Call T ρ ε)))
    (I:=State.Locked) (fun s a s' hs ha h => ⟨step_locked hs h,?_⟩) (fun s hs => ?_)
    (e.run.invariant (init_locked v threads) fun _ _ _ => step_locked)
  · obtain ⟨t,c,d,hc,hset,hr⟩ := (step_cases h).after ha
    rw [hset]
    exact cutExpand_set hc hr
  · by_cases hq : ∀ c ∈ s.calls, c = .idle
    · exact .inl hq
    · obtain ⟨c,hc,hn⟩ := not_forall₂.mp hq
      obtain ⟨t,ht⟩ := List.mem_iff_getElem?.mp hc
      exact .inr (hs.live ht hn)

end Blush.ReadWriteLocked
