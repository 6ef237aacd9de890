import Blush.Lib.Ledger
import Blush.Lib.Slots
import Blush.Lib.Transition
import Blush.EventDispatcher.Model

/-! A handle cancels its own registration, on whatever dispatcher owns the state by then. -/
namespace Blush.EventDispatcher
open Ledger MachineInt Slots Transition
variable {κ : Type} {w w' : World κ} {a : Act κ}

/-! ## The registrations of a state -/

/-- The registration that a step makes on the state number `s`, with its handle. -/
def World.registration? (w : World κ) (s : ℕ) : Act κ → Option (ℕ × κ)
  | .register d callback =>
    if (w.live? d).bind Dispatcher.state = some s then some (w.handles.length,callback) else none
  | _ => none

/-- The call is a `Cancel` on the handle number `h`. -/
def Act.cancels (a : Act κ) (h : ℕ) : Bool :=
  match a with
  | .cancel i => i == h
  | _ => false

/-- The registrations made on a state in a run. -/
def registrations (s : ℕ) (steps : List (World κ × Act κ)) : List (ℕ × κ) :=
  steps.filterMap fun p => p.1.registration? s p.2

/-- `Cancel` was called on a handle in a run. -/
def cancelled (steps : List (World κ × Act κ)) (h : ℕ) : Bool := steps.any fun p => p.2.cancels h

/-- The registrations on a state whose handles are not cancelled. -/
def held (s : ℕ) (steps : List (World κ × Act κ)) : List (ℕ × κ) :=
  (registrations s steps).filter fun x => !cancelled steps x.1

/-- The dispatcher number `d` owns the state number `s`. -/
def World.Owns (w : World κ) (d s : ℕ) : Prop := ∃ x, w.live? d = some x ∧ x.state = some s

/-- A dispatcher holds what was registered on its state and not cancelled. A handle is of one
registration, and a state of one dispatcher. `Cancel` takes away the callback of its handle and no
other one, and nothing if it was called before or no dispatcher owns the state any more. -/
structure CancelsOwn (e : Execution step (World.init : World κ)) : Prop where
  holds : ∀ before w, before <+: e.steps → Run step World.init before w → ∀ d s, w.Owns d s →
    w.callbacks d = some ((held s before).map Prod.snd)
  single : ∀ (s s' i i' : ℕ) (x x' : ℕ × κ), (registrations s e.steps)[i]? = some x →
    (registrations s' e.steps)[i']? = some x' → x.1 = x'.1 → s = s' ∧ i = i'
  owner : ∀ w ∈ e.visited, ∀ d d' s, w.Owns d s → w.Owns d' s → d = d'
  removes : ∀ before p after h w', e.steps = before ++ p::after → p.2 = .cancel h →
    step p.1 p.2 = some w' → ∀ d s, p.1.Owns d s → w'.Owns d s ∧
      w'.callbacks d = some (((held s before).filter fun x => x.1 ≠ h).map Prod.snd)
  noop : ∀ before p after h w', e.steps = before ++ p::after → p.2 = .cancel h →
    step p.1 p.2 = some w' → (cancelled before h = true ∨ ∃ s callback,
      (h,callback) ∈ registrations s before ∧ ∀ d, ¬p.1.Owns d s) →
        ∀ d, w'.callbacks d = p.1.callbacks d

theorem registrations_concat (s : ℕ) (steps : List (World κ × Act κ)) :
    registrations s (steps ++ [(w,a)]) = registrations s steps ++ (w.registration? s a).toList := by
  simp [registrations,filterMap_cons_toList]

theorem cancelled_concat (steps : List (World κ × Act κ)) (h : ℕ) :
    cancelled (steps ++ [(w,a)]) h = (cancelled steps h || a.cancels h) := by
  simp [cancelled]

/-! ## One step -/

namespace World

/-- The states that dispatchers own. -/
def owners (l : List Dispatcher) : Multiset ℕ := (l.filterMap Dispatcher.state : List ℕ)

/-- What a step does. A move or a destruction leaves the states with their owners but for one
`shared_ptr`, which is dropped. -/
inductive Step (w : World κ) : Act κ → World κ → Prop
  | construct : Step w .construct { w with
      states := w.states ++ [some .empty]
      dispatchers := w.dispatchers ++ [⟨true,some w.states.length⟩] }
  | register {d callback s state} (ho : w.Owns d s) (hs : w.lock s = some state) :
      Step w (.register d callback) { w.setState s (register state callback).1 with
        handles := w.handles ++ [⟨some s,(register state callback).2⟩] }
  | cancel {h r s state} (hh : w.handles[h]? = some r) (hr : r.state = some s)
      (hs : w.lock s = some state) :
      Step w (.cancel h)
        { w.setState s (erase state r.id) with handles := w.handles.set h { r with state := none } }
  | cancelNothing {h r} (hh : w.handles[h]? = some r)
      (hs : ∀ s, r.state = some s → w.lock s = none) : Step w (.cancel h) w
  | moves {a dispatchers dropped} (hreg : ∀ s, w.registration? s a = none)
      (hcan : ∀ h, a.cancels h = false)
      (ho : owners dispatchers + dropped.toList = owners w.dispatchers)
      (hdead : ∀ x ∈ dispatchers, x.alive = false → x ∈ w.dispatchers ∨ x.state = none) :
      Step w a ({ w with dispatchers }.release dropped)

theorem live?_eq_some {d : ℕ} {x : Dispatcher} :
    w.live? d = some x ↔ w.dispatchers[d]? = some x ∧ x.alive = true :=
  Option.filter_eq_some_iff

theorem owners_set {l : List Dispatcher} {d : ℕ} {x y : Dispatcher} (h : l[d]? = some x) :
    owners (l.set d y) + x.state.toList = owners l + y.state.toList := filterMap_set _ h

theorem owners_concat (l : List Dispatcher) (x : Dispatcher) :
    owners (l ++ [x]) = owners l + x.state.toList := by
  rw [owners,List.filterMap_append,filterMap_cons_toList]
  simp [owners]

end World

/-- An object that is dead after a slot was overwritten by a live or an empty one. -/
theorem dead_of_mem_set {l : List Dispatcher} {d : ℕ} {x y : Dispatcher} (h : x ∈ l.set d y)
    (hx : x.alive = false) (hy : y.alive = true ∨ y.state = none) : x ∈ l ∨ x.state = none := by
  rcases List.mem_or_eq_of_mem_set h with h | rfl
  · exact .inl h
  · rcases hy with hy | hy
    · simp [hx] at hy
    · exact .inr hy

theorem step_cases (h : step w a = some w') : w.Step a w' := by
  cases a with
  | construct =>
    obtain rfl := Option.some.inj h
    exact .construct
  | register d callback =>
    obtain ⟨x,hd,h⟩ := Option.bind_eq_some_iff.mp h
    obtain ⟨s,hx,h⟩ := Option.bind_eq_some_iff.mp h
    obtain ⟨state,hs,rfl⟩ := Option.map_eq_some_iff.mp h
    exact .register ⟨x,hd,hx⟩ hs
  | cancel h =>
    obtain ⟨r,hh,rfl⟩ := Option.map_eq_some_iff.mp h
    unfold World.cancel
    cases hr : r.state with
    | none => exact .cancelNothing hh (by simp [hr])
    | some s =>
      cases hs : w.lock s with
      | none =>
        simp only [hs]
        refine .cancelNothing hh fun t ht => ?_
        obtain rfl := Option.some.inj (hr.symm.trans ht)
        exact hs
      | some state =>
        simp only [hs]
        exact .cancel hh hr hs
  | moveConstruct d =>
    obtain ⟨x,hd,rfl⟩ := Option.map_eq_some_iff.mp h
    have hset := World.owners_set (y:=⟨true,none⟩) (World.live?_eq_some.mp hd).1
    show w.Step _ (World.release { w with dispatchers := _ } none)
    refine .moves (fun _ => rfl) (fun _ => rfl) ?_ fun y hy hdead => ?_
    · rw [World.owners_concat]
      simpa using hset
    · rcases List.mem_append.mp hy with hy | hy
      · exact dead_of_mem_set hy hdead (.inl rfl)
      · rw [List.mem_singleton.mp hy] at hdead
        simp at hdead
  | moveAssign d d' =>
    obtain ⟨y,hd,h⟩ := Option.bind_eq_some_iff.mp h
    obtain ⟨x,hd',rfl⟩ := Option.map_eq_some_iff.mp h
    have hmoved := World.owners_set (y:=⟨true,none⟩) (World.live?_eq_some.mp hd').1
    obtain ⟨z,hz⟩ : ∃ z, (w.dispatchers.set d' ⟨true,none⟩)[d]? = some z := by
      have hlt := (List.getElem?_eq_some_iff.mp (World.live?_eq_some.mp hd).1).1
      exact ⟨_,List.getElem?_eq_getElem (by simpa using hlt)⟩
    have hset := World.owners_set (y:=⟨true,x.state⟩) hz
    refine .moves (fun _ => rfl) (fun _ => rfl) ?_ fun u hu hdead => ?_
    · rw [hz,Option.bind_some,hset]
      simpa using hmoved
    · rcases dead_of_mem_set hu hdead (.inl rfl) with hu | hu
      · exact dead_of_mem_set hu hdead (.inl rfl)
      · exact .inr hu
  | destroy d =>
    obtain ⟨x,hd,rfl⟩ := Option.map_eq_some_iff.mp h
    have hset := World.owners_set (y:=⟨false,none⟩) (World.live?_eq_some.mp hd).1
    refine .moves (fun _ => rfl) (fun _ => rfl) ?_ fun y hy hdead => ?_
    · simpa using hset
    · exact dead_of_mem_set hy hdead (.inr rfl)

/-! ## Ownership -/

namespace World

theorem lock_eq_some {s : ℕ} {state : State κ} :
    w.lock s = some state ↔ w.states[s]? = some (some state) := Option.join_eq_some_iff

theorem lock_setState {s : ℕ} {state state' : State κ} (h : w.lock s = some state) (t : ℕ) :
    (w.setState s state').lock t = if t = s then some state' else w.lock t := by
  by_cases ht : t = s
  · subst t
    rw [if_pos rfl]
    exact lock_eq_some.mpr (getElem?_set_self (lock_eq_some.mp h))
  · rw [if_neg ht,lock,setState,List.getElem?_set_ne (Ne.symm ht)]
    rfl

theorem lock_release {dropped : Option ℕ} {s : ℕ} :
    (w.release dropped).lock s =
      if dropped = some s ∧ s ∉ owners w.dispatchers then none else w.lock s := by
  cases dropped with
  | none => simp [release]
  | some t =>
    have hany : (w.dispatchers.any fun x => x.state == some t) = true ↔
        t ∈ owners w.dispatchers := by
      simp [owners,List.mem_filterMap]
    rw [release]
    by_cases ht : t ∈ owners w.dispatchers
    · rw [if_pos (hany.mpr ht),if_neg]
      rintro ⟨hs,hn⟩
      exact hn (Option.some.inj hs ▸ ht)
    · rw [if_neg fun h => ht (hany.mp h)]
      by_cases hs : t = s
      · subst s
        rw [if_pos ⟨rfl,ht⟩,lock,List.getElem?_set_self']
        cases w.states[t]? <;> rfl
      · rw [if_neg fun h => hs (Option.some.inj h.1),lock,List.getElem?_set_ne hs]
        rfl

@[simp] theorem dispatchers_release (dropped : Option ℕ) :
    (w.release dropped).dispatchers = w.dispatchers := by
  cases dropped with
  | none => rfl
  | some s =>
    rw [release]
    split <;> rfl

@[simp] theorem handles_release (dropped : Option ℕ) :
    (w.release dropped).handles = w.handles := by
  cases dropped with
  | none => rfl
  | some s =>
    rw [release]
    split <;> rfl

theorem length_states_release (dropped : Option ℕ) :
    (w.release dropped).states.length = w.states.length := by
  cases dropped with
  | none => rfl
  | some s =>
    rw [release]
    split
    · rfl
    · exact List.length_set

/-- A state exists as long as a dispatcher owns it, and no two do. -/
structure Owned (w : World κ) : Prop where
  lock : ∀ s, s ∈ owners w.dispatchers ↔ w.lock s ≠ none
  once : (owners w.dispatchers).Nodup
  dead : ∀ x ∈ w.dispatchers, x.alive = false → x.state = none

theorem init_owned : (init : World κ).Owned :=
  ⟨by simp [owners,init,World.lock],Multiset.nodup_zero,by simp [init]⟩

/-- A step that keeps the dispatchers and the states that exist. -/
theorem Owned.of_eq (ho : w.Owned) (hd : w'.dispatchers = w.dispatchers)
    (hl : ∀ s, w'.lock s ≠ none ↔ w.lock s ≠ none) : w'.Owned :=
  ⟨fun s => by rw [hd,hl,ho.lock],hd ▸ ho.once,hd ▸ ho.dead⟩

theorem lock_setState_ne_none {s : ℕ} {state state' : State κ} (h : w.lock s = some state)
    (t : ℕ) : (w.setState s state').lock t ≠ none ↔ w.lock t ≠ none := by
  rw [lock_setState h]
  by_cases ht : t = s
  · simp [ht,h]
  · rw [if_neg ht]

theorem Step.owned (h : w.Step a w') (ho : w.Owned) : w'.Owned := by
  cases h with
  | construct =>
    have hfresh : w.states.length ∉ owners w.dispatchers := fun hs =>
      (ho.lock _).mp hs (by simp [World.lock])
    have howners := owners_concat w.dispatchers ⟨true,some w.states.length⟩
    refine ⟨fun s => ?_,?_,fun x hx hdead => ?_⟩
    · show s ∈ owners (w.dispatchers ++ _) ↔ (w.states ++ _)[s]?.join ≠ none
      rw [howners]
      rcases Nat.lt_trichotomy s w.states.length with hs | rfl | hs
      · have hlock := ho.lock s
        rw [World.lock] at hlock
        rw [List.getElem?_append_left hs]
        simpa [hs.ne] using hlock
      · simp
      · have hnone : w.lock s = none := by simp [World.lock,hs.le]
        simpa [hs.ne',List.getElem?_append_right hs.le,hnone,Nat.sub_ne_zero_of_lt hs] using
          ho.lock s
    · show (owners (w.dispatchers ++ _)).Nodup
      rw [howners]
      exact Multiset.nodup_add.mpr ⟨ho.once,Multiset.nodup_singleton _,by simpa using hfresh⟩
    · rcases List.mem_append.mp hx with hx | hx
      · exact ho.dead x hx hdead
      · rw [List.mem_singleton.mp hx] at hdead
        simp at hdead
  | register _ hs => exact ho.of_eq rfl fun t => lock_setState_ne_none hs t
  | cancel _ _ hs => exact ho.of_eq rfl fun t => lock_setState_ne_none hs t
  | cancelNothing => exact ho
  | @moves _ dispatchers dropped _ _ howners hdead =>
    refine ⟨fun s => ?_,?_,fun x hx hx' => ?_⟩
    · have hs := ho.lock s
      have hlock : ({ w with dispatchers } : World κ).lock s = w.lock s := rfl
      rw [← howners,Multiset.mem_add] at hs
      rw [dispatchers_release,lock_release,hlock]
      by_cases hs' : s ∈ owners dispatchers
      · rw [if_neg fun h => h.2 hs']
        simpa [hs'] using hs.mp (.inl hs')
      · by_cases hdrop : dropped = some s
        · simp [hs',hdrop]
        · rw [if_neg fun h => hdrop h.1]
          simpa [hs',hdrop,eq_comm] using hs
    · rw [dispatchers_release]
      exact (Multiset.nodup_add.mp (howners ▸ ho.once)).1
    · rw [dispatchers_release] at hx
      rcases hdead x hx hx' with hx | hx
      · exact ho.dead x hx hx'
      · exact hx

/-- What a dispatcher that owns a state holds. -/
theorem callbacks_of_owns {d s : ℕ} {state : State κ} (ho : w.Owns d s)
    (hs : w.lock s = some state) : w.callbacks d = some (snapshot state) := by
  obtain ⟨x,hd,hx⟩ := ho
  simp [callbacks,hd,hx,hs]

theorem Owned.exists_lock {d s : ℕ} (hw : w.Owned) (ho : w.Owns d s) :
    ∃ state, w.lock s = some state := by
  obtain ⟨x,hd,hx⟩ := ho
  refine Option.ne_none_iff_exists'.mp ((hw.lock s).mp ?_)
  exact List.mem_filterMap.mpr ⟨x,List.mem_of_getElem? (live?_eq_some.mp hd).1,hx⟩

/-- A state that exists has an owner. -/
theorem Owned.exists_owner {s : ℕ} {state : State κ} (hw : w.Owned) (hs : w.lock s = some state) :
    ∃ d, w.Owns d s := by
  obtain ⟨x,hx,hxs⟩ := List.mem_filterMap.mp ((hw.lock s).mpr (by simp [hs]))
  obtain ⟨d,hd⟩ := List.mem_iff_getElem?.mp hx
  refine ⟨d,x,live?_eq_some.mpr ⟨hd,?_⟩,hxs⟩
  by_contra hdead
  have hnone := hw.dead x hx (by simpa using hdead)
  simp [hnone] at hxs

theorem Owned.owner_unique {d d' s : ℕ} (hw : w.Owned) (h : w.Owns d s) (h' : w.Owns d' s) :
    d = d' := by
  obtain ⟨x,hd,hx⟩ := h
  obtain ⟨x',hd',hx'⟩ := h'
  obtain ⟨hlt,hd⟩ := List.getElem?_eq_some_iff.mp (live?_eq_some.mp hd).1
  obtain ⟨hlt',hd'⟩ := List.getElem?_eq_some_iff.mp (live?_eq_some.mp hd').1
  have honce : (w.dispatchers.filterMap Dispatcher.state).Nodup := hw.once
  rw [List.Nodup,List.pairwise_filterMap,List.pairwise_iff_getElem] at honce
  rcases Nat.lt_trichotomy d d' with hlt | rfl | hlt
  · exact absurd rfl (honce d d' _ _ hlt s (hd ▸ hx) s (hd' ▸ hx'))
  · rfl
  · exact absurd rfl (honce d' d _ _ hlt s (hd' ▸ hx') s (hd ▸ hx))

end World

/-! ## What a run establishes -/

/-- About a state that exists. -/
structure Registered (w : World κ) (steps : List (World κ × Act κ)) (s : ℕ) (state : State κ) :
    Prop where
  nextId : state.nextId = wrap 32 (registrations s steps).length
  handle : ∀ (i : ℕ) (x : ℕ × κ), (registrations s steps)[i]? = some x →
    ∃ r : RegistrationHandle, w.handles[x.1]? = some r ∧
      r.state = (if cancelled steps x.1 then none else some s) ∧ r.id = wrap 32 i
  callbacks : (registrations s steps).length < 2^31 →
    state.callbacks = entries (cancelled steps) (registrations s steps)

/-- About all states and handles. -/
structure Recorded (w : World κ) (steps : List (World κ × Act κ)) : Prop where
  live : ∀ s state, w.lock s = some state → Registered w steps s state
  refers : ∀ (h : ℕ) (r : RegistrationHandle) (s : ℕ), w.handles[h]? = some r → r.state = some s →
    ∃ (i : ℕ) (callback : κ), (registrations s steps)[i]? = some (h,callback)
  single : ∀ (s s' i i' : ℕ) (x x' : ℕ × κ), (registrations s steps)[i]? = some x →
    (registrations s' steps)[i']? = some x' → x.1 = x'.1 → s = s' ∧ i = i'
  issued : ∀ s, ∀ x ∈ registrations s steps, x.1 < w.handles.length
  uncancelled : ∀ h, w.handles.length ≤ h → cancelled steps h = false
  unborn : ∀ s, w.states.length ≤ s → registrations s steps = []

theorem init_recorded : Recorded (World.init : World κ) [] :=
  ⟨by simp [World.lock,World.init],by simp [World.init],by simp [registrations],
    by simp [registrations],fun _ _ => rfl,fun _ _ => rfl⟩

section
variable {steps steps' : List (World κ × Act κ)}

theorem registrations_cancel (s h : ℕ) :
    registrations s (steps ++ [(w,.cancel h)]) = registrations s steps := by
  rw [registrations_concat]
  exact List.append_nil _

/-- A state whose registrations are the same, with the same handles, as many of them cancelled. -/
theorem Registered.congr {s : ℕ} {state : State κ} (hr : Registered w steps s state)
    (hregs : registrations s steps' = registrations s steps)
    (hhandles : ∀ x ∈ registrations s steps, ∀ r, w.handles[x.1]? = some r →
      w'.handles[x.1]? = some r)
    (hcans : ∀ x ∈ registrations s steps, cancelled steps' x.1 = cancelled steps x.1) :
    Registered w' steps' s state := by
  refine ⟨hregs ▸ hr.nextId,fun i x hx => ?_,fun hb => ?_⟩
  · rw [hregs] at hx
    have hmem := List.mem_of_getElem? hx
    obtain ⟨r,hi,hrest⟩ := hr.handle i x hx
    rw [hcans x hmem]
    exact ⟨r,hhandles x hmem r hi,hrest⟩
  · rw [hregs] at hb ⊢
    rw [hr.callbacks hb,entries_congr hcans]

/-- A step without a registration. -/
theorem Recorded.congr (hr : Recorded w steps)
    (hregs : ∀ s, registrations s steps' = registrations s steps)
    (hlive : ∀ s state, w'.lock s = some state → Registered w' steps' s state)
    (hrefers : ∀ (h : ℕ) (r : RegistrationHandle) (s : ℕ), w'.handles[h]? = some r →
      r.state = some s → w.handles[h]? = some r)
    (hlen : w'.handles.length = w.handles.length)
    (hcans : ∀ h, w.handles.length ≤ h → cancelled steps' h = cancelled steps h)
    (hstates : w.states.length ≤ w'.states.length) : Recorded w' steps' where
  live := hlive
  refers h r s hi hx := by
    rw [hregs]
    exact hr.refers h r s (hrefers h r s hi hx) hx
  single s s' i i' x x' hi hi' := by
    rw [hregs] at hi hi'
    exact hr.single s s' i i' x x' hi hi'
  issued s x hx := hlen ▸ hr.issued s x (hregs s ▸ hx)
  uncancelled h hle := by
    rw [hlen] at hle
    rw [hcans h hle,hr.uncancelled h hle]
  unborn s hle := (hregs s).trans (hr.unborn s (hstates.trans hle))

end

namespace Recorded
variable {steps : List (World κ × Act κ)}

/-- A step that registers and cancels nothing leaves the handles and the states as they are, but
for new states and those it destroys. -/
theorem quiet (hr : Recorded w steps) (hreg : ∀ s, w.registration? s a = none)
    (hcan : ∀ h, a.cancels h = false) (hh : w'.handles = w.handles)
    (hlen : w.states.length ≤ w'.states.length)
    (hlive : ∀ s state, w'.lock s = some state →
      w.lock s = some state ∨ w.states.length ≤ s ∧ state = .empty) :
    Recorded w' (steps ++ [(w,a)]) := by
  have hregs (s : ℕ) : registrations s (steps ++ [(w,a)]) = registrations s steps := by
    rw [registrations_concat,hreg,Option.toList_none,List.append_nil]
  have hcans (h : ℕ) : cancelled (steps ++ [(w,a)]) h = cancelled steps h := by
    rw [cancelled_concat,hcan,Bool.or_false]
  refine hr.congr hregs (fun s state hs => ?_) (fun _ _ _ hi _ => hh ▸ hi) (congrArg _ hh)
    (fun h _ => hcans h) hlen
  rcases hlive s state hs with hs | ⟨hle,rfl⟩
  · exact (hr.live s state hs).congr (hregs s) (fun _ _ _ hi => hh ▸ hi) fun x _ => hcans x.1
  · have hnone := (hregs s).trans (hr.unborn s hle)
    refine ⟨?_,fun i x hx => ?_,fun _ => ?_⟩
    · rw [hnone]
      exact (wrap_zero 32).symm
    · simp [hnone] at hx
    · rw [hnone]
      rfl

/-- A new registration gets the next id and goes to the end of its state. -/
theorem register (hr : Recorded w steps) {d s : ℕ} {callback : κ} {state : State κ}
    (ho : w.Owns d s) (hs : w.lock s = some state) :
    Recorded ({ w.setState s (register state callback).1 with
        handles := w.handles ++ [⟨some s,(EventDispatcher.register state callback).2⟩] } : World κ)
      (steps ++ [(w,.register d callback)]) := by
  obtain ⟨hnext,hhandle,hcallbacks⟩ := hr.live s state hs
  have hcans : cancelled (steps ++ [(w,.register d callback)]) = cancelled steps := by
    funext h
    rw [cancelled_concat]
    exact Bool.or_false _
  have hregs (t : ℕ) : registrations t (steps ++ [(w,.register d callback)]) =
      if s = t then registrations t steps ++ [(w.handles.length,callback)]
      else registrations t steps := by
    obtain ⟨x,hd,hx⟩ := ho
    rw [registrations_concat,World.registration?,hd,Option.bind_some,hx]
    by_cases ht : s = t <;> simp [ht]
  have hself : registrations s (steps ++ [(w,.register d callback)]) =
      registrations s steps ++ [(w.handles.length,callback)] := (hregs s).trans (if_pos rfl)
  have hfresh := hr.uncancelled w.handles.length le_rfl
  -- a registration is the new one or an old one
  have hold {t i : ℕ} {x : ℕ × κ}
      (hi : (registrations t (steps ++ [(w,.register d callback)]))[i]? = some x) :
      (t = s ∧ i = (registrations s steps).length ∧ x = (w.handles.length,callback)) ∨
        (registrations t steps)[i]? = some x := by
    rw [hregs] at hi
    by_cases ht : s = t
    · subst t
      rw [if_pos rfl] at hi
      exact (getElem?_concat_cases hi).imp_left fun h => ⟨rfl,h⟩
    · rw [if_neg ht] at hi
      exact .inr hi
  have hlt {t i : ℕ} {x : ℕ × κ} (hi : (registrations t steps)[i]? = some x) :
      x.1 < w.handles.length := hr.issued t x (List.mem_of_getElem? hi)
  refine ⟨fun t state' ht => ?_,fun h r t hi hx => ?_,fun t t' i i' x x' hi hi' hxx => ?_,
    fun t x hx => ?_,fun h hle => ?_,fun t hle => ?_⟩
  · replace ht : (w.setState s (EventDispatcher.register state callback).1).lock t = some state' :=
      ht
    rw [World.lock_setState hs] at ht
    by_cases hts : t = s
    · subst t
      rw [if_pos rfl] at ht
      obtain rfl := Option.some.inj ht
      refine ⟨?_,fun i x hx => ?_,fun hb => ?_⟩
      · show wrap 32 (state.nextId+1) = _
        rw [hself,hnext,wrap_add_wrap,List.length_append,List.length_singleton]
        rfl
      · rw [hcans]
        rcases hold hx with ⟨-,rfl,rfl⟩ | hx
        · exact ⟨_,List.getElem?_concat_length,by rw [hfresh]; rfl,hnext⟩
        · obtain ⟨r,hi,hrest⟩ := hhandle i x hx
          exact ⟨r,getElem?_concat_of_some hi,hrest⟩
      · rw [hself,List.length_append,List.length_singleton] at hb
        have hid : state.nextId = (registrations s steps).length := by
          rw [hnext,wrap_natCast (by omega)]
        show emplace _ _ _ = _
        rw [hself,hcans,entries_concat hfresh,hcallbacks (by omega),hid]
        exact emplace_of_lt fun x hx => lt_of_mem_entries hx
    · rw [if_neg hts] at ht
      exact (hr.live t state' ht).congr ((hregs t).trans (if_neg (Ne.symm hts)))
        (fun _ _ _ hi => getElem?_concat_of_some hi) fun _ _ => congrFun hcans _
  · rcases getElem?_concat_cases hi with ⟨rfl,rfl⟩ | hi
    · obtain rfl := Option.some.inj hx
      exact ⟨_,callback,hself ▸ List.getElem?_concat_length⟩
    · obtain ⟨i,callback',hi⟩ := hr.refers h r t hi hx
      refine ⟨i,callback',?_⟩
      rw [hregs]
      split
      · exact getElem?_concat_of_some hi
      · exact hi
  · rcases hold hi with ⟨rfl,rfl,rfl⟩ | hi <;> rcases hold hi' with ⟨rfl,rfl,rfl⟩ | hi'
    · exact ⟨rfl,rfl⟩
    · exact absurd hxx (hlt hi').ne'
    · exact absurd hxx (hlt hi).ne
    · exact hr.single t t' i i' x x' hi hi' hxx
  · obtain ⟨i,hi⟩ := List.mem_iff_getElem?.mp hx
    rw [List.length_append,List.length_singleton]
    rcases hold hi with ⟨-,-,rfl⟩ | hi
    · exact Nat.lt_succ_self _
    · exact Nat.lt_succ_of_lt (hlt hi)
  · rw [List.length_append] at hle
    rw [hcans]
    exact hr.uncancelled h (by omega)
  · have hlen : (w.states.set s (some (EventDispatcher.register state callback).1)).length ≤ t :=
      hle
    rw [List.length_set] at hlen
    have hslt := (List.getElem?_eq_some_iff.mp (World.lock_eq_some.mp hs)).1
    rw [hregs,if_neg (by omega)]
    exact hr.unborn t hlen

/-- The registration that a `Cancel` is about. -/
theorem cancels_iff (hr : Recorded w steps) {h s : ℕ} {r : RegistrationHandle} {state : State κ}
    (hh : w.handles[h]? = some r) (hrs : r.state = some s) (hs : w.lock s = some state)
    (hb : (registrations s steps).length < 2^31) (i : ℕ) (x : ℕ × κ)
    (hx : (registrations s steps)[i]? = some x) : h = x.1 ↔ (i : ℤ) = r.id := by
  have hwrap {i : ℕ} {x : ℕ × κ} (hx : (registrations s steps)[i]? = some x) :
      wrap 32 i = (i : ℤ) := by
    have := (List.getElem?_eq_some_iff.mp hx).1
    exact wrap_natCast (by omega)
  have hid {i : ℕ} {x : ℕ × κ} (hx : (registrations s steps)[i]? = some x) (he : h = x.1) :
      r.id = (i : ℤ) := by
    obtain ⟨r',hi,-,hid⟩ := (hr.live s state hs).handle i x hx
    obtain rfl := Option.some.inj (hh.symm.trans (he ▸ hi))
    rw [hid,hwrap hx]
  constructor
  · exact fun he => (hid hx he).symm
  · intro hi
    obtain ⟨n,callback,hn⟩ := hr.refers h r s hh hrs
    have hn' := hid hn rfl
    obtain rfl : i = n := by
      rw [hn'] at hi
      exact_mod_cast hi
    exact congrArg Prod.fst (Option.some.inj (hn.symm.trans hx))

/-- A `Cancel` that reaches its state. -/
theorem cancel (hr : Recorded w steps) {h s : ℕ} {r : RegistrationHandle} {state : State κ}
    (hh : w.handles[h]? = some r) (hrs : r.state = some s) (hs : w.lock s = some state) :
    Recorded ({ w.setState s (erase state r.id) with
        handles := w.handles.set h { r with state := none } } : World κ)
      (steps ++ [(w,.cancel h)]) := by
  have hcans (i : ℕ) : cancelled (steps ++ [(w,.cancel h)]) i = (cancelled steps i || h == i) :=
    cancelled_concat steps i
  have hkeep {i : ℕ} (hi : h ≠ i) :
      cancelled (steps ++ [(w,.cancel h)]) i = cancelled steps i := by
    rw [hcans,beq_false_of_ne hi,Bool.or_false]
  obtain ⟨n,callback,hn⟩ := hr.refers h r s hh hrs
  have hhlt : h < w.handles.length := (List.getElem?_eq_some_iff.mp hh).1
  refine hr.congr (registrations_cancel · h) (fun t state' ht => ?_) (fun h' r' t hi hx => ?_)
    List.length_set (fun i hle => hkeep (by omega)) List.length_set.ge
  · replace ht : (w.setState s (erase state r.id)).lock t = some state' := ht
    rw [World.lock_setState hs] at ht
    by_cases hts : t = s
    · subst t
      rw [if_pos rfl] at ht
      obtain rfl := Option.some.inj ht
      obtain ⟨hnext,hhandle,hcallbacks⟩ := hr.live s state hs
      refine ⟨by rw [registrations_cancel]; exact hnext,fun i x hx => ?_,fun hb => ?_⟩
      · rw [registrations_cancel] at hx
        obtain ⟨r',hi,hstate,hid⟩ := hhandle i x hx
        by_cases hhx : h = x.1
        · obtain rfl := Option.some.inj (hh.symm.trans (hhx ▸ hi))
          rw [hcans]
          exact ⟨⟨none,r.id⟩,hhx ▸ getElem?_set_self hh,by simp [hhx],hid⟩
        · rw [hkeep hhx]
          exact ⟨r',(List.getElem?_set_ne hhx).trans hi,hstate,hid⟩
      · rw [registrations_cancel] at hb ⊢
        rw [entries_cancel r.id (fun x _ => hcans x.1) (hr.cancels_iff hh hrs hs hb),
          ← hcallbacks hb]
        rfl
    · rw [if_neg hts] at ht
      -- the handle is not of a registration on another state
      have hne {x : ℕ × κ} (hx : x ∈ registrations t steps) : h ≠ x.1 := by
        obtain ⟨i,hi⟩ := List.mem_iff_getElem?.mp hx
        exact fun he => hts (hr.single t s i n x (h,callback) hi hn he.symm).1
      exact (hr.live t state' ht).congr (registrations_cancel t h)
        (fun x hx _ hi => (List.getElem?_set_ne (hne hx)).trans hi) fun x hx => hkeep (hne hx)
  · rcases getElem?_set_cases hi with ⟨-,rfl⟩ | ⟨-,hi⟩
    · simp at hx
    · exact hi

/-- A `Cancel` that finds no state: it was called before, or its state is destroyed. -/
theorem cancelNothing (hr : Recorded w steps) {h : ℕ} {r : RegistrationHandle}
    (hh : w.handles[h]? = some r) (hs : ∀ s, r.state = some s → w.lock s = none) :
    Recorded w (steps ++ [(w,.cancel h)]) := by
  have hkeep {i : ℕ} (hi : h = i → cancelled steps i = true) :
      cancelled (steps ++ [(w,.cancel h)]) i = cancelled steps i := by
    rw [cancelled_concat]
    by_cases hhi : h = i
    · rw [hi hhi,Bool.true_or]
    · simp [Act.cancels,hhi]
  have hhlt : h < w.handles.length := (List.getElem?_eq_some_iff.mp hh).1
  refine hr.congr (registrations_cancel · h) (fun t state ht => ?_) (fun _ _ _ hi _ => hi) rfl
    (fun i hle => hkeep fun hi => absurd hle (by omega)) le_rfl
  refine (hr.live t state ht).congr (registrations_cancel t h) (fun _ _ _ hi => hi) fun x hx =>
    hkeep fun hhx => ?_
  -- the handle of a registration on a state that exists refers to it until it is cancelled
  obtain ⟨i,hi⟩ := List.mem_iff_getElem?.mp hx
  obtain ⟨r',hi',hstate,-⟩ := (hr.live t state ht).handle i x hi
  obtain rfl := Option.some.inj (hh.symm.trans (hhx ▸ hi'))
  by_contra hcancelled
  have hnone := hs t (by rw [hstate,if_neg hcancelled])
  simp [hnone] at ht

theorem step (hr : Recorded w steps) (h : w.Step a w') : Recorded w' (steps ++ [(w,a)]) := by
  cases h with
  | construct =>
    refine hr.quiet (fun _ => rfl) (fun _ => rfl) rfl ?_ fun s state hs => ?_
    · exact List.length_append ▸ Nat.le_add_right _ _
    · rcases getElem?_concat_cases (World.lock_eq_some.mp hs) with ⟨rfl,hempty⟩ | hs
      · exact .inr ⟨le_rfl,Option.some.inj hempty⟩
      · exact .inl (World.lock_eq_some.mpr hs)
  | register ho hs => exact hr.register ho hs
  | cancel hh hrs hs => exact hr.cancel hh hrs hs
  | cancelNothing hh hs => exact hr.cancelNothing hh hs
  | @moves _ dispatchers dropped hreg hcan =>
    have hlen := World.length_states_release (w:={ w with dispatchers }) dropped
    refine hr.quiet hreg hcan (World.handles_release _) hlen.ge fun s state hs => .inl ?_
    rw [World.lock_release] at hs
    exact (Option.ite_none_left_eq_some.mp hs).2

end Recorded

theorem run_recorded {steps : List (World κ × Act κ)} (h : Run step World.init steps w) :
    w.Owned ∧ Recorded w steps := by
  induction h with
  | refl => exact ⟨World.init_owned,init_recorded⟩
  | next before hs ih => exact ⟨(step_cases hs).owned ih.1,ih.2.step (step_cases hs)⟩

/-! ## The runs -/

section
variable {steps : List (World κ × Act κ)}

/-- What a dispatcher holds while the ids of its state have not run out. -/
theorem Recorded.callbacks_eq (hr : Recorded w steps) (ho : w.Owned) {d s : ℕ} (hd : w.Owns d s)
    (hb : (registrations s steps).length < 2^31) :
    w.callbacks d = some ((held s steps).map Prod.snd) := by
  obtain ⟨state,hs⟩ := ho.exists_lock hd
  rw [World.callbacks_of_owns hd hs,snapshot,(hr.live s state hs).callbacks hb,entries_map_snd]
  rfl

/-- One registration fewer is held. -/
theorem held_cancel (s h : ℕ) :
    held s (steps ++ [(w,.cancel h)]) = (held s steps).filter fun x => x.1 ≠ h := by
  rw [held,held,registrations_cancel,List.filter_filter]
  refine List.filter_congr fun x _ => ?_
  rw [cancelled_concat]
  by_cases hx : x.1 = h
  · simp [Act.cancels,hx]
  · simp [Act.cancels,hx,Ne.symm hx]

/-- A `Cancel` that changes something is the first one on its handle, and its state exists. -/
theorem Recorded.cancel_effective (hr : Recorded w steps) (ho : w.Owned) {h s : ℕ}
    {r : RegistrationHandle} {state : State κ} (hh : w.handles[h]? = some r)
    (hrs : r.state = some s) (hs : w.lock s = some state) : cancelled steps h = false ∧
      ∀ t callback, (h,callback) ∈ registrations t steps → ∃ d, w.Owns d t := by
  obtain ⟨i,callback,hi⟩ := hr.refers h r s hh hrs
  constructor
  · obtain ⟨r',hh',hstate,-⟩ := (hr.live s state hs).handle i _ hi
    obtain rfl := Option.some.inj (hh.symm.trans hh')
    by_contra hcancelled
    rw [if_pos (by simpa using hcancelled),hrs] at hstate
    contradiction
  · intro t callback' ht
    obtain ⟨n,hn⟩ := List.mem_iff_getElem?.mp ht
    obtain ⟨rfl,-⟩ := hr.single s t i n _ _ hi hn rfl
    exact ho.exists_owner hs

end

/-- In every run in which no state has `2^31` registrations, dispatchers hold what is not cancelled,
and `Cancel` takes away the callback of its handle once. -/
theorem cancels_own (e : Execution step (World.init : World κ))
    (hfew : ∀ s, (registrations s e.steps).length < 2^31) : CancelsOwn e := by
  have hbound {before : List (World κ × Act κ)} (hp : before <+: e.steps) (s : ℕ) :
      (registrations s before).length < 2^31 :=
    ((hp.filterMap _).length_le).trans_lt (hfew s)
  refine ⟨fun before w hp hrun d s hd => ?_,(run_recorded e.run).2.single,?_,?_,?_⟩
  · obtain ⟨ho,hr⟩ := run_recorded hrun
    exact hr.callbacks_eq ho hd (hbound hp s)
  · refine e.forall_visited fun steps w _ hrun d d' s => ?_
    exact (run_recorded hrun).1.owner_unique
  · rintro before ⟨w,a⟩ after h w' he rfl hstep d s hd
    have hrun := (e.run_before he).next hstep
    obtain ⟨ho,hr⟩ := run_recorded hrun
    have hd' : w'.Owns d s := by
      cases step_cases hstep with
      | cancel | cancelNothing => exact hd
      | moves _ hcan => simpa [Act.cancels] using hcan h
    have hp : before ++ [(w,.cancel h)] <+: e.steps := ⟨after,by simp [he]⟩
    refine ⟨hd',?_⟩
    rw [hr.callbacks_eq ho hd' (hbound hp s),held_cancel]
  · rintro before ⟨w,a⟩ after h w' he rfl hstep hnoop d
    obtain ⟨ho,hr⟩ := run_recorded (e.run_before he)
    cases step_cases hstep with
    | cancel hh hrs hs =>
      obtain ⟨hfirst,hexists⟩ := hr.cancel_effective ho hh hrs hs
      rcases hnoop with hcancelled | ⟨t,callback,ht,hn⟩
      · simp [hfirst] at hcancelled
      · obtain ⟨d',hd'⟩ := hexists t callback ht
        exact absurd hd' (hn d')
    | cancelNothing => rfl
    | moves _ hcan => simpa [Act.cancels] using hcan h

/-- Two dispatchers: the second one is overwritten by the first, and a handle of each is
cancelled. -/
def overwritten : Execution step (World.init : World ℕ) :=
  .ofLabels [.construct,.construct,.register 0 5,.register 1 6,.register 0 7,.moveAssign 1 0,
    .cancel 0,.cancel 1,.cancel 0,.destroy 0,.destroy 1] (by decide)

theorem overwritten_cancels_own : CancelsOwn overwritten := by
  refine cancels_own overwritten fun s => lt_of_le_of_lt (List.length_filterMap_le _ _) ?_
  decide

end Blush.EventDispatcher
