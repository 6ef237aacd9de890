import Blush.Lib.Ledger
import Blush.Lib.Progress
import Blush.Connections.Step

/-! A delivery calls the handlers that were registered when it began, whatever they register,
cancel or deliver meanwhile. -/
namespace Blush.Connections
open Face MachineInt Slots Transition
variable {η π μ : Type} {w w' : World η π μ} {a : Act η π μ}

/-! ## The registrations of a connection -/

/-- The registration that a step makes on the connection number `k`, with its handle. -/
def World.registration? (w : World η π μ) (k : ℕ) : Act η π μ → Option (ℕ × Callback η π)
  | .registerHandler j callback _ => if j = k then some (w.handles.length,callback) else none
  | _ => none

/-- The call is a `Cancel` on the handle number `h`. -/
def Act.cancels (a : Act η π μ) (h : ℕ) : Bool :=
  match a with
  | .cancel i _ => i == h
  | _ => false

/-- The registrations made on a connection in a run. -/
def registrations (k : ℕ) (steps : List (World η π μ × Act η π μ)) : List (ℕ × Callback η π) :=
  steps.filterMap fun p => p.1.registration? k p.2

/-- `Cancel` was called on a handle in a run. -/
def cancelled (steps : List (World η π μ × Act η π μ)) (h : ℕ) : Bool :=
  steps.any fun p => p.2.cancels h

/-- The callbacks registered on a connection in a run and not cancelled, in the order of their
registration. -/
def registered (k : ℕ) (steps : List (World η π μ × Act η π μ)) : List (Callback η π) :=
  ((registrations k steps).filter fun x => !cancelled steps x.1).map Prod.snd

theorem registrations_concat (k : ℕ) (steps : List (World η π μ × Act η π μ)) :
    registrations k (steps ++ [(w,a)]) = registrations k steps ++ (w.registration? k a).toList := by
  simp [registrations,filterMap_cons_toList]

theorem cancelled_concat (steps : List (World η π μ × Act η π μ)) (h : ℕ) :
    cancelled (steps ++ [(w,a)]) h = (cancelled steps h || a.cancels h) := by
  simp [cancelled]

/-- The entries of the dispatcher for these registrations: the ids are their places. -/
def entries (steps : List (World η π μ × Act η π μ)) (l : List (ℕ × Callback η π)) :
    List (ℤ × Callback η π) :=
  (l.zipIdx.filter fun x => !cancelled steps x.1.1).map fun x => ((x.2 : ℤ),x.1.2)

theorem entries_map_snd (steps : List (World η π μ × Act η π μ)) (l : List (ℕ × Callback η π)) :
    (entries steps l).map Prod.snd = (l.filter fun x => !cancelled steps x.1).map Prod.snd :=
  Ledger.entries_map_snd _ _

theorem entries_concat {steps : List (World η π μ × Act η π μ)} {l : List (ℕ × Callback η π)}
    {x : ℕ × Callback η π} (hx : cancelled steps x.1 = false) :
    entries steps (l ++ [x]) = entries steps l ++ [((l.length : ℤ),x.2)] :=
  Ledger.entries_concat hx

/-- The ids are below the number of registrations. -/
theorem lt_of_mem_entries {steps : List (World η π μ × Act η π μ)} {l : List (ℕ × Callback η π)}
    {x : ℤ × Callback η π} (hx : x ∈ entries steps l) : x.1 < l.length :=
  Ledger.lt_of_mem_entries hx

theorem entries_congr {steps steps' : List (World η π μ × Act η π μ)}
    {l : List (ℕ × Callback η π)}
    (h : ∀ x ∈ l, cancelled steps' x.1 = cancelled steps x.1) :
    entries steps' l = entries steps l := Ledger.entries_congr h

/-- The `Cancel` of one registration erases its id. -/
theorem entries_cancel {steps steps' : List (World η π μ × Act η π μ)}
    {l : List (ℕ × Callback η π)} {h : ℕ} (id : ℤ)
    (hc : ∀ x ∈ l, cancelled steps' x.1 = (cancelled steps x.1 || h == x.1))
    (hid : ∀ (i : ℕ) (x : ℕ × Callback η π), l[i]? = some x → (h = x.1 ↔ (i : ℤ) = id)) :
    entries steps' l = (entries steps l).filter fun x => x.1 ≠ id := Ledger.entries_cancel id hc hid

/-- What a run establishes about the dispatcher and the handles of a connection. -/
structure Registered (w : World η π μ) (steps : List (World η π μ × Act η π μ)) (k : ℕ)
    (c : Connection η π) : Prop where
  nextId : c.dispatcher.nextId = wrap 32 (registrations k steps).length
  handle : ∀ (i : ℕ) (x : ℕ × Callback η π), (registrations k steps)[i]? = some x →
    ∃ r : HandlerRegistration, w.handles[x.1]? = some r ∧ r.owner = k ∧
      r.inner.id = wrap 32 i ∧ r.cancelled = cancelled steps x.1
  owned : ∀ (h : ℕ) (r : HandlerRegistration), w.handles[h]? = some r → r.owner = k →
    ∃ (i : ℕ) (callback : Callback η π), (registrations k steps)[i]? = some (h,callback)
  callbacks : (registrations k steps).length < 2^31 →
    c.dispatcher.callbacks = entries steps (registrations k steps)

/-- What a run establishes about all connections. -/
structure Recorded (w : World η π μ) (steps : List (World η π μ × Act η π μ)) : Prop where
  live : ∀ k c, w.live? k = some c → Registered w steps k c
  issued : ∀ h, w.handles.length ≤ h → cancelled steps h = false
  unborn : ∀ k, w.connections.length ≤ k → registrations k steps = []

theorem init_recorded : Recorded (World.init : World η π μ) [] :=
  ⟨by simp [World.live?,World.init],fun _ _ => rfl,fun _ _ => rfl⟩

/-- A connection whose registrations are the same, with the same handles. -/
theorem Registered.congr {steps steps' : List (World η π μ × Act η π μ)} {k : ℕ}
    {c c' : Connection η π} (h : Registered w steps k c) (hd : c'.dispatcher = c.dispatcher)
    (hregs : registrations k steps' = registrations k steps)
    (hcans : cancelled steps' = cancelled steps)
    (hhandles : ∀ (i : ℕ) (r : HandlerRegistration), w.handles[i]? = some r →
      w'.handles[i]? = some r)
    (howned : ∀ (i : ℕ) (r : HandlerRegistration), w'.handles[i]? = some r → r.owner = k →
      w.handles[i]? = some r) : Registered w' steps' k c' where
  nextId := by
    rw [hd,hregs]
    exact h.nextId
  handle i x hx := by
    obtain ⟨r,hi,hrest⟩ := h.handle i x (hregs ▸ hx)
    rw [hcans]
    exact ⟨r,hhandles x.1 r hi,hrest⟩
  owned i r hi hk := by
    rw [hregs]
    exact h.owned i r (howned i r hi hk) hk
  callbacks := by
    rw [hd,hregs,entries_congr fun x _ => congrFun hcans x.1]
    exact h.callbacks

namespace Recorded
variable {steps : List (World η π μ × Act η π μ)}

/-- A step that makes no registration, cancels nothing and changes no dispatcher. -/
theorem quiet (hr : Recorded w steps) (hreg : ∀ k, w.registration? k a = none)
    (hcan : ∀ h, a.cancels h = false) (hh : w'.handles = w.handles)
    (hlen : w.connections.length ≤ w'.connections.length)
    (hlive : ∀ k c, w'.live? k = some c → (∃ c', w.live? k = some c' ∧
      c.dispatcher = c'.dispatcher) ∨ w.connections.length ≤ k ∧ c.dispatcher = .empty ∧
        ∀ r ∈ w.handles, r.owner ≠ k) :
    Recorded w' (steps ++ [(w,a)]) := by
  have hregs : ∀ k, registrations k (steps ++ [(w,a)]) = registrations k steps := by
    intro k
    rw [registrations_concat,hreg,Option.toList_none,List.append_nil]
  have hcans : cancelled (steps ++ [(w,a)]) = cancelled steps := by
    funext h
    rw [cancelled_concat,hcan,Bool.or_false]
  refine ⟨fun k c hc => ?_,fun h hle => ?_,fun k hle => ?_⟩
  · rcases hlive k c hc with ⟨c',hc',hd⟩ | ⟨hle,hd,ho⟩
    · exact (hr.live k c' hc').congr hd (hregs k) hcans (fun _ _ hi => hh ▸ hi)
        fun _ _ hi _ => hh ▸ hi
    · have hnone := hr.unborn k hle
      refine ⟨?_,?_,?_,?_⟩
      · rw [hregs,hnone,hd]
        simp [EventDispatcher.State.empty]
      · intro i x hx
        simp [hregs,hnone] at hx
      · intro i r hi hk
        exact absurd hk (ho r (List.mem_of_getElem? (hh ▸ hi)))
      · intro _
        rw [hregs,hnone,hd]
        rfl
  · rw [hcans]
    exact hr.issued h (hh ▸ hle)
  · rw [hregs]
    exact hr.unborn k (hlen.trans hle)

/-- A new registration gets the next id and goes to the end of the dispatcher. -/
theorem registerHandler (hr : Recorded w steps) {j : ℕ} {c : Connection η π}
    {callback : Callback η π} {accepted : Bool} (hc : w.live? j = some c) :
    Recorded ({ w.setConnection j
        (c.registerHandler j w.handles.length callback accepted).1 with
      handles := w.handles ++ [(c.registerHandler j w.handles.length callback accepted).2] } :
        World η π μ) (steps ++ [(w,.registerHandler j callback accepted)]) := by
  have hcans : cancelled (steps ++ [(w,.registerHandler j callback accepted)]) =
      cancelled steps := by
    funext h
    rw [cancelled_concat]
    exact Bool.or_false _
  have hself : registrations j (steps ++ [(w,.registerHandler j callback accepted)]) =
      registrations j steps ++ [(w.handles.length,callback)] := by
    rw [registrations_concat,World.registration?,if_pos rfl]
    rfl
  have hne : ∀ k, k ≠ j → registrations k (steps ++ [(w,.registerHandler j callback accepted)]) =
      registrations k steps := by
    intro k hk
    rw [registrations_concat,World.registration?,if_neg (Ne.symm hk)]
    exact List.append_nil _
  have hj : j < w.connections.length :=
    (List.getElem?_eq_some_iff.mp (World.live?_eq_some.mp hc).1).1
  refine ⟨fun k c' hc' => ?_,fun h hle => ?_,fun k hle => ?_⟩
  · obtain ⟨hk,ha⟩ := World.live?_eq_some.mp hc'
    rcases getElem?_set_cases hk with ⟨rfl,rfl⟩ | ⟨hkj,hk⟩
    · have h := hr.live k c hc
      refine ⟨?_,?_,?_,?_⟩
      · show wrap 32 (c.dispatcher.nextId+1) = _
        rw [hself,h.nextId,wrap_add_wrap,List.length_append,List.length_singleton]
        rfl
      · intro i x hx
        rw [hself] at hx
        rw [hcans]
        rcases getElem?_concat_cases hx with ⟨rfl,rfl⟩ | hx
        · exact ⟨_,List.getElem?_concat_length,rfl,h.nextId,(hr.issued _ le_rfl).symm⟩
        · obtain ⟨r,hh,ho⟩ := h.handle i x hx
          exact ⟨r,getElem?_concat_of_some hh,ho⟩
      · intro i r hi hk
        rw [hself]
        rcases getElem?_concat_cases hi with ⟨rfl,rfl⟩ | hi
        · exact ⟨_,_,List.getElem?_concat_length⟩
        · obtain ⟨n,cb,hn⟩ := h.owned i r hi hk
          exact ⟨n,cb,getElem?_concat_of_some hn⟩
      · intro hb
        rw [hself,List.length_append,List.length_singleton] at hb
        have hid : c.dispatcher.nextId = (registrations k steps).length := by
          rw [h.nextId,wrap_natCast (by omega)]
        show EventDispatcher.emplace _ _ _ = _
        rw [hself,entries_concat ((congrFun hcans _).trans (hr.issued _ le_rfl)),
          entries_congr fun x _ => congrFun hcans x.1,h.callbacks (by omega),hid]
        exact EventDispatcher.emplace_of_lt fun x hx => lt_of_mem_entries hx
    · have hlive := World.live?_eq_some.mpr ⟨hk,ha⟩
      refine (hr.live k c' hlive).congr rfl (hne k hkj) hcans
        (fun _ _ hi => getElem?_concat_of_some hi) fun i r hi hk => ?_
      rcases getElem?_concat_cases hi with ⟨-,rfl⟩ | hi
      · exact absurd hk.symm hkj
      · exact hi
  · rw [hcans]
    refine hr.issued h ?_
    rw [List.length_append] at hle
    omega
  · rw [World.length_setConnection] at hle
    rw [hne k (by omega)]
    exact hr.unborn k hle

/-- A `Cancel`, on a connection that exists, on a handle already cancelled, or on another one. -/
theorem cancel (hr : Recorded w steps) {h : ℕ} {r r' : HandlerRegistration} {accepted : Bool}
    (hh : w.handles[h]? = some r) (hlen : w'.connections.length = w.connections.length)
    (hset : w'.handles = w.handles.set h r') (ho' : r'.owner = r.owner)
    (hid' : r'.inner.id = r.inner.id) (hcan' : w.live? r.owner ≠ none → r'.cancelled = true)
    (hlive : ∀ k c, w'.live? k = some c → ∃ c', w.live? k = some c' ∧
      c.dispatcher = if k = r.owner ∧ r.cancelled = false then
        EventDispatcher.erase c'.dispatcher r.inner.id else c'.dispatcher) :
    Recorded w' (steps ++ [(w,.cancel h accepted)]) := by
  have hregs : ∀ k, registrations k (steps ++ [(w,.cancel h accepted)]) =
      registrations k steps := by
    intro k
    rw [registrations_concat]
    exact List.append_nil _
  have hcans : ∀ i, cancelled (steps ++ [(w,.cancel h accepted)]) i =
      (cancelled steps i || h == i) := by
    intro i
    rw [cancelled_concat]
    rfl
  have hlt : h < w.handles.length := (List.getElem?_eq_some_iff.mp hh).1
  refine ⟨fun k c hc => ?_,fun i hle => ?_,fun k hle => ?_⟩
  · obtain ⟨c',hc',hd⟩ := hlive k c hc
    have hk := hr.live k c' hc'
    -- the registration of the cancelled handle, if it is one of this connection
    have hown : ∀ (i : ℕ) (x : ℕ × Callback η π), (registrations k steps)[i]? = some x →
        h = x.1 → k = r.owner ∧ r.inner.id = wrap 32 i ∧ r.cancelled = cancelled steps x.1 := by
      rintro i x hx rfl
      obtain ⟨r',hr',ho,hid,hcan⟩ := hk.handle i x hx
      obtain rfl := Option.some.inj (hh.symm.trans hr')
      exact ⟨ho.symm,hid,hcan⟩
    refine ⟨?_,?_,?_,?_⟩
    · rw [hregs,hd,← hk.nextId]
      split <;> rfl
    · intro i x hx
      rw [hregs] at hx
      rw [hcans]
      by_cases hx1 : h = x.1
      · obtain ⟨ho,hid,-⟩ := hown i x hx hx1
        have hx2 := hcan' (by simp [← ho,hc'])
        exact ⟨r',hset ▸ hx1 ▸ getElem?_set_self hh,ho'.trans ho.symm,hid'.trans hid,
          by simp [hx2,hx1]⟩
      · obtain ⟨r₁,hr₁,ho,hid,hcan⟩ := hk.handle i x hx
        exact ⟨r₁,hset ▸ (List.getElem?_set_ne hx1).trans hr₁,ho,hid,by simp [hcan,hx1]⟩
    · intro i r₁ hi ho
      rw [hregs]
      rcases getElem?_set_cases (hset ▸ hi) with ⟨rfl,rfl⟩ | ⟨-,hi⟩
      · exact hk.owned i r hh (ho'.symm.trans ho)
      · exact hk.owned i r₁ hi ho
    · intro hb
      rw [hregs] at hb ⊢
      have hwrap : ∀ (i : ℕ) x, (registrations k steps)[i]? = some x → wrap 32 i = (i : ℤ) := by
        intro i x hx
        have := (List.getElem?_eq_some_iff.mp hx).1
        exact wrap_natCast (by omega)
      by_cases hcase : k = r.owner ∧ r.cancelled = false
      · rw [hd,if_pos hcase,entries_cancel r.inner.id (fun x _ => hcans x.1),
          ← hk.callbacks hb]
        · rfl
        · intro i x hx
          constructor
          · intro hx1
            rw [(hown i x hx hx1).2.1,hwrap i x hx]
          · intro hid
            obtain ⟨n,cb,hn⟩ := hk.owned h r hh hcase.1.symm
            have hn' := (hown n (h,cb) hn rfl).2.1
            rw [hwrap n _ hn,← hid] at hn'
            obtain rfl : i = n := by exact_mod_cast hn'
            rw [hx] at hn
            exact congrArg Prod.fst (Option.some.inj hn).symm
      · rw [hd,if_neg hcase,hk.callbacks hb]
        refine (entries_congr fun x hx => ?_).symm
        obtain ⟨i,hi⟩ := List.mem_iff_getElem?.mp hx
        rw [hcans]
        by_cases hx1 : h = x.1
        · obtain ⟨ho,-,hcan⟩ := hown i x hi hx1
          have : r.cancelled = true := by
            cases hrc : r.cancelled with
            | true => rfl
            | false => exact absurd ⟨ho,hrc⟩ hcase
          rw [← hcan,this,Bool.true_or]
        · simp [hx1]
  · rw [hset,List.length_set] at hle
    rw [hcans,hr.issued i hle]
    have : h ≠ i := by omega
    simpa using this
  · rw [hregs]
    exact hr.unborn k (hlen ▸ hle)

theorem step (hr : Recorded w steps) (hl : w.Linked) (h : w.Step a w') :
    Recorded w' (steps ++ [(w,a)]) := by
  have hsame {k : ℕ} {c : Connection η π} (hc : w.live? k = some c) : (∃ c', w.live? k = some c' ∧
      c.dispatcher = c'.dispatcher) ∨ w.connections.length ≤ k ∧ c.dispatcher = .empty ∧
        ∀ r ∈ w.handles, r.owner ≠ k := .inl ⟨c,hc,rfl⟩
  have hself {i : ℕ} {r : HandlerRegistration} (hi : w.handles[i]? = some r) :
      w.handles = w.handles.set i r := by
    obtain ⟨hlt,rfl⟩ := List.getElem?_eq_some_iff.mp hi
    exact (List.set_getElem_self hlt).symm
  cases h with
  | create =>
    refine hr.quiet (fun _ => rfl) (fun _ => rfl) rfl (by simp) fun k c hc => ?_
    obtain ⟨hk,ha⟩ := World.live?_eq_some.mp hc
    rcases getElem?_concat_cases hk with ⟨rfl,rfl⟩ | hk
    · exact .inr ⟨le_rfl,rfl,fun r hmem => (hl.owner r hmem).ne⟩
    · exact hsame (World.live?_eq_some.mpr ⟨hk,ha⟩)
  | registerHandler hm hc => exact hr.registerHandler hc
  | cancelled hm hi hx =>
    refine hr.cancel hi rfl (hself hi) rfl rfl (fun _ => hx) fun k c hc => ⟨c,hc,?_⟩
    rw [if_neg (by simp [hx])]
  | @cancel i r c accepted hm hi hx hc =>
    refine hr.cancel hi (World.length_setConnection _ _) rfl rfl rfl (fun _ => rfl)
      fun k c' hc' => ?_
    obtain ⟨hk,ha⟩ := World.live?_eq_some.mp hc'
    rcases getElem?_set_cases hk with ⟨rfl,rfl⟩ | ⟨hne,hk⟩
    · refine ⟨c,hc,?_⟩
      rw [if_pos ⟨rfl,hx⟩]
      rfl
    · refine ⟨c',World.live?_eq_some.mpr ⟨hk,ha⟩,?_⟩
      rw [if_neg fun h => hne h.1]
  | stale hm hi hx hc =>
    refine hr.cancel hi rfl (hself hi) rfl rfl (fun h => absurd hc h) fun k c' hc' => ⟨c',hc',?_⟩
    rw [if_neg]
    rintro ⟨rfl,-⟩
    exact absurd (hc.symm.trans hc') (by simp)
  | @destroy j c accepted hm hf hc =>
    refine hr.quiet (fun _ => rfl) (fun _ => rfl) rfl (World.length_setConnection _ _).ge
      fun k c' hc' => ?_
    obtain ⟨hk,ha⟩ := World.live?_eq_some.mp hc'
    rcases getElem?_set_cases hk with ⟨rfl,rfl⟩ | ⟨-,hk⟩
    · simp at ha
    · exact hsame (World.live?_eq_some.mpr ⟨hk,ha⟩)
  | callbackHandler | returned | call | predicate | handled =>
    exact hr.quiet (fun _ => rfl) (fun _ => rfl) rfl le_rfl fun k c hc => hsame hc

end Recorded

theorem run_recorded {steps : List (World η π μ × Act η π μ)} (h : Run step World.init steps w) :
    Recorded w steps := by
  induction h with
  | refl => exact init_recorded
  | next before hs ih =>
    have hl := run_linked before
    exact ih.step hl (step_cases hl hs).2

/-- While the ids have not wrapped, a dispatcher holds the callbacks registered on its connection
and not cancelled, in the order of their registration. -/
theorem callbacks_eq_registered {steps : List (World η π μ × Act η π μ)}
    (h : Run step World.init steps w) {k : ℕ} {c : Connection η π} (hc : w.live? k = some c)
    (hb : (registrations k steps).length < 2^31) :
    c.dispatcher.callbacks.map Prod.snd = registered k steps := by
  rw [((run_recorded h).live k c hc).callbacks hb,entries_map_snd]
  rfl

/-! ## What a delivery does -/

/-- What the application and the TS see of a call of `Callback_Handler`. -/
inductive Event (η π μ : Type)
  | evaluated (predicate : π) (message : μ) (passes : Bool)
  | called (handler : η) (message : μ)
  | returned (rc : ReturnCode)
  deriving DecidableEq, Repr

/-- The dispatcher goes on, or the application's code returns to it. -/
def Act.proceeds : Act η π μ → Bool
  | .next | .predicate _ | .handled => true
  | _ => false

/-- The predicate that a call evaluates, with the result the step gives it. -/
def Frame.evaluated (f : Frame η π μ) (a : Act η π μ) : List (Event η π μ) :=
  match f.stage, a with
  | .predicate callback, .predicate passes =>
    callback.predicate.toList.map fun p => .evaluated p f.message passes
  | _, _ => []

/-- The handler that a call is in. -/
def Frame.called (f : Frame η π μ) : List (Event η π μ) :=
  match f.stage with
  | .handler callback => [.called callback.handler f.message]
  | _ => []

/-- What a step shows of the innermost call of `Callback_Handler`: the result of its predicate, and
the handler the step has led it into, or what it has reported if the step has ended it. -/
def World.events (w : World η π μ) (a : Act η π μ) (w' : World η π μ) : List (Event η π μ) :=
  match w.frames with
  | [] => []
  | f::frames =>
    if a.proceeds then
      f.evaluated a ++
        if w'.frames.length = frames.length then
          (w'.returned.drop w.returned.length).map .returned
        else w'.frames.head?.toList.flatMap Frame.called
    else []

/-- What the call of `Callback_Handler` that is the `d`-th one in progress shows in a run. -/
def eventsAt (d : ℕ) (steps : List (World η π μ × Act η π μ)) : List (Event η π μ) :=
  (steps.filter fun p => p.1.frames.length = d).flatMap fun p =>
    (step p.1 p.2).elim [] (p.1.events p.2)

/-- What one registration contributes: its predicate is evaluated, if it has one, and its handler
is called when the predicate holds. -/
def outcome (m : μ) (callback : Callback η π) (passes : Bool) : List (Event η π μ) :=
  match callback.predicate with
  | none => [.called callback.handler m]
  | some p => .evaluated p m passes::if passes then [.called callback.handler m] else []

/-- These registrations one after another, with these results of their predicates. -/
def outcomes (m : μ) (callbacks : List (Callback η π)) (results : List Bool) :
    List (Event η π μ) :=
  (callbacks.zip results).flatMap fun x => outcome m x.1 x.2

theorem outcomes_concat {m : μ} {callbacks : List (Callback η π)} {results : List Bool}
    (h : results.length = callbacks.length) (callback : Callback η π) (passes : Bool) :
    outcomes m (callbacks ++ [callback]) (results ++ [passes]) =
      outcomes m callbacks results ++ outcome m callback passes := by
  rw [outcomes,List.zip_append h.symm,List.flatMap_append]
  simp [outcomes]

theorem eventsAt_concat (d : ℕ) (steps : List (World η π μ × Act η π μ))
    (hs : step w a = some w') : eventsAt d (steps ++ [(w,a)]) =
      eventsAt d steps ++ if w.frames.length = d then w.events a w' else [] := by
  by_cases h : w.frames.length = d <;> simp [eventsAt,List.filter_append,h,hs]

/-- The application's own calls show nothing of the call they are made in. -/
theorem World.events_of_call (h : a.proceeds = false) : w.events a w' = [] := by
  unfold events
  split
  · rfl
  · rw [if_neg (by simp [h])]

/-- A step from a stage of a call to another. -/
theorem World.events_of_stage {f f' : Frame η π μ} {frames : List (Frame η π μ)}
    (hf : w.frames = f::frames) (h : a.proceeds = true) (hf' : w'.frames = f'::frames) :
    w.events a w' = f.evaluated a ++ f'.called := by
  simp [events,hf,h,hf']

/-- The registrations of the snapshot that a call has still to go through. -/
def Frame.pending (f : Frame η π μ) : List (Callback η π) :=
  match f.stage with
  | .predicate callback => callback::f.snapshot
  | _ => f.snapshot

/-- A call of `Callback_Handler` with the message `m` that began with `snapshot` has shown `es`. -/
structure Frame.Shown (f : Frame η π μ) (m : μ) (snapshot : List (Callback η π))
    (es : List (Event η π μ)) : Prop where
  message : f.message = m
  predicate : ∀ callback, f.stage = .predicate callback → callback.predicate.isSome = true
  events : ∃ done results, snapshot = done ++ f.pending ∧ results.length = done.length ∧
    es = outcomes m done results

/-- The call went through its snapshot and returned `NO_ERROR`. -/
def Complete (m : μ) (snapshot : List (Callback η π)) (es : List (Event η π μ)) : Prop :=
  ∃ results : List Bool, results.length = snapshot.length ∧
    es = outcomes m snapshot results ++ [.returned .noError]

/-- A step while a call is the innermost one: it goes on, or another delivery begins in it, or it
returns. -/
theorem World.Step.innermost (h : w.Step a w') {f : Frame η π μ} {frames : List (Frame η π μ)}
    (hf : w.frames = f::frames) {m : μ} {snapshot : List (Callback η π)}
    {es : List (Event η π μ)} (hs : f.Shown m snapshot es) :
    (∃ inner f', w'.frames = inner ++ f'::frames ∧ f'.Shown m snapshot (es ++ w.events a w')) ∨
      w'.frames = frames ∧ Complete m snapshot (es ++ w.events a w') := by
  obtain ⟨k,m',rest,stage⟩ := f
  obtain rfl : m' = m := hs.message
  obtain ⟨done,results,hsnap,hlen,hes⟩ := hs.events
  cases h with
  | create | registerHandler | cancelled | cancel | stale | destroy =>
    rw [World.events_of_call rfl,List.append_nil]
    exact .inl ⟨[],_,hf,hs⟩
  | callbackHandler =>
    rw [World.events_of_call rfl,List.append_nil]
    exact .inl ⟨[_],_,congrArg _ hf,hs⟩
  | @returned k' m frames' hf' =>
    obtain ⟨h1,rfl⟩ := List.cons.inj (hf.symm.trans hf')
    obtain ⟨rfl,rfl,rfl,rfl⟩ := Frame.mk.inj h1
    refine .inr ⟨rfl,results,?_,?_⟩
    · rw [hlen,hsnap]
      simp [Frame.pending]
    · rw [hes,hsnap]
      simp [World.events,hf,Frame.pending,Frame.evaluated,Act.proceeds]
  | @call k' m callback rest' frames' hf' =>
    obtain ⟨h1,rfl⟩ := List.cons.inj (hf.symm.trans hf')
    obtain ⟨rfl,rfl,rfl,rfl⟩ := Frame.mk.inj h1
    left
    refine ⟨[],_,rfl,rfl,?_,?_⟩
    · intro cb hcb
      by_cases hp : callback.predicate.isSome = true
      · rw [if_pos hp] at hcb
        obtain rfl := Stage.predicate.inj hcb
        exact hp
      · rw [if_neg hp] at hcb
        simp at hcb
    · by_cases hp : callback.predicate.isSome = true
      · refine ⟨done,results,?_,hlen,?_⟩
        · simpa [Frame.pending,hp] using hsnap
        · rw [World.events_of_stage hf rfl rfl,hes]
          simp [Frame.evaluated,Frame.called,hp]
      · have hnone : callback.predicate = none := by simpa using hp
        refine ⟨done ++ [callback],results ++ [true],?_,by simp [hlen],?_⟩
        · simpa [Frame.pending,hnone] using hsnap
        · rw [World.events_of_stage hf rfl rfl,outcomes_concat hlen,← hes]
          simp [Frame.evaluated,Frame.called,hnone,outcome]
  | @predicate k' m rest' callback frames' passes hf' =>
    obtain ⟨h1,rfl⟩ := List.cons.inj (hf.symm.trans hf')
    obtain ⟨rfl,rfl,rfl,rfl⟩ := Frame.mk.inj h1
    left
    refine ⟨[],_,rfl,rfl,fun cb hcb => ?_,done ++ [callback],results ++ [passes],?_,by simp [hlen],
      ?_⟩
    · cases passes <;> simp at hcb
    · cases passes <;> simpa [Frame.pending] using hsnap
    · obtain ⟨p,hp⟩ := Option.isSome_iff_exists.mp (hs.predicate callback rfl)
      rw [World.events_of_stage hf rfl rfl,outcomes_concat hlen,← hes]
      cases passes <;> simp [Frame.evaluated,Frame.called,hp,outcome]
  | @handled k' m rest' callback frames' hf' =>
    obtain ⟨h1,rfl⟩ := List.cons.inj (hf.symm.trans hf')
    obtain ⟨rfl,rfl,rfl,rfl⟩ := Frame.mk.inj h1
    left
    refine ⟨[],_,rfl,rfl,fun cb hcb => by simp at hcb,done,results,hsnap,hlen,?_⟩
    rw [World.events_of_stage hf rfl rfl,hes]
    simp [Frame.evaluated,Frame.called]

/-- A step while another delivery is in progress inside a call leaves the call as it is. -/
theorem World.Step.inner (h : w.Step a w') {g f : Frame η π μ} {inner frames : List (Frame η π μ)}
    (hf : w.frames = g::inner ++ f::frames) : ∃ inner', w'.frames = inner' ++ f::frames := by
  have htop {g' : Frame η π μ} {rest : List (Frame η π μ)} (hf' : w.frames = g'::rest) :
      rest = inner ++ f::frames := (List.cons.inj (hf'.symm.trans hf)).2
  cases h with
  | create | registerHandler | cancelled | cancel | stale | destroy => exact ⟨_,hf⟩
  | callbackHandler hm hc => exact ⟨_::g::inner,congrArg _ hf⟩
  | returned hf' => exact ⟨inner,htop hf'⟩
  | call hf' | predicate hf' | handled hf' => exact ⟨_::inner,congrArg _ (htop hf')⟩

/-- A call from its begin on, until it returns. -/
theorem shown_of_run {w₁ w₂ : World η π μ} (hl : w₁.Linked) {f : Frame η π μ}
    {frames : List (Frame η π μ)} (hf : w₁.frames = f::frames) {m : μ}
    {snapshot : List (Callback η π)} (hs : f.Shown m snapshot [])
    {during : List (World η π μ × Act η π μ)} (h : Run step w₁ during w₂)
    (hin : ∀ p ∈ during, frames.length < p.1.frames.length) :
    w₂.Linked ∧ ((∃ inner f', w₂.frames = inner ++ f'::frames ∧
        f'.Shown m snapshot (eventsAt (frames.length+1) during)) ∨
      w₂.frames = frames ∧ Complete m snapshot (eventsAt (frames.length+1) during)) := by
  induction h with
  | refl => exact ⟨hl,.inl ⟨[],f,hf,hs⟩⟩
  | @next steps w a w' before hstep ih =>
    obtain ⟨hlw,hcases⟩ := ih fun p hp => hin p (List.mem_append_left _ hp)
    have hlt : frames.length < w.frames.length := hin (w,a) (by simp)
    have hcase := (step_cases hlw hstep).2
    refine ⟨hcase.linked hlw,?_⟩
    rw [eventsAt_concat _ _ hstep]
    rcases hcases with ⟨inner,f',hw,hshown⟩ | ⟨hw,-⟩
    · cases inner with
      | nil =>
        rw [if_pos (by simp [hw])]
        exact hcase.innermost hw hshown
      | cons g inner =>
        obtain ⟨inner',hw'⟩ := hcase.inner hw
        have hne : w.frames.length ≠ frames.length+1 := by
          rw [hw,List.length_append,List.length_cons,List.length_cons]
          omega
        rw [if_neg hne,List.append_nil]
        exact .inl ⟨inner',f',hw',hshown⟩
    · rw [hw] at hlt
      exact absurd hlt (lt_irrefl _)

/-! ## A delivery ends -/

/-- The steps that a call has still to take, at most. -/
def Frame.ahead (f : Frame η π μ) : ℕ :=
  3*f.snapshot.length +
    match f.stage with
    | .dispatch => 1
    | .handler _ => 2
    | .predicate _ => 3

def World.ahead (w : World η π μ) : ℕ := (w.frames.map Frame.ahead).sum

/-- When predicates and handlers make no further calls but return, with whatever results, all calls
of `Callback_Handler` but the `depth` outer ones come to their end. -/
def World.Ends (w : World η π μ) (depth : ℕ) : Prop :=
  Progress.Settles step (fun _ a => a.proceeds = true) (fun _ a => a.proceeds = true)
    (fun w => w.frames.length ≤ depth) w

theorem World.ahead_of_frames {f : Frame η π μ} {frames : List (Frame η π μ)}
    (hf : w.frames = f::frames) : w.ahead = f.ahead+(frames.map Frame.ahead).sum := by
  rw [ahead,hf,List.map_cons,List.sum_cons]

theorem World.Step.ahead_lt (h : w.Step a w') (ha : a.proceeds = true) :
    w'.ahead < w.ahead ∧ w'.fault = w.fault := by
  have hlt {f f' : Frame η π μ} {frames : List (Frame η π μ)} (hf : w.frames = f::frames)
      (hlt : f'.ahead < f.ahead) : (f'.ahead+(frames.map Frame.ahead).sum) < w.ahead := by
    rw [World.ahead_of_frames hf]
    omega
  cases h with
  | create | registerHandler | cancelled | cancel | stale | destroy | callbackHandler =>
    simp [Act.proceeds] at ha
  | @returned k m frames hf =>
    refine ⟨?_,rfl⟩
    rw [World.ahead_of_frames hf]
    simp [World.ahead,Frame.ahead]
  | @call k m callback rest frames hf =>
    refine ⟨hlt hf ?_,rfl⟩
    by_cases hp : callback.predicate.isSome = true
    · simp [Frame.ahead,hp]
      omega
    · simp [Frame.ahead,hp]
      omega
  | @predicate _ _ _ _ _ passes hf =>
    refine ⟨hlt hf ?_,rfl⟩
    cases passes <;> simp [Frame.ahead]
  | handled hf => exact ⟨hlt hf (by simp [Frame.ahead]),rfl⟩

/-- The innermost call can go on. -/
theorem exists_proceeds (hw : w.fault = none) {f : Frame η π μ} {frames : List (Frame η π μ)}
    (hf : w.frames = f::frames) :
    ∃ a : Act η π μ, a.proceeds = true ∧ (step w a).isSome = true := by
  obtain ⟨k,m,snapshot,stage⟩ := f
  cases stage with
  | dispatch =>
    refine ⟨.next,rfl,?_⟩
    cases snapshot <;> simp [step,World.next,hw,hf]
  | predicate => exact ⟨.predicate false,rfl,by simp [step,hw,hf]⟩
  | handler => exact ⟨.handled,rfl,by simp [step,hw,hf]⟩

theorem ends_of_linked (hl : w.Linked) (hw : w.fault = none) (depth : ℕ) : w.Ends depth := by
  refine .of_measure (I:=fun w => w.Linked ∧ w.fault = none) wellFounded_lt World.ahead
    (fun w a w' hi ha hs => ?_) (fun w hi => ?_) ⟨hl,hw⟩
  · have hstep := (step_cases hi.1 hs).2
    obtain ⟨hlt,hfault⟩ := hstep.ahead_lt ha
    exact ⟨⟨hstep.linked hi.1,hfault.trans hi.2⟩,hlt⟩
  · cases hf : w.frames with
    | nil => exact .inl (by simp)
    | cons f frames => exact .inr (exists_proceeds hi.2 hf)

/-- A call of `Callback_Handler` goes through the callbacks that were registered on its connection
and not cancelled when it began, in the order of their registration, whatever handlers and
predicates do meanwhile: as long as it is in progress it has gone through the first of them and
comes to its end, and once it has returned, with `NO_ERROR`, it has gone through all. -/
theorem delivery_calls_registered {w₀ w₁ w₂ : World η π μ} {k : ℕ} {m : μ}
    {before during : List (World η π μ × Act η π μ)} (h₀ : Run step World.init before w₀)
    (hb : (registrations k before).length < 2^31)
    (hd : step w₀ (.callbackHandler k m) = some w₁) (h₁ : Run step w₁ during w₂)
    (hin : ∀ p ∈ during, w₀.frames.length < p.1.frames.length) :
    (w₂.frames = w₀.frames ∧
        Complete m (registered k before) (eventsAt (w₀.frames.length+1) during)) ∨
      (w₀.frames.length < w₂.frames.length ∧ (w₂.fault = none → w₂.Ends w₀.frames.length) ∧
        ∃ done rest results, registered k before = done ++ rest ∧ results.length = done.length ∧
          eventsAt (w₀.frames.length+1) during = outcomes m done results) := by
  have hl := run_linked h₀
  have hstep := (step_cases hl hd).2
  have hl₁ := hstep.linked hl
  cases hstep with
  | @callbackHandler k c m hm hc =>
    have hs : Frame.Shown (⟨k,m,c.dispatcher.callbacks.map Prod.snd,.dispatch⟩ : Frame η π μ) m
        (registered k before) [] :=
      ⟨rfl,by simp,[],[],(callbacks_eq_registered h₀ hc hb).symm,rfl,rfl⟩
    obtain ⟨hl₂,⟨inner,f,hf,-,-,done,results,he,hlen,hes⟩ | h⟩ := shown_of_run hl₁ rfl hs h₁ hin
    · refine .inr ⟨?_,fun hw => ends_of_linked hl₂ hw _,done,f.pending,results,he,hlen,hes⟩
      rw [hf,List.length_append,List.length_cons]
      omega
    · exact .inl h

/-- Three registrations, one of them cancelled. -/
def threeHandlers : Execution step (World.init : World ℕ ℕ ℕ) :=
  .ofLabels [.create,.registerHandler 0 ⟨10,some 1⟩ true,.registerHandler 0 ⟨11,none⟩ true,
    .registerHandler 0 ⟨12,some 2⟩ true,.cancel 1 true] (by decide)

/-- The delivery of a message to them. -/
def threeHandlersCalled : World ℕ ℕ ℕ :=
  (step threeHandlers.final (.callbackHandler 0 5)).get (by decide)

/-- The first handler registers another one, cancels the third registration and gets a message
delivered before it returns. -/
def reentrantDelivery : Execution step threeHandlersCalled :=
  .ofLabels [.next,.predicate true,.registerHandler 0 ⟨13,none⟩ true,.cancel 2 true,
    .callbackHandler 0 6,.next,.predicate false,.next,.handled,.next,.handled,.next,
    .predicate false,.next] (by decide)

example : eventsAt 1 reentrantDelivery.steps =
    [.evaluated 1 5 true,.called 10 5,.evaluated 2 5 false,.returned .noError] := by decide

theorem reentrantDelivery_calls_registered :
    (reentrantDelivery.final.frames = threeHandlers.final.frames ∧
        Complete 5 (registered 0 threeHandlers.steps)
          (eventsAt (threeHandlers.final.frames.length+1) reentrantDelivery.steps)) ∨
      (threeHandlers.final.frames.length < reentrantDelivery.final.frames.length ∧
        (reentrantDelivery.final.fault = none →
          reentrantDelivery.final.Ends threeHandlers.final.frames.length) ∧
        ∃ done rest results, registered 0 threeHandlers.steps = done ++ rest ∧
          results.length = done.length ∧
            eventsAt (threeHandlers.final.frames.length+1) reentrantDelivery.steps =
              outcomes 5 done results) :=
  delivery_calls_registered threeHandlers.run (by decide) (Option.some_get _).symm
    reentrantDelivery.run (by decide)

end Blush.Connections
