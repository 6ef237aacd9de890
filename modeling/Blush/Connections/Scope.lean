import Blush.Connections.LazyOpen
import Blush.Connections.Delivery

/-! Handles that the application drops. Neither `HandlerRegistration` nor `RegistrationHandle` has
a destructor of its own, so only `Cancel` ends a subscription. -/
namespace Blush.Connections
open MachineInt Slots Transition
variable {η π μ : Type}

/-- A world in which each handler carries the number of its handle, and the handles to which no
reference is left. -/
structure Scope (η π μ : Type) where
  world : World (ℕ × η) π μ
  dropped : List ℕ

/-- The closure that a call of `registerHandler` makes carries the number of the new handle. -/
def World.tag (w : World (ℕ × η) π μ) : Act η π μ → Act (ℕ × η) π μ
  | .create => .create
  | .registerHandler k callback accepted =>
    .registerHandler k ⟨(w.handles.length,callback.handler),callback.predicate⟩ accepted
  | .cancel h accepted => .cancel h accepted
  | .destroy k accepted => .destroy k accepted
  | .callbackHandler k message => .callbackHandler k message
  | .next => .next
  | .predicate passes => .predicate passes
  | .handled => .handled

namespace Scope

def init : Scope η π μ := ⟨.init,[]⟩

/-- `registerConnHandler` stands for the generated methods `register<Conn>Handler`; `member` is the
connection that the table holds. -/
inductive Act (η π μ : Type)
  | call (a : Connections.Act η π μ)
  | registerConnHandler (member : Option ℕ) (callback : Callback η π) (accepted : Bool)
  | drop (h : ℕ)
  deriving DecidableEq

variable (s : Scope η π μ)

/-- A call; `Cancel` needs a reference to the handle. -/
def call (a : Connections.Act η π μ) : Option (Scope η π μ) :=
  if s.dropped.any a.cancels then none
  else (Connections.step s.world (s.world.tag a)).map fun world => { s with world }

def step : Act η π μ → Option (Scope η π μ)
  | .call a => s.call a
  | .registerConnHandler none _ _ => if s.world.mayCall then some s else none
  | .registerConnHandler (some k) callback accepted => s.call (.registerHandler k callback accepted)
  | .drop h =>
    if s.world.mayCall && h < s.world.handles.length && !s.dropped.contains h then
      some { s with dropped := h::s.dropped }
    else none

/-- The call on the connections, if there is one. -/
def Act.inner (s : Scope η π μ) : Act η π μ → Option (Connections.Act (ℕ × η) π μ)
  | .call a => some (s.world.tag a)
  | .registerConnHandler (some k) callback accepted =>
    some (s.world.tag (.registerHandler k callback accepted))
  | _ => none

/-- The handle number `h`, of the connection number `k`, is referenced and not cancelled. -/
def Subscribed (k h : ℕ) : Prop :=
  h ∉ s.dropped ∧ ∃ r, s.world.handles[h]? = some r ∧ r.owner = k ∧ r.cancelled = false

end Scope

/-! ## The dispatcher and the handles -/

namespace World
variable {w w' : World (ℕ × η) π μ} {a : Act (ℕ × η) π μ}

/-- A new handler carries the number of its handle. -/
def Tagged (w : World (ℕ × η) π μ) (a : Act (ℕ × η) π μ) : Prop :=
  ∀ k callback accepted, a = .registerHandler k callback accepted →
    callback.handler.1 = w.handles.length

/-- The handlers in a dispatcher are those of handles that are not cancelled. -/
def Entered (w : World (ℕ × η) π μ) : Prop :=
  ∀ k c, w.live? k = some c → ∀ x ∈ c.dispatcher.callbacks,
    ∃ r, w.handles[x.2.handler.1]? = some r ∧ r.owner = k ∧ r.inner.id = x.1 ∧ r.cancelled = false

/-- The handle number `i` is cancelled, or its connection is destroyed. -/
def Retired (w : World (ℕ × η) π μ) (i : ℕ) : Prop :=
  ∃ r, w.handles[i]? = some r ∧ (r.cancelled = true ∨ w.live? r.owner = none)

/-- A live connection after an update of one connection. -/
theorem live?_set_cases {k j : ℕ} {c c' : Connection (ℕ × η) π}
    (h : (w.setConnection k c).live? j = some c') :
    (j = k ∧ c' = c) ∨ (j ≠ k ∧ w.live? j = some c') := by
  obtain ⟨hj,ha⟩ := live?_eq_some.mp h
  rcases getElem?_set_cases hj with ⟨rfl,rfl⟩ | ⟨hne,hj⟩
  · exact .inl ⟨rfl,rfl⟩
  · exact .inr ⟨hne,live?_eq_some.mpr ⟨hj,ha⟩⟩

theorem Step.entered (h : w.Step a w') (ht : w.Tagged a) (hw : w.Entered) : w'.Entered := by
  intro j c' hj x hx
  cases h with
  | create =>
    obtain ⟨hj,ha⟩ := live?_eq_some.mp hj
    rcases getElem?_concat_cases hj with ⟨rfl,rfl⟩ | hj
    · exact absurd hx List.not_mem_nil
    · exact hw j c' (live?_eq_some.mpr ⟨hj,ha⟩) x hx
  | @registerHandler k c callback accepted hm hc =>
    have hold : ∀ c₀, w.live? j = some c₀ → x ∈ c₀.dispatcher.callbacks →
        ∃ r, (w.handles ++ [(c.registerHandler k w.handles.length callback accepted).2])[
          x.2.handler.1]? = some r ∧ r.owner = j ∧ r.inner.id = x.1 ∧ r.cancelled = false := by
      intro c₀ hc₀ hx
      obtain ⟨r,hr,hrest⟩ := hw j c₀ hc₀ x hx
      exact ⟨r,getElem?_concat_of_some hr,hrest⟩
    rcases live?_set_cases hj with ⟨rfl,rfl⟩ | ⟨-,hj⟩
    · rcases EventDispatcher.mem_emplace hx with rfl | hx
      · refine ⟨(c.registerHandler _ w.handles.length callback accepted).2,?_,rfl,rfl,rfl⟩
        rw [ht _ _ _ rfl]
        exact List.getElem?_concat_length
      · exact hold c hc hx
    · exact hold c' hj hx
  | cancelled => exact hw j c' hj x hx
  | @cancel i r c accepted hm hr hcan hc =>
    have hold : ∀ c₀, w.live? j = some c₀ → x ∈ c₀.dispatcher.callbacks →
        (j = r.owner → x.1 ≠ r.inner.id) →
        ∃ r', (w.handles.set i r.spent)[x.2.handler.1]? = some r' ∧ r'.owner = j ∧
          r'.inner.id = x.1 ∧ r'.cancelled = false := by
      intro c₀ hc₀ hx hne
      obtain ⟨r',hr',howner,hid,hlive⟩ := hw j c₀ hc₀ x hx
      have hi : i ≠ x.2.handler.1 := by
        rintro rfl
        obtain rfl := Option.some.inj (hr.symm.trans hr')
        exact hne howner.symm hid.symm
      exact ⟨r',by rw [List.getElem?_set_ne hi,hr'],howner,hid,hlive⟩
    rcases live?_set_cases hj with ⟨rfl,rfl⟩ | ⟨hne,hj⟩
    · obtain ⟨hx,hid⟩ := List.mem_filter.mp hx
      exact hold c hc hx fun _ => of_decide_eq_true hid
    · exact hold c' hj hx fun he => absurd he hne
  | stale => exact hw j c' hj x hx
  | destroy hm hf hc =>
    rcases live?_set_cases hj with ⟨rfl,rfl⟩ | ⟨-,hj⟩
    · exact absurd (live?_eq_some.mp hj).2 (by simp)
    · exact hw j c' hj x hx
  | callbackHandler | returned | call | predicate | handled => exact hw j c' hj x hx

/-- A retired handle stays retired. -/
theorem Step.retired (h : w.Step a w') (hl : w.Linked) {i : ℕ} (hw : w.Retired i) :
    w'.Retired i := by
  obtain ⟨r,hr,hret⟩ := hw
  have howner := hl.owner r (List.mem_of_getElem? hr)
  -- a connection that is updated while it exists is another one than that of a destroyed owner
  have hset : ∀ {k : ℕ} {c c₀ : Connection (ℕ × η) π}, w.live? k = some c₀ →
      r.cancelled = true ∨ (w.setConnection k c).live? r.owner = none := by
    intro k c c₀ hc
    refine hret.imp_right fun hnone => ?_
    refine Option.eq_none_iff_forall_ne_some.mpr fun c' hc' => ?_
    rcases live?_set_cases hc' with ⟨rfl,rfl⟩ | ⟨-,hc'⟩
    · simp [hnone] at hc
    · simp [hnone] at hc'
  cases h with
  | create =>
    refine ⟨r,hr,hret.imp_right fun hnone => ?_⟩
    rw [live?,List.getElem?_append_left howner]
    exact hnone
  | registerHandler hm hc => exact ⟨r,getElem?_concat_of_some hr,hset hc⟩
  | cancelled => exact ⟨r,hr,hret⟩
  | @cancel j r' c accepted hm hr' hcan hc =>
    by_cases hij : j = i
    · subst hij
      exact ⟨r'.spent,getElem?_set_self hr',.inl rfl⟩
    · exact ⟨r,by rw [handles_setConnection,handles_setHandle,List.getElem?_set_ne hij,hr],hset hc⟩
  | stale => exact ⟨r,hr,hret⟩
  | destroy hm hf hc => exact ⟨r,hr,hset hc⟩
  | callbackHandler | returned | call | predicate | handled => exact ⟨r,hr,hret⟩

end World

/-! ## The callback of the TS -/

namespace Endpoint
variable {η : Type} {v v' : Endpoint η π} {a : Act η π μ}

/-- The TS does not hold the callback of a connection all of whose handles are cancelled. -/
def Idle (v : Endpoint η π) : Prop :=
  v.connection.alive = true → v.live = 0 → v.connection.ts.held = false

/-- The last `Cancel` has its `Unregister_Callback` refused. -/
def RefusedLast (v : Endpoint η π) : Act η π μ → Prop
  | .cancel _ accepted => accepted = false ∧ v.live = 1 ∧ v.connection.ts.held = true
  | _ => False

instance (a : Act η π μ) : Decidable (v.RefusedLast a) :=
  match a with
  | .cancel _ _ => inferInstanceAs (Decidable (_ ∧ _ ∧ _))
  | .create | .registerHandler _ _ _ | .destroy _ _ | .callbackHandler _ _ | .next | .predicate _
  | .handled => inferInstanceAs (Decidable False)

theorem Step.idle (h : v.Step a v') (hc : v.Counted) (hn : ¬v.RefusedLast a) : v'.Idle := by
  intro ha' hl'
  cases h with
  | registerHandler ha =>
    rw [live_concat rfl] at hl'
    omega
  | @cancel h i r accepted ha hr hx =>
    have hl := live_spent (c:=v.connection.unregister r.inner.id accepted) hr hx
    rw [hl',Nat.zero_add] at hl
    have hz : wrap 32 (v.connection.handlerCount-1) = 0 := by
      rw [hc.handlerCount,hl,wrap_sub_wrap]
      exact wrap_zero _
    rw [Connection.unregister_ts,if_pos hz,TypedTS.unregisterCallback]
    cases accepted with
    | true => simp
    | false =>
      have hheld : v.connection.ts.held ≠ true := fun ht => hn ⟨rfl,hl,ht⟩
      simpa using hheld
  | destroy ha => simp at ha'

end Endpoint

/-- The call is a `Cancel` of the last handle, and the TS keeps the callback. -/
def World.RefusedLast (w : World η π μ) (a : Act η π μ) : Prop :=
  ∃ k ∈ w.target a, ∃ v ∈ w.endpoint? k, v.connection.alive = true ∧ v.RefusedLast a

instance (w : World η π μ) (a : Act η π μ) : Decidable (w.RefusedLast a) :=
  inferInstanceAs (Decidable (∃ k ∈ w.target a, ∃ v ∈ w.endpoint? k, _))

theorem run_idle {steps : List (World η π μ × Act η π μ)} {w : World η π μ}
    (h : Run step World.init steps w) (hn : ∀ p ∈ steps, ¬p.1.RefusedLast p.2) {k : ℕ}
    {v : Endpoint η π} (hv : w.endpoint? k = some v) : v.Idle := by
  have hi := run_endpoint (I:=fun v => v.Counted ∧ v.Idle) (C:=fun w a => ¬World.RefusedLast w a)
    ⟨Endpoint.create_counted,fun _ _ => rfl⟩ (fun w k v a v' hi hc hv ht hs => by
      have hrefused : ¬v.RefusedLast a := fun hr => hc ⟨k,ht,v,hv,hs.alive,hr⟩
      exact ⟨hs.counted hi.1,hs.idle hi.1 hrefused⟩) h hn hv
  exact hi.2

/-! ## Runs with dropped handles -/

namespace Scope
variable {s s' : Scope η π μ} {a : Act η π μ} {steps : List (Scope η π μ × Act η π μ)}

/-- A step calls a connection, drops a handle or does nothing. -/
theorem step_cases (h : step s a = some s') :
    (∃ b, a.inner s = some b ∧ Connections.step s.world b = some s'.world ∧
      s'.dropped = s.dropped) ∨
    (a.inner s = none ∧ s'.world = s.world ∧
      (s'.dropped = s.dropped ∨ ∃ h, a = .drop h ∧ h < s.world.handles.length ∧
        s'.dropped = h::s.dropped)) := by
  have hcall : ∀ {b}, s.call b = some s' →
      Connections.step s.world (s.world.tag b) = some s'.world ∧ s'.dropped = s.dropped := by
    intro b hb
    obtain ⟨-,hb⟩ := Option.ite_none_left_eq_some.mp hb
    obtain ⟨world,hw,rfl⟩ := Option.map_eq_some_iff.mp hb
    exact ⟨hw,rfl⟩
  cases a with
  | call b => exact .inl ⟨_,rfl,hcall h⟩
  | registerConnHandler member callback accepted =>
    cases member with
    | some k => exact .inl ⟨_,rfl,hcall h⟩
    | none =>
      obtain ⟨-,h⟩ := Option.ite_none_right_eq_some.mp h
      cases h
      exact .inr ⟨rfl,rfl,.inl rfl⟩
  | drop h₀ =>
    obtain ⟨hd,h⟩ := Option.ite_none_right_eq_some.mp h
    cases h
    simp only [Bool.and_eq_true,decide_eq_true_eq] at hd
    exact .inr ⟨rfl,rfl,.inr ⟨h₀,rfl,hd.1.2,rfl⟩⟩

/-- The calls on the connections in a run. -/
def calls (steps : List (Scope η π μ × Act η π μ)) :
    List (World (ℕ × η) π μ × Connections.Act (ℕ × η) π μ) :=
  steps.filterMap fun p => (p.2.inner p.1).map fun b => (p.1.world,b)

/-- They make a run. -/
theorem run_calls (h : Run step init steps s) :
    Run Connections.step World.init (calls steps) s.world := by
  induction h with
  | refl => exact .refl
  | @next steps s a s' before hs ih =>
    rw [calls,List.filterMap_append]
    rcases step_cases hs with ⟨b,hb,hw,-⟩ | ⟨hnone,hw,-⟩
    · have hlast : [(s,a)].filterMap (fun p => (p.2.inner p.1).map fun b => (p.1.world,b)) =
          [(s.world,b)] := by simp [hb]
      rw [hlast]
      exact ih.next hw
    · have hlast : [(s,a)].filterMap (fun p => (p.2.inner p.1).map fun b => (p.1.world,b)) = [] := by
        simp [hnone]
      rw [hlast,List.append_nil,hw]
      exact ih

theorem inner_tagged {b : Connections.Act (ℕ × η) π μ} (h : a.inner s = some b) :
    s.world.Tagged b := by
  have htag : ∀ c, s.world.Tagged (s.world.tag c) := by
    rintro c k callback accepted hc
    cases c with
    | registerHandler => cases hc; rfl
    | _ => cases hc
  cases a with
  | call c => cases h; exact htag c
  | registerConnHandler member callback accepted =>
    cases member with
    | some k => cases h; exact htag _
    | none => cases h
  | drop => cases h

theorem run_entered (h : Run step init steps s) : s.world.Entered := by
  refine ((run_calls h).invariant_of (I:=fun w => w.Linked ∧ w.Entered) (C:=World.Tagged)
    ⟨run_linked .refl,by simp [World.Entered,World.live?,World.init]⟩ ?_ ?_).2
  · intro w b w' hi ht hs
    have hs := (Connections.step_cases hi.1 hs).2
    exact ⟨hs.linked hi.1,hs.entered ht hi.2⟩
  · intro p hp
    obtain ⟨q,-,hq⟩ := List.mem_filterMap.mp hp
    obtain ⟨b,hb,rfl⟩ := Option.map_eq_some_iff.mp hq
    exact inner_tagged hb

/-- The last reference to a handle goes while it is not cancelled and its connection exists. -/
def DropsLive (s : Scope η π μ) : Act η π μ → Prop
  | .drop h => ∃ r ∈ s.world.handles[h]?, r.cancelled = false ∧
      (s.world.live? r.owner).isSome = true
  | _ => False

instance (s : Scope η π μ) (a : Act η π μ) : Decidable (s.DropsLive a) :=
  match a with
  | .drop h => inferInstanceAs (Decidable (∃ r ∈ s.world.handles[h]?, _))
  | .call _ | .registerConnHandler _ _ _ => inferInstanceAs (Decidable False)

/-- The step drops a handle instead of cancelling it, or the TS refuses to let the callback of the
last handle go. -/
def Slip (s : Scope η π μ) (a : Act η π μ) : Prop :=
  s.DropsLive a ∨ ∃ b ∈ a.inner s, s.world.RefusedLast b

instance (s : Scope η π μ) (a : Act η π μ) : Decidable (s.Slip a) :=
  inferInstanceAs (Decidable (_ ∨ _))

theorem run_retired (h : Run step init steps s) (hn : ∀ p ∈ steps, ¬p.1.Slip p.2) :
    ∀ i ∈ s.dropped, s.world.Retired i := by
  refine (h.invariant_of (I:=fun s => s.world.Linked ∧ ∀ i ∈ s.dropped, s.world.Retired i)
    (C:=fun s a => ¬s.Slip a) ⟨run_linked .refl,by simp [init]⟩ ?_ hn).2
  intro s a s' ⟨hl,hd⟩ hslip hs
  rcases step_cases hs with ⟨b,-,hw,hsame⟩ | ⟨-,hw,hdropped⟩
  · have hw := (Connections.step_cases hl hw).2
    rw [hsame]
    exact ⟨hw.linked hl,fun i hi => hw.retired hl (hd i hi)⟩
  · rw [hw]
    refine ⟨hl,fun i hi => ?_⟩
    rcases hdropped with hsame | ⟨h,rfl,hlt,hsame⟩
    · exact hd i (hsame ▸ hi)
    · rcases List.mem_cons.mp (hsame ▸ hi) with rfl | hi
      · obtain ⟨r,hr⟩ : ∃ r, s.world.handles[i]? = some r := ⟨_,List.getElem?_eq_getElem hlt⟩
        refine ⟨r,hr,?_⟩
        by_contra hret
        rw [not_or,Bool.not_eq_true] at hret
        exact hslip (.inl ⟨r,hr,hret.1,Option.isSome_iff_ne_none.mpr hret.2⟩)
      · exact hd i hi

/-- No delivery that begins calls a handler whose handle is cancelled or dropped, and the TS holds
the callback of no connection without a subscribed handle. -/
structure Unsubscribes (e : Execution step (init : Scope η π μ)) : Prop where
  delivery : ∀ p ∈ e.steps, ∀ k message, p.2 = .call (.callbackHandler k message) →
    ∀ s', step p.1 p.2 = some s' → ∀ f ∈ s'.world.frames.head?, ∀ callback ∈ f.snapshot,
      p.1.Subscribed k callback.handler.1
  closed : ∀ s ∈ e.visited, ∀ k c, s.world.live? k = some c → (∀ h, ¬s.Subscribed k h) →
    c.ts.held = false

/-- In a state whose dropped handles are retired, a handle that is not cancelled is subscribed. -/
theorem subscribed_of_retired (hd : ∀ i ∈ s.dropped, s.world.Retired i) {k h : ℕ}
    {c : Connection (ℕ × η) π} {r : HandlerRegistration} (hc : s.world.live? k = some c)
    (hr : s.world.handles[h]? = some r) (ho : r.owner = k) (hx : r.cancelled = false) :
    s.Subscribed k h := by
  refine ⟨fun hmem => ?_,r,hr,ho,hx⟩
  obtain ⟨r',hr',hret⟩ := hd h hmem
  obtain rfl := Option.some.inj (hr.symm.trans hr')
  rcases hret with hret | hret
  · simp [hx] at hret
  · rw [ho,hc] at hret
    cases hret

/-- Where no handle is dropped instead of being cancelled, and the TS does not refuse to let the
callback of a last handle go, handles unsubscribe. -/
theorem unsubscribes_of_no_slip (e : Execution step (init : Scope η π μ))
    (hn : ∀ p ∈ e.steps, ¬p.1.Slip p.2) : Unsubscribes e := by
  constructor
  · rintro ⟨s,a⟩ hp k message rfl s' hs f hf callback hcallback
    obtain ⟨before,after,he,hrun⟩ := e.split hp
    have hret := run_retired hrun fun q hq => hn q (by simp [he,hq])
    obtain ⟨world,hw,rfl⟩ := Option.map_eq_some_iff.mp (Option.ite_none_left_eq_some.mp hs).2
    have hstep := (Connections.step_cases (run_linked (run_calls hrun)) hw).2
    cases hstep with
    | @callbackHandler _ c _ hm hc =>
      obtain rfl := Option.some.inj hf
      obtain ⟨x,hx,rfl⟩ := List.mem_map.mp hcallback
      obtain ⟨r,hr,ho,-,hcan⟩ := run_entered hrun k c hc x hx
      exact subscribed_of_retired hret hc hr ho hcan
  · intro s hs k c hc hnone
    obtain ⟨before,hsteps,hrun⟩ := e.run.prefix_of_visited hs
    have hret := run_retired hrun fun q hq => hn q (hsteps.subset hq)
    have hquiet : ∀ q ∈ calls before, ¬q.1.RefusedLast q.2 := by
      intro q hq hrefused
      obtain ⟨p,hp,hq⟩ := List.mem_filterMap.mp hq
      obtain ⟨b,hb,rfl⟩ := Option.map_eq_some_iff.mp hq
      exact hn p (hsteps.subset hp) (.inr ⟨b,hb,hrefused⟩)
    refine run_idle (run_calls hrun) hquiet (World.endpoint?_of_live? hc)
      (World.live?_eq_some.mp hc).2 ?_
    refine List.countP_eq_zero.mpr fun r hr hx => ?_
    obtain ⟨hmem,ho⟩ := List.mem_filter.mp hr
    obtain ⟨h,hr⟩ := List.getElem?_of_mem hmem
    exact hnone h (subscribed_of_retired hret hc hr (of_decide_eq_true ho) (by simpa using hx))

/-- Two handlers; one handle is cancelled while a delivery is in progress, and the other one after
it. -/
def cancelledHandles : Execution step (init : Scope Unit Unit Unit) :=
  .ofLabels [.call .create,.registerConnHandler (some 0) ⟨(),none⟩ true,
    .call (.registerHandler 0 ⟨(),none⟩ true),.call (.callbackHandler 0 ()),.call .next,
    .call (.cancel 1 true),.drop 1,.call .handled,.call .next,.call .handled,.call .next,
    .call (.callbackHandler 0 ()),.call .next,.call .handled,.call .next,.call (.cancel 0 true),
    .drop 0] (by decide)

theorem cancelledHandles_unsubscribe : Unsubscribes cancelledHandles :=
  unsubscribes_of_no_slip cancelledHandles (by decide)

/-- The handle goes out of scope, and a message arrives. -/
def droppedHandle : Execution step (init : Scope Unit Unit Unit) :=
  .ofLabels [.call .create,.registerConnHandler (some 0) ⟨(),none⟩ true,.drop 0,
    .call (.callbackHandler 0 ())] (by decide)

/-- The handler is called, and the TS still holds the callback. -/
theorem droppedHandle_subscribed : ¬Unsubscribes droppedHandle ∧
    droppedHandle.final.world.connections.map (fun c => c.ts.held) = [true] := by
  refine ⟨fun h => ?_,by decide⟩
  have hp := List.get_mem droppedHandle.steps ⟨3,by decide⟩
  have hsub := h.delivery _ hp 0 () rfl _ rfl _ rfl ⟨(0,()),none⟩ (by decide)
  exact absurd hsub.1 (by decide)

end Scope
end Blush.Connections
