import Blush.Requests.Adapters

/-! What a connection does to the adapters of outstanding requests when it is destroyed or
overwritten: the defaulted operations destroy its map and the adapters with it. -/
namespace Blush.Requests
open Face Slots Transition
variable {η ρ μ : Type} {w w' : World η ρ μ} {a : Act η ρ μ}

/-- The request whose `send` is in progress. -/
def Frame.sends? : Frame → Option ℕ
  | .send _ n _ _ => some n
  | .callback _ => none

/-- The request whose `Callback_Handler` is in progress. -/
def Frame.calls? : Frame → Option ℕ
  | .send .. => none
  | .callback n => some n

namespace World

/-- The request number `n` was accepted, and its `Callback_Handler` has not returned. -/
def outstanding (w : World η ρ μ) (n : ℕ) : Bool :=
  w.requests[n]?.any fun q => q.transactionId?.isSome && !q.answered

/-- No adapter of an outstanding request is destroyed. -/
def OutstandingKept (w : World η ρ μ) : Prop :=
  ∀ (n : ℕ) (q : Request η ρ), w.requests[n]? = some q → w.outstanding n = true →
    q.adapter.destroyed = false

/-- The step gives away the map of a connection with an outstanding request, or it accepts a request
under the id of one. -/
def loses (w : World η ρ μ) : Act η ρ μ → Bool
  | .returns =>
    match w.frames with
    | .send k _ t rc::_ =>
      accepted rc && (w.live? k).any fun c => (c.pending.lookup t).any w.outstanding
    | _ => false
  | .moveAssign k _ | .destroy k => (w.live? k).any fun c => c.owned.any w.outstanding
  | _ => false

def Loses (w : World η ρ μ) (a : Act η ρ μ) : Prop := w.loses a = true

/-- The typed TS calls the callback of an accepted request, and for the first time. -/
def entitled (w : World η ρ μ) : Act η ρ μ → Bool
  | .deliver n _ => w.requests[n]?.all fun q => q.transactionId?.isSome && !q.called
  | _ => true

theorem outstanding_iff {n : ℕ} {q : Request η ρ} (hq : w.requests[n]? = some q) :
    w.outstanding n = true ↔ q.transactionId? ≠ none ∧ q.answered = false := by
  rw [outstanding,hq,Option.any_some,Bool.and_eq_true,Option.isSome_iff_ne_none]
  simp

/-- The adapter of a request may be destroyed: it is not being sent, and not outstanding. -/
def Done (q : Request η ρ) : Prop :=
  q.result ≠ none ∧ (q.transactionId? ≠ none → q.answered = true)

/-- What every state has in common until an outstanding request is lost. -/
structure Tracked (w : World η ρ μ) : Prop where
  distinct : (w.frames.filterMap Frame.sends?).Nodup
  sending : ∀ n ∈ w.frames.filterMap Frame.sends?,
    ∃ q : Request η ρ, w.requests[n]? = some q ∧ q.result = none
  entry : ∀ (k : ℕ) (c : Connection) (t : ℤ) (n : ℕ), w.connections[k]? = some c →
    c.pending.lookup t = some n →
      ∃ q : Request η ρ, w.requests[n]? = some q ∧ q.transactionId? ≠ none
  complete : ∀ (n : ℕ) (q : Request η ρ), w.requests[n]? = some q → q.adapter.complete = true →
    q.answered = true
  destroyed : ∀ (n : ℕ) (q : Request η ρ), w.requests[n]? = some q → q.adapter.destroyed = true →
    Done q

theorem init_tracked : (init : World η ρ μ).Tracked :=
  ⟨.nil,by simp [init],by simp [init],by simp [init],by simp [init]⟩

namespace Tracked

theorem outstandingKept (hs : w.Tracked) : w.OutstandingKept := by
  intro n q hq ho
  obtain ⟨ht,ha⟩ := (outstanding_iff hq).mp ho
  refine Bool.eq_false_iff.mpr fun hd => ?_
  simp [(hs.destroyed n q hq hd).2 ht] at ha

/-- An entry of a map that is not outstanding is done. -/
theorem done_of_entry (hs : w.Tracked) {k n : ℕ} {c : Connection} {t : ℤ} {q : Request η ρ}
    (hc : w.connections[k]? = some c) (hn : c.pending.lookup t = some n)
    (ho : w.outstanding n = false) (hq : w.requests[n]? = some q) : Done q := by
  obtain ⟨q',hq',ht⟩ := hs.entry k c t n hc hn
  obtain rfl := Option.some.inj (hq.symm.trans hq')
  refine ⟨fun hr => ht (q.transactionId?_of_none hr),fun _ => ?_⟩
  by_contra ha
  rw [Bool.not_eq_true] at ha
  simp [(outstanding_iff hq).mpr ⟨ht,ha⟩] at ho

/-- Other maps, with accepted requests only. -/
theorem setConnections (hs : w.Tracked) (cs : List Connection)
    (h : ∀ (k : ℕ) (c : Connection) (t : ℤ) (n : ℕ), cs[k]? = some c → c.pending.lookup t = some n →
      ∃ q : Request η ρ, w.requests[n]? = some q ∧ q.transactionId? ≠ none) :
    ({ w with connections := cs } : World η ρ μ).Tracked :=
  ⟨hs.distinct,hs.sending,h,hs.complete,hs.destroyed⟩

/-- The destruction of adapters of requests that are done. -/
theorem destroyAdapters (hs : w.Tracked) (ns : List ℕ)
    (h : ∀ n ∈ ns, ∀ q, w.requests[n]? = some q → Done q) :
    ({ w with requests := Requests.destroyAdapters ns w.requests } : World η ρ μ).Tracked := by
  have hlookup : ∀ (n : ℕ) (q : Request η ρ), w.requests[n]? = some q →
      ∃ q' : Request η ρ, (Requests.destroyAdapters ns w.requests)[n]? = some q' ∧
        q'.result = q.result ∧ q'.transactionId? = q.transactionId? := by
    intro n q hq
    obtain ⟨q',hq',rfl | ⟨rfl,-⟩⟩ := exists_destroyAdapters ns hq
    · exact ⟨q',hq',rfl,rfl⟩
    · exact ⟨_,hq',rfl,rfl⟩
  refine ⟨hs.distinct,fun n hn => ?_,fun k c t n hc hn => ?_,fun n q hq hx => ?_,fun n q hq hx => ?_⟩
  · obtain ⟨q,hq,hr⟩ := hs.sending n hn
    obtain ⟨q',hq',hr',-⟩ := hlookup n q hq
    exact ⟨q',hq',hr'.trans hr⟩
  · obtain ⟨q,hq,ht⟩ := hs.entry k c t n hc hn
    obtain ⟨q',hq',-,ht'⟩ := hlookup n q hq
    exact ⟨q',hq',ht' ▸ ht⟩
  · rcases destroyAdapters_cases hq with ⟨-,q',hq',rfl⟩ | ⟨-,hq⟩
    · exact hs.complete n q' hq' hx
    · exact hs.complete n q hq hx
  · rcases destroyAdapters_cases hq with ⟨hn,q',hq',rfl⟩ | ⟨-,hq⟩
    · exact h n hn q' hq'
    · exact hs.destroyed n q hq hx

/-- An update of one request during its `Callback_Handler`. -/
theorem setRequest (hs : w.Tracked) {n : ℕ} {q q' : Request η ρ} {frames : List Frame}
    {calls : List (η × μ)} (hq : w.requests[n]? = some q)
    (hf : frames.filterMap Frame.sends? = w.frames.filterMap Frame.sends?)
    (hr : q'.result = q.result) (ha : q.answered = true → q'.answered = true)
    (hc : q'.adapter.complete = true → q'.answered = true)
    (hd : q'.adapter.destroyed = q.adapter.destroyed) :
    ({ w with requests := w.requests.set n q', frames := frames, calls := calls } :
      World η ρ μ).Tracked := by
  have ht : q'.transactionId? = q.transactionId? := by
    rw [Request.transactionId?,Request.transactionId?,hr]
  refine ⟨hf ▸ hs.distinct,fun m hm => ?_,fun k c t m hk hm => ?_,fun m p hp hx => ?_,
    fun m p hp hx => ?_⟩
  · exact exists_getElem?_set hq hr.trans (hs.sending m (hf ▸ hm))
  · exact exists_getElem?_set hq (fun hne => ht ▸ hne) (hs.entry k c t m hk hm)
  · rcases getElem?_set_cases hp with ⟨-,rfl⟩ | ⟨-,hp⟩
    · exact hc hx
    · exact hs.complete m p hp hx
  · rcases getElem?_set_cases hp with ⟨-,rfl⟩ | ⟨-,hp⟩
    · obtain ⟨hres,hans⟩ := hs.destroyed n q hq (hd ▸ hx)
      exact ⟨hr ▸ hres,fun hne => ha (hans (ht ▸ hne))⟩
    · exact hs.destroyed m p hp hx

/-- A new request, inside `Send_Message_Async`. -/
theorem push (hs : w.Tracked) {k m : ℕ} {q : Request η ρ} {t : ℤ} {rc : ReturnCode}
    (hm : w.requests.length = m) (hr : q.result = none) (hx : q.adapter.complete = false)
    (hd : q.adapter.destroyed = false) :
    ({ w with requests := w.requests ++ [q], frames := .send k m t rc::w.frames } :
      World η ρ μ).Tracked := by
  subst hm
  refine ⟨?_,fun n hn => ?_,fun k c t n hc hn => ?_,fun n p hp hcomplete => ?_,
    fun n p hp hdestroyed => ?_⟩
  · refine List.nodup_cons.mpr ⟨fun hn => ?_,hs.distinct⟩
    obtain ⟨p,hp,-⟩ := hs.sending _ hn
    simp at hp
  · rcases List.mem_cons.mp hn with rfl | hn
    · exact ⟨q,List.getElem?_concat_length,hr⟩
    · obtain ⟨p,hp,hres⟩ := hs.sending n hn
      exact ⟨p,getElem?_concat_of_some hp,hres⟩
  · obtain ⟨p,hp,hne⟩ := hs.entry k c t n hc hn
    exact ⟨p,getElem?_concat_of_some hp,hne⟩
  · rcases getElem?_concat_cases hp with ⟨-,rfl⟩ | hp
    · simp [hx] at hcomplete
    · exact hs.complete n p hp hcomplete
  · rcases getElem?_concat_cases hp with ⟨-,rfl⟩ | hp
    · simp [hd] at hdestroyed
    · exact hs.destroyed n p hp hdestroyed

/-- The result of the innermost `Send_Message_Async`. -/
theorem record (hs : w.Tracked) {k n : ℕ} {t : ℤ} {rc : ReturnCode} {q : Request η ρ}
    {frames : List Frame} (hf : w.frames = .send k n t rc::frames)
    (hq : w.requests[n]? = some q) :
    ({ w with
      requests := w.requests.set n { q with result := some (t,rc) }, frames := frames } :
        World η ρ μ).Tracked := by
  have hdistinct := hs.distinct
  have hsending := hs.sending
  have hcons : w.frames.filterMap Frame.sends? = n::frames.filterMap Frame.sends? := by rw [hf]; rfl
  rw [hcons] at hdistinct hsending
  obtain ⟨hn,hdistinct⟩ := List.nodup_cons.mp hdistinct
  obtain ⟨q₀,hq₀,hr⟩ := hsending n List.mem_cons_self
  obtain rfl := Option.some.inj (hq.symm.trans hq₀)
  refine ⟨hdistinct,fun m hm => ?_,fun j c t' m hc hm => ?_,fun m p hp hx => ?_,fun m p hp hx => ?_⟩
  · obtain ⟨p,hp,hres⟩ := hsending m (List.mem_cons_of_mem _ hm)
    have hmn : n ≠ m := fun he => hn (he ▸ hm)
    exact ⟨p,by rw [List.getElem?_set_ne hmn,hp],hres⟩
  · obtain ⟨p,hp,hne⟩ := hs.entry j c t' m hc hm
    have hmn : n ≠ m := by
      rintro rfl
      obtain rfl := Option.some.inj (hq.symm.trans hp)
      exact hne (q.transactionId?_of_none hr)
    exact ⟨p,by rw [List.getElem?_set_ne hmn,hp],hne⟩
  · rcases getElem?_set_cases hp with ⟨-,rfl⟩ | ⟨-,hp⟩
    · exact hs.complete n q hq hx
    · exact hs.complete m p hp hx
  · rcases getElem?_set_cases hp with ⟨-,rfl⟩ | ⟨-,hp⟩
    · exact absurd hr (hs.destroyed n q hq hx).1
    · exact hs.destroyed m p hp hx

/-- The clean-up at the beginning of `send`. -/
theorem cleanup (hs : w.Tracked) {k : ℕ} {c : Connection} (hc : w.connections[k]? = some c) :
    ({ w with
      connections := w.connections.set k (c.cleanupCompleted w.complete).1
      requests := Requests.destroyAdapters (c.cleanupCompleted w.complete).2 w.requests } :
        World η ρ μ).Tracked := by
  refine (hs.setConnections _ fun j c' t n hc' hn => ?_).destroyAdapters _ fun n hn q hq => ?_
  · rcases getElem?_set_cases hc' with ⟨-,rfl⟩ | ⟨-,hc'⟩
    · exact hs.entry k c t n hc (Connection.lookup_cleanupCompleted.mp hn).1
    · exact hs.entry j c' t n hc' hn
  · obtain ⟨⟨t,ht⟩,hcomplete⟩ := Connection.mem_cleanupCompleted hn
    obtain ⟨q',hq',hx⟩ := complete_eq_true.mp hcomplete
    obtain rfl := Option.some.inj (hq.symm.trans hq')
    refine hs.done_of_entry hc ht (Bool.eq_false_iff.mpr fun ho => ?_) hq
    have ha := ((outstanding_iff hq).mp ho).2
    simp [hs.complete n q hq hx] at ha

/-- The return from `send`. -/
theorem finish (hs : w.Tracked) {k n : ℕ} {t : ℤ} {rc : ReturnCode} {c : Connection}
    {q : Request η ρ} {frames : List Frame} (hf : w.frames = .send k n t rc::frames)
    (hc : w.live? k = some c) (hq : w.requests[n]? = some q)
    (hl : accepted rc = true → ∀ m, c.pending.lookup t = some m → w.outstanding m = false) :
    (w.finish k n c q t rc frames).Tracked := by
  have hk := (live?_eq_some.mp hc).1
  obtain ⟨q₀,hq₀,hr⟩ := hs.sending n (by rw [hf]; exact List.mem_cons_self)
  obtain rfl := Option.some.inj (hq.symm.trans hq₀)
  have hrecord := hs.record hf hq
  have hself : (w.requests.set n { q with result := some (t,rc) })[n]? = _ := getElem?_set_self hq
  cases ha : accepted rc with
  | false =>
    have hd := hrecord.destroyAdapters [n] fun m hm p hp => by
      obtain rfl := List.mem_singleton.mp hm
      obtain rfl := Option.some.inj (hself.symm.trans hp)
      exact ⟨by simp,by simp [Request.transactionId?,ha]⟩
    have hsame : w.connections.set k c = w.connections := by
      obtain ⟨hlt,rfl⟩ := List.getElem?_eq_some_iff.mp hk
      exact List.set_getElem_self hlt
    simpa only [World.finish,ha,if_false,Bool.false_eq_true,hsame] using hd
  | true =>
    have hconnections := hrecord.setConnections (w.connections.set k (c.assign t n).1)
      fun j c' t' m hc' hm => by
        rcases getElem?_set_cases hc' with ⟨-,rfl⟩ | ⟨-,hc'⟩
        · by_cases ht : t' = t
          · subst ht
            rw [Connection.lookup_assign_self] at hm
            obtain rfl := Option.some.inj hm
            exact ⟨_,hself,by simp [Request.transactionId?,ha]⟩
          · exact hrecord.entry k c t' m hk ((Connection.lookup_assign_of_ne ht).symm.trans hm)
        · exact hrecord.entry j c' t' m hc' hm
    have hd := hconnections.destroyAdapters (c.assign t n).2 fun m hm p hp => by
      have hentry := Connection.mem_assign hm
      rcases getElem?_set_cases hp with ⟨rfl,-⟩ | ⟨-,hp⟩
      · obtain ⟨q',hq',ht⟩ := hs.entry k c t m hk hentry
        obtain rfl := Option.some.inj (hq.symm.trans hq')
        exact absurd (q.transactionId?_of_none hr) ht
      · exact hs.done_of_entry hk hentry (hl ha m hentry) hp
    simpa only [World.finish,ha,if_true] using hd

/-- A map without outstanding requests goes away. -/
theorem discard (hs : w.Tracked) {k : ℕ} {c : Connection} {cs : List Connection}
    (hc : w.connections[k]? = some c) (hl : c.owned.any w.outstanding = false)
    (hcs : ∀ (j : ℕ) (c' : Connection) (t : ℤ) (n : ℕ), cs[j]? = some c' →
      c'.pending.lookup t = some n → ∃ (i : ℕ) (c'' : Connection), w.connections[i]? = some c'' ∧
        c''.pending.lookup t = some n) :
    ({ w with connections := cs, requests := Requests.destroyAdapters c.owned w.requests } :
      World η ρ μ).Tracked := by
  refine (hs.setConnections _ fun j c' t n hc' hn => ?_).destroyAdapters _ fun n hn q hq => ?_
  · obtain ⟨i,c'',hc'',hn⟩ := hcs j c' t n hc' hn
    exact hs.entry i c'' t n hc'' hn
  · obtain ⟨t,ht⟩ := Connection.mem_owned.mp hn
    exact hs.done_of_entry hc ht (by simpa using List.any_eq_false.mp hl n hn) hq

end Tracked

theorem Step.tracked (h : w.Step a w') (hs : w.Tracked) (hl : w.loses a = false) : w'.Tracked := by
  cases h with
  | create =>
    refine hs.setConnections _ fun k c t n hc hn => ?_
    rcases getElem?_concat_cases hc with ⟨-,rfl⟩ | hc
    · cases hn
    · exact hs.entry k c t n hc hn
  | send hc =>
    have hclean := hs.cleanup (live?_eq_some.mp hc).1
    exact hclean.push List.length_mapIdx rfl rfl rfl
  | @answer k n t rc t' rc' frames hf =>
    have hsame : w.frames.filterMap Frame.sends? =
        (Frame.send k n t' rc'::frames).filterMap Frame.sends? := by rw [hf]; rfl
    exact ⟨hsame ▸ hs.distinct,hsame ▸ hs.sending,hs.entry,hs.complete,hs.destroyed⟩
  | returns hf hc hq =>
    refine hs.finish hf hc hq fun ha m hm => ?_
    simpa [loses,hf,ha,hc,hm] using hl
  | @deliver n q response hq =>
    rw [callbackHandler]
    split
    · exact ⟨hs.distinct,hs.sending,hs.entry,hs.complete,hs.destroyed⟩
    · exact hs.setRequest (q:=q) hq rfl rfl id (hs.complete n q hq) rfl
  | handled hf hq =>
    rw [completed]
    split
    · exact ⟨hs.distinct,hs.sending,hs.entry,hs.complete,hs.destroyed⟩
    · exact hs.setRequest hq (by rw [hf]; rfl) rfl (fun _ => rfl) (fun _ => rfl) rfl
  | @move k c hi hc =>
    refine hs.setConnections _ fun j c' t n hc' hn => ?_
    have hk := (live?_eq_some.mp hc).1
    rcases getElem?_concat_cases hc' with ⟨-,rfl⟩ | hc'
    · exact hs.entry k c' t n hk hn
    · rcases getElem?_set_cases hc' with ⟨-,rfl⟩ | ⟨-,hc'⟩
      · cases hn
      · exact hs.entry j c' t n hc' hn
  | @moveAssign k j c c' hk hj hne hc hc' =>
    refine hs.discard (live?_eq_some.mp hc).1 (by simpa [loses,hc] using hl) fun i d t n hd hn => ?_
    rcases getElem?_set_cases hd with ⟨-,rfl⟩ | ⟨-,hd⟩
    · cases hn
    · rcases getElem?_set_cases hd with ⟨-,rfl⟩ | ⟨-,hd⟩
      · exact ⟨j,d,(live?_eq_some.mp hc').1,hn⟩
      · exact ⟨i,d,hd,hn⟩
  | @destroy k c hi hc =>
    refine hs.discard (live?_eq_some.mp hc).1 (by simpa [loses,hc] using hl) fun i d t n hd hn => ?_
    rcases getElem?_set_cases hd with ⟨-,rfl⟩ | ⟨-,hd⟩
    · cases hn
    · exact ⟨i,d,hd,hn⟩

/-- The destruction of the adapter of an outstanding request. -/
theorem not_kept (ns : List ℕ) {l : List (Request η ρ)} {n : ℕ} {q : Request η ρ}
    (hl : w.requests = Requests.destroyAdapters ns l) (hn : n ∈ ns) (hq : l[n]? = some q)
    (ht : q.transactionId? ≠ none) (ha : q.answered = false) : ¬w.OutstandingKept := by
  intro hkept
  have hd : w.requests[n]? = some q.destroyAdapter := by
    rw [hl,getElem?_destroyAdapters,hq,Option.map_some,if_pos hn]
  have h := hkept n q.destroyAdapter hd ((outstanding_iff hd).mpr ⟨ht,ha⟩)
  simp [Request.destroyAdapter] at h

theorem exists_outstanding {n : ℕ} (h : w.outstanding n = true) : ∃ q, w.requests[n]? = some q ∧
    q.transactionId? ≠ none ∧ q.answered = false := by
  obtain ⟨q,hq,-⟩ := Option.any_eq_true _ _ |>.mp h
  exact ⟨q,hq,(outstanding_iff hq).mp h⟩

theorem Step.lost (h : w.Step a w') (hs : w.Tracked) (hl : w.loses a = true) :
    ¬w'.OutstandingKept := by
  have howned : ∀ {k c}, w.live? k = some c → (w.live? k).any (fun c => c.owned.any w.outstanding) =
      true → ∃ n ∈ c.owned, ∃ q, w.requests[n]? = some q ∧ q.transactionId? ≠ none ∧
        q.answered = false := by
    intro k c hc hany
    rw [hc,Option.any_some] at hany
    obtain ⟨n,hn,ho⟩ := List.any_eq_true.mp hany
    exact ⟨n,hn,exists_outstanding ho⟩
  cases h with
  | @returns k n c q t rc frames hf hc hq =>
    obtain ⟨ha,m,hm,ho⟩ : accepted rc = true ∧ ∃ m, c.pending.lookup t = some m ∧
        w.outstanding m = true := by simpa [loses,hf,hc,Option.any_eq_true] using hl
    obtain ⟨q',hq',ht,hans⟩ := exists_outstanding ho
    obtain ⟨q₀,hq₀,hr⟩ := hs.sending n (by rw [hf]; exact List.mem_cons_self)
    have hmn : n ≠ m := by
      rintro rfl
      obtain rfl := Option.some.inj (hq'.symm.trans hq₀)
      exact ht (q'.transactionId?_of_none hr)
    refine not_kept [m] ?_ List.mem_cons_self
      (l:=w.requests.set n { q with result := some (t,rc) })
      (by rw [List.getElem?_set_ne hmn,hq']) ht hans
    simp [World.finish,ha,Connection.assign,hm]
  | moveAssign hk hj hne hc hc' =>
    obtain ⟨n,hn,q,hq,ht,ha⟩ := howned hc hl
    exact not_kept _ rfl hn hq ht ha
  | destroy hi hc =>
    obtain ⟨n,hn,q,hq,ht,ha⟩ := howned hc hl
    exact not_kept _ rfl hn hq ht ha
  | create | send | answer | deliver | handled | move => simp [loses] at hl

/-! ## The calls of the typed TS -/

/-- What every state has in common while the typed TS calls only what it is entitled to. -/
structure Called (w : World η ρ μ) : Prop where
  distinct : (w.frames.filterMap Frame.calls?).Nodup
  calling : ∀ n ∈ w.frames.filterMap Frame.calls?, ∃ q : Request η ρ, w.requests[n]? = some q ∧
    q.transactionId? ≠ none ∧ q.called = true ∧ q.answered = false
  answered : ∀ (n : ℕ) (q : Request η ρ), w.requests[n]? = some q → q.answered = true →
    q.called = true

theorem init_called : (init : World η ρ μ).Called := ⟨.nil,by simp [init],by simp [init]⟩

namespace Called

theorem setConnections (hc : w.Called) (cs : List Connection) :
    ({ w with connections := cs } : World η ρ μ).Called := ⟨hc.distinct,hc.calling,hc.answered⟩

theorem setFrames (hc : w.Called) {frames : List Frame}
    (hf : frames.filterMap Frame.calls? = w.frames.filterMap Frame.calls?) :
    ({ w with frames := frames } : World η ρ μ).Called :=
  ⟨hf ▸ hc.distinct,hf ▸ hc.calling,hc.answered⟩

theorem destroyAdapters (hc : w.Called) (ns : List ℕ) :
    ({ w with requests := Requests.destroyAdapters ns w.requests } : World η ρ μ).Called := by
  refine ⟨hc.distinct,fun n hn => ?_,fun n q hq ha => ?_⟩
  · obtain ⟨q,hq,hrest⟩ := hc.calling n hn
    obtain ⟨q',hq',rfl | ⟨rfl,-⟩⟩ := exists_destroyAdapters ns hq
    · exact ⟨q',hq',hrest⟩
    · exact ⟨_,hq',hrest⟩
  · rcases destroyAdapters_cases hq with ⟨-,q',hq',rfl⟩ | ⟨-,hq⟩
    · exact hc.answered n q' hq' ha
    · exact hc.answered n q hq ha

theorem push (hc : w.Called) {q : Request η ρ} (ha : q.answered = false) :
    ({ w with requests := w.requests ++ [q] } : World η ρ μ).Called := by
  refine ⟨hc.distinct,fun n hn => ?_,fun n p hp hx => ?_⟩
  · obtain ⟨p,hp,hrest⟩ := hc.calling n hn
    exact ⟨p,getElem?_concat_of_some hp,hrest⟩
  · rcases getElem?_concat_cases hp with ⟨-,rfl⟩ | hp
    · simp [ha] at hx
    · exact hc.answered n p hp hx

/-- An update of a request whose callback is not in progress. -/
theorem setRequest (hc : w.Called) {n : ℕ} {q : Request η ρ}
    (hn : n ∉ w.frames.filterMap Frame.calls?) (ha : q.answered = true → q.called = true) :
    ({ w with requests := w.requests.set n q } : World η ρ μ).Called := by
  refine ⟨hc.distinct,fun m hm => ?_,fun m p hp hx => ?_⟩
  · obtain ⟨p,hp,hrest⟩ := hc.calling m hm
    have hmn : n ≠ m := fun he => hn (he ▸ hm)
    exact ⟨p,by rw [List.getElem?_set_ne hmn,hp],hrest⟩
  · rcases getElem?_set_cases hp with ⟨-,rfl⟩ | ⟨-,hp⟩
    · exact ha hx
    · exact hc.answered m p hp hx

end Called

/-- The typed TS does not use a destroyed adapter. -/
theorem Step.called (h : w.Step a w') (hs : w.Tracked) (hc : w.Called)
    (he : w.entitled a = true) (hf : w.fault = none) : w'.Called ∧ w'.fault = none := by
  have hkept := hs.outstandingKept
  cases h with
  | create => exact ⟨hc.setConnections _,hf⟩
  | @send k c handler message hlive =>
    have hpush := (hc.destroyAdapters (c.cleanupCompleted w.complete).2).push
      (q:=⟨⟨handler,false,false⟩,c.channel,message,none,false,none⟩) rfl
    exact ⟨⟨hpush.distinct,hpush.calling,hpush.answered⟩,hf⟩
  | answer hframes => exact ⟨hc.setFrames (by rw [hframes]; rfl),hf⟩
  | @returns k n c q t rc frames hframes hlive hq =>
    have hcalls : frames.filterMap Frame.calls? = w.frames.filterMap Frame.calls? := by
      rw [hframes]; rfl
    obtain ⟨q₀,hq₀,hr⟩ := hs.sending n (by rw [hframes]; exact List.mem_cons_self)
    obtain rfl := Option.some.inj (hq.symm.trans hq₀)
    have hn : n ∉ w.frames.filterMap Frame.calls? := by
      intro hn
      obtain ⟨q',hq',ht,-⟩ := hc.calling n hn
      obtain rfl := Option.some.inj (hq.symm.trans hq')
      exact ht (q.transactionId?_of_none hr)
    have hset := hc.setRequest (q:={ q with result := some (t,rc) }) hn (hc.answered n q hq)
    exact ⟨((hset.destroyAdapters _).setFrames hcalls).setConnections _,hf⟩
  | @deliver n q response hq =>
    obtain ⟨ht,hcalled⟩ : q.transactionId? ≠ none ∧ q.called = false := by
      simpa [entitled,hq,Option.isSome_iff_ne_none] using he
    have ha : q.answered = false := by
      by_contra ha
      simp [hc.answered n q hq (by simpa using ha)] at hcalled
    have hd := hkept n q hq ((outstanding_iff hq).mpr ⟨ht,ha⟩)
    have hn : n ∉ w.frames.filterMap Frame.calls? := by
      intro hn
      obtain ⟨q',hq',-,hx,-⟩ := hc.calling n hn
      obtain rfl := Option.some.inj (hq.symm.trans hq')
      simp [hcalled] at hx
    have hset := hc.setRequest (q:={ q with called := true }) hn fun _ => rfl
    rw [callbackHandler,if_neg (by simp [hd])]
    refine ⟨⟨List.nodup_cons.mpr ⟨hn,hc.distinct⟩,fun m hm => ?_,hset.answered⟩,hf⟩
    rcases List.mem_cons.mp hm with rfl | hm
    · exact ⟨_,getElem?_set_self hq,ht,rfl,ha⟩
    · exact hset.calling m hm
  | @handled n q frames hframes hq =>
    have hcons : w.frames.filterMap Frame.calls? = n::frames.filterMap Frame.calls? := by
      rw [hframes]; rfl
    have hdistinct := hc.distinct
    rw [hcons] at hdistinct
    obtain ⟨hn,hdistinct⟩ := List.nodup_cons.mp hdistinct
    obtain ⟨q₀,hq₀,ht,hcalled,ha⟩ := hc.calling n (by rw [hcons]; exact List.mem_cons_self)
    obtain rfl := Option.some.inj (hq.symm.trans hq₀)
    have hd := hkept n q hq ((outstanding_iff hq).mpr ⟨ht,ha⟩)
    have htail : ({ w with frames := frames } : World η ρ μ).Called :=
      ⟨hdistinct,fun m hm => hc.calling m (by rw [hcons]; exact List.mem_cons_of_mem _ hm),
        hc.answered⟩
    rw [completed,if_neg (by simp [hd])]
    exact ⟨htail.setRequest hn fun _ => hcalled,hf⟩
  | move => exact ⟨hc.setConnections _,hf⟩
  | moveAssign => exact ⟨(hc.destroyAdapters _).setConnections _,hf⟩
  | destroy => exact ⟨(hc.destroyAdapters _).setConnections _,hf⟩

end World

/-- No adapter of an accepted request is destroyed before its `Callback_Handler` has returned; and a
typed TS that calls the callback of each accepted request at most once never calls into a destroyed
adapter. -/
def NoDanglingCallback (e : Execution step (World.init : World η ρ μ)) : Prop :=
  (∀ w ∈ e.visited, w.OutstandingKept) ∧
    ((∀ p ∈ e.steps, p.1.entitled p.2 = true) → ∀ w ∈ e.visited, w.fault = none)

theorem run_tracked {steps : List (World η ρ μ × Act η ρ μ)} (h : Run step World.init steps w)
    (hn : ∀ p ∈ steps, ¬p.1.Loses p.2) : w.Tracked :=
  h.invariant_of (C:=fun w a => ¬World.Loses w a) World.init_tracked
    (fun _ _ _ hs hl hstep => (step_cases hstep).2.tracked hs (Bool.eq_false_iff.mpr hl)) hn

/-- No callback dangles in a run if and only if no step of it gives away the map of a connection
with an outstanding request or accepts a request under the id of one. -/
theorem noDanglingCallback_iff (e : Execution step (World.init : World η ρ μ)) :
    NoDanglingCallback e ↔ ∀ p ∈ e.steps, ¬p.1.Loses p.2 := by
  have hiff : (∀ w ∈ e.visited, w.OutstandingKept) ↔ ∀ p ∈ e.steps, ¬p.1.Loses p.2 := by
    refine e.forall_visited_iff (fun steps w hr hn => ?_) fun steps w a w' hr hn hs hl => ?_
    · exact (run_tracked hr hn).outstandingKept
    · exact (step_cases hs).2.lost (run_tracked hr hn) hl
  refine ⟨fun h => hiff.mp h.1,fun hn => ⟨hiff.mpr hn,fun he => ?_⟩⟩
  refine e.forall_visited fun steps w hsteps hr => ?_
  have hi := hr.invariant_of (I:=fun w => w.Tracked ∧ w.Called ∧ w.fault = none)
    (C:=fun w a => ¬w.Loses a ∧ w.entitled a = true)
    ⟨World.init_tracked,World.init_called,rfl⟩ (fun w a w' hi hc hs => by
      have h := (step_cases hs).2
      exact ⟨h.tracked hi.1 (Bool.eq_false_iff.mpr hc.1),h.called hi.1 hi.2.1 hc.2 hi.2.2⟩)
    fun p hp => ⟨hn p (hsteps.subset hp),he p (hsteps.subset hp)⟩
  exact hi.2.2

/-- A connection is destroyed while its request is outstanding, and the response arrives. -/
def destroyedConnection : Execution step (World.init : World Unit Unit Unit) :=
  .ofLabels [.create ⟨0,4⟩,.send 0 () (),.answer 7 .inProgress,.returns,.destroy 0,.deliver 0 ()]
    (by decide)

/-- The typed TS, which may call back, uses the destroyed adapter. -/
theorem destroyedConnection_dangles : ¬NoDanglingCallback destroyedConnection ∧
    destroyedConnection.final.fault = some 0 :=
  ⟨fun h => absurd (h.2 (by decide) _ destroyedConnection.final_mem_visited) (by decide),by decide⟩

end Blush.Requests
