import Blush.Requests.Step

/-! The adapters of outstanding requests. The typed TS may use its pointer to an adapter until the
adapter's `Callback_Handler` has returned; the connection must own the adapter until then. -/
namespace Blush.Requests
open Face Slots Transition
variable {η ρ μ : Type} {w w' : World η ρ μ} {a : Act η ρ μ}

namespace Request
variable (q : Request η ρ)

/-- `Callback_Handler` was called and has returned. -/
def answered : Bool := q.callbackReturn.isSome

/-- `Send_Message_Async` returned another code than `NO_ERROR` and `IN_PROGRESS`. -/
def refused : Bool := q.result.isSome && q.transactionId?.isNone

@[simp] theorem destroyAdapter_answered : q.destroyAdapter.answered = q.answered := rfl

end Request

namespace Frame

def request : Frame → ℕ
  | .send _ n _ _ => n
  | .callback n => n

def isSend : Frame → Bool
  | .send .. => true
  | .callback _ => false

/-- Two calls about one request, the first inside the second: its callback inside its `send`. -/
def Inside (f g : Frame) : Prop := f.request = g.request → f.isSend = false ∧ g.isSend = true

end Frame

namespace World

/-- What the typed TS and the application promise of the next step: the id of a request that gets
accepted differs from that of every accepted request on the same connection id that is not
answered; a callback is called once, and not after a refusal; an object whose map holds a request
that is not answered is not destroyed or overwritten. -/
def contract (w : World η ρ μ) : Act η ρ μ → Bool
  | .returns =>
    match w.frames with
    | .send _ n t rc::_ => !accepted rc || w.requests.all fun q =>
        some q.channel != w.requests[n]?.map Request.channel || q.transactionId? != some t ||
          q.answered
    | _ => true
  | .deliver n _ => w.requests[n]?.all fun q => !q.called && !q.refused
  | .moveAssign k _ | .destroy k => w.connections[k]?.all fun c =>
      c.owned.all fun n => w.requests[n]?.all Request.answered
  | _ => true

/-- The map of some object with that connection id holds the adapter under the id `t`. -/
def Holds (w : World η ρ μ) (channel : Channel) (t : ℤ) (n : ℕ) : Prop :=
  ∃ k c, w.live? k = some c ∧ c.channel = channel ∧ c.pending.lookup t = some n

/-- No adapter is destroyed while its request is being sent, while its `Callback_Handler` runs, or
when the request was accepted and `Callback_Handler` has not returned. -/
def AdaptersKept (w : World η ρ μ) : Prop :=
  ∀ n q, w.requests[n]? = some q → q.adapter.destroyed = true →
    (∀ f ∈ w.frames, f.request ≠ n) ∧ (q.transactionId? ≠ none → q.answered = true)

/-- Every accepted request that is not answered is in the map under its transaction id. -/
def PendingKept (w : World η ρ μ) : Prop :=
  ∀ n q t, w.requests[n]? = some q → q.transactionId? = some t → q.answered = false →
    w.Holds q.channel t n

/-- What is true of the request number `n` in every state. -/
structure RequestSound (w : World η ρ μ) (n : ℕ) (q : Request η ρ) : Prop where
  sending : q.result = none → ∃ f ∈ w.frames, f.request = n ∧ f.isSend = true
  called : q.answered = true → q.called = true
  complete : q.adapter.complete = true → q.answered = true
  kept : q.adapter.destroyed = true →
    q.result ≠ none ∧ (q.transactionId? ≠ none → q.answered = true)
  pending : ∀ t, q.transactionId? = some t → q.answered = false → w.Holds q.channel t n

/-- The invariant of the runs that meet the contract. -/
structure Sound (w : World η ρ μ) : Prop where
  stack : w.frames.Pairwise Frame.Inside
  sending : ∀ k n t rc, .send k n t rc ∈ w.frames → ∃ c q, w.live? k = some c ∧
    w.requests[n]? = some q ∧ q.result = none ∧ q.channel = c.channel
  calling : ∀ n, .callback n ∈ w.frames → ∃ q, w.requests[n]? = some q ∧ q.called = true ∧
    q.answered = false ∧ q.adapter.destroyed = false
  request : ∀ n q, w.requests[n]? = some q → w.RequestSound n q
  entry : ∀ (k : ℕ) (c : Connection) (t : ℤ) (n : ℕ), w.connections[k]? = some c →
    c.pending.lookup t = some n →
      ∃ q : Request η ρ, w.requests[n]? = some q ∧ q.transactionId? = some t ∧
        q.channel = c.channel

/-- Nothing uses the adapter number `n` any more. -/
def Released (w : World η ρ μ) (n : ℕ) : Prop :=
  .callback n ∉ w.frames ∧ ∀ q, w.requests[n]? = some q →
    q.result ≠ none ∧ (q.transactionId? ≠ none → q.answered = true)

theorem init_sound : (init : World η ρ μ).Sound :=
  ⟨.nil,by simp [init],by simp [init],by simp [init],by simp [init]⟩

namespace Sound

theorem adaptersKept (hs : w.Sound) : w.AdaptersKept := by
  intro n q hq hd
  obtain ⟨hr,ha⟩ := (hs.request n q hq).kept hd
  refine ⟨fun f hf hn => ?_,ha⟩
  cases f with
  | send k m t rc =>
    obtain rfl : m = n := hn
    obtain ⟨c,q',-,hq',hr',-⟩ := hs.sending k m t rc hf
    obtain rfl := Option.some.inj (hq.symm.trans hq')
    exact hr hr'
  | callback m =>
    obtain rfl : m = n := hn
    obtain ⟨q',hq',-,-,hd'⟩ := hs.calling m hf
    obtain rfl := Option.some.inj (hq.symm.trans hq')
    simp [hd] at hd'

theorem pendingKept (hs : w.Sound) : w.PendingKept :=
  fun n q t hq ht ha => (hs.request n q hq).pending t ht ha

/-- The answered requests of a map are released. -/
theorem released (hs : w.Sound) {k n : ℕ} {t : ℤ} {c : Connection} {q : Request η ρ}
    (hc : w.connections[k]? = some c) (hn : c.pending.lookup t = some n)
    (hq : w.requests[n]? = some q) (ha : q.answered = true) : w.Released n := by
  obtain ⟨q',hq',ht,-⟩ := hs.entry k c t n hc hn
  obtain rfl := Option.some.inj (hq.symm.trans hq')
  refine ⟨fun hf => ?_,fun q'' hq'' => ?_⟩
  · obtain ⟨q',hq',-,ha',-⟩ := hs.calling n hf
    obtain rfl := Option.some.inj (hq.symm.trans hq')
    simp [ha] at ha'
  · obtain rfl := Option.some.inj (hq.symm.trans hq'')
    refine ⟨fun hr => ?_,fun _ => ha⟩
    rw [Request.transactionId?_of_none _ hr] at ht
    simp at ht

/-- Other objects, as long as the objects of the calls of `send` keep their place, the requests
that are not answered stay in some map, and no entry is made up. -/
theorem setConnections (hs : w.Sound) (cs : List Connection)
    (hsend : ∀ k n t rc c, .send k n t rc ∈ w.frames → w.live? k = some c →
      ∃ c', ({ w with connections := cs } : World η ρ μ).live? k = some c' ∧
        c'.channel = c.channel)
    (hholds : ∀ n q t, w.requests[n]? = some q → q.answered = false → w.Holds q.channel t n →
      ({ w with connections := cs } : World η ρ μ).Holds q.channel t n)
    (hentry : ∀ (k : ℕ) (c : Connection) (t : ℤ) (n : ℕ), cs[k]? = some c →
      c.pending.lookup t = some n → ∃ (j : ℕ) (c' : Connection), w.connections[j]? = some c' ∧
        c'.channel = c.channel ∧ c'.pending.lookup t = some n) :
    ({ w with connections := cs } : World η ρ μ).Sound where
  stack := hs.stack
  sending k n t rc hf := by
    obtain ⟨c,q,hc,hq,hr,hch⟩ := hs.sending k n t rc hf
    obtain ⟨c',hc',he⟩ := hsend k n t rc c hf hc
    exact ⟨c',q,hc',hq,hr,hch.trans he.symm⟩
  calling := hs.calling
  request n q hq := by
    have h := hs.request n q hq
    exact ⟨h.sending,h.called,h.complete,h.kept,fun t ht ha =>
      hholds n q t hq ha (h.pending t ht ha)⟩
  entry k c t n hc hn := by
    obtain ⟨j,c',hc',hch,hn'⟩ := hentry k c t n hc hn
    obtain ⟨q,hq,ht,hq'⟩ := hs.entry j c' t n hc' hn'
    exact ⟨q,hq,ht,hq'.trans hch⟩

/-- The destruction of adapters that nothing uses. -/
theorem destroyAdapters (hs : w.Sound) (ns : List ℕ) (hr : ∀ n ∈ ns, w.Released n) :
    ({ w with requests := destroyAdapters ns w.requests } : World η ρ μ).Sound where
  stack := hs.stack
  sending k n t rc hf := by
    obtain ⟨c,q,hc,hq,hn,hch⟩ := hs.sending k n t rc hf
    obtain ⟨q',hq',rfl | ⟨rfl,-⟩⟩ := exists_destroyAdapters ns hq
    · exact ⟨c,_,hc,hq',hn,hch⟩
    · exact ⟨c,_,hc,hq',hn,hch⟩
  calling n hf := by
    obtain ⟨q,hq,hq2⟩ := hs.calling n hf
    obtain ⟨q',hq',rfl | ⟨rfl,hn⟩⟩ := exists_destroyAdapters ns hq
    · exact ⟨_,hq',hq2⟩
    · exact absurd hf (hr n hn).1
  request n q hq := by
    rcases destroyAdapters_cases hq with ⟨hn,q',hq',rfl⟩ | ⟨-,hq'⟩
    · have h := hs.request n q' hq'
      exact ⟨h.sending,h.called,h.complete,fun _ => (hr n hn).2 q' hq',h.pending⟩
    · have h := hs.request n q hq'
      exact ⟨h.sending,h.called,h.complete,h.kept,h.pending⟩
  entry k c t n hc hn := by
    obtain ⟨q,hq,ht,hch⟩ := hs.entry k c t n hc hn
    obtain ⟨q',hq',rfl | ⟨rfl,-⟩⟩ := exists_destroyAdapters ns hq
    · exact ⟨_,hq',ht,hch⟩
    · exact ⟨_,hq',ht,hch⟩

/-- The clean-up of one object: its map loses entries of answered requests only. -/
theorem cleanup (hs : w.Sound) {k : ℕ} {c : Connection} (hc : w.live? k = some c) :
    ({ w with
      connections := w.connections.set k (c.cleanupCompleted w.complete).1
      requests := Requests.destroyAdapters (c.cleanupCompleted w.complete).2 w.requests } :
        World η ρ μ).Sound := by
  obtain ⟨hk,hlive⟩ := live?_eq_some.mp hc
  have hanswered : ∀ n q, w.requests[n]? = some q → w.complete n = true → q.answered = true := by
    intro n q hq hn
    obtain ⟨q',hq',hx⟩ := complete_eq_true.mp hn
    obtain rfl := Option.some.inj (hq.symm.trans hq')
    exact (hs.request n q hq).complete hx
  have hset : ∀ j c', w.live? j = some c' → ∃ c'', ({ w with
      connections := w.connections.set k (c.cleanupCompleted w.complete).1 } :
        World η ρ μ).live? j = some c'' ∧ c''.channel = c'.channel ∧
          ∀ t n, c'.pending.lookup t = some n → w.complete n = false →
            c''.pending.lookup t = some n := by
    intro j c' hc'
    by_cases hj : j = k
    · subst j
      obtain rfl := Option.some.inj (hc.symm.trans hc')
      exact ⟨_,live?_eq_some.mpr ⟨getElem?_set_self hk,hlive⟩,rfl,fun t n hn hx =>
        Connection.lookup_cleanupCompleted.mpr ⟨hn,hx⟩⟩
    · obtain ⟨hj',hlive'⟩ := live?_eq_some.mp hc'
      exact ⟨c',live?_eq_some.mpr ⟨(List.getElem?_set_ne (Ne.symm hj)).trans hj',hlive'⟩,rfl,
        fun t n hn _ => hn⟩
  refine (hs.setConnections (w.connections.set k (c.cleanupCompleted w.complete).1)
    ?_ ?_ ?_).destroyAdapters _ ?_
  · intro j n t rc c' _ hc'
    obtain ⟨c'',hc'',hch,-⟩ := hset j c' hc'
    exact ⟨c'',hc'',hch⟩
  · rintro n q t hq ha ⟨j,c',hc',hch,hn⟩
    obtain ⟨c'',hc'',hch',hn'⟩ := hset j c' hc'
    refine ⟨j,c'',hc'',hch'.trans hch,hn' t n hn ?_⟩
    cases hx : w.complete n with
    | false => rfl
    | true => simp [hanswered n q hq hx] at ha
  · intro j c' t n hc' hn
    rcases getElem?_set_cases hc' with ⟨rfl,rfl⟩ | ⟨-,hc'⟩
    · exact ⟨j,c,hk,rfl,(Connection.lookup_cleanupCompleted.mp hn).1⟩
    · exact ⟨j,c',hc',rfl,hn⟩
  · intro n hn
    obtain ⟨⟨t,ht⟩,hx⟩ := Connection.mem_cleanupCompleted hn
    obtain ⟨q,hq,-⟩ := hs.entry k c t n hk ht
    have h := hs.released hk ht hq (hanswered n q hq hx)
    exact ⟨h.1,h.2⟩

/-- A new request, inside `Send_Message_Async`. -/
theorem push (hs : w.Sound) {k : ℕ} {c : Connection} {q : Request η ρ} {t : ℤ}
    (rc : ReturnCode) (hc : w.live? k = some c) (hch : q.channel = c.channel) (hr : q.result = none)
    (ha : q.answered = false) (hx : q.adapter.complete = false)
    (hd : q.adapter.destroyed = false) :
    ({ w with
      requests := w.requests ++ [q]
      frames := .send k w.requests.length t rc::w.frames } : World η ρ μ).Sound := by
  have hlt : ∀ f ∈ w.frames, f.request < w.requests.length := by
    intro f hf
    cases f with
    | send j n t rc =>
      obtain ⟨-,q',-,hq',-⟩ := hs.sending j n t rc hf
      exact (List.getElem?_eq_some_iff.mp hq').1
    | callback n =>
      obtain ⟨q',hq',-⟩ := hs.calling n hf
      exact (List.getElem?_eq_some_iff.mp hq').1
  constructor
  · refine List.pairwise_cons.mpr ⟨fun f hf he => ?_,hs.stack⟩
    exact absurd (hlt f hf) (Nat.not_lt.mpr (le_of_eq he))
  · intro j n t' rc' hf
    rcases List.mem_cons.mp hf with he | hf
    · obtain ⟨rfl,rfl,rfl,rfl⟩ := Frame.send.inj he
      exact ⟨c,q,hc,List.getElem?_concat_length,hr,hch⟩
    · obtain ⟨c',q',hc',hq',hr',hch'⟩ := hs.sending j n t' rc' hf
      exact ⟨c',q',hc',getElem?_concat_of_some hq',hr',hch'⟩
  · intro n hf
    obtain ⟨q',hq',h⟩ := hs.calling n (by simpa using hf)
    exact ⟨q',getElem?_concat_of_some hq',h⟩
  · intro n q' hq'
    rcases getElem?_concat_cases hq' with ⟨rfl,rfl⟩ | hq'
    · exact ⟨fun _ => ⟨_,List.mem_cons_self,rfl,rfl⟩,by simp [ha],by simp [hx],by simp [hd],
        by simp [Request.transactionId?_of_none _ hr]⟩
    · have h := hs.request n q' hq'
      refine ⟨fun hr => ?_,h.called,h.complete,h.kept,h.pending⟩
      obtain ⟨f,hf,hn⟩ := h.sending hr
      exact ⟨f,List.mem_cons_of_mem _ hf,hn⟩
  · intro j c' t' n hc' hn
    obtain ⟨q',hq',h⟩ := hs.entry j c' t' n hc' hn
    exact ⟨q',getElem?_concat_of_some hq',h⟩

/-- The innermost call leaves, and the other calls keep their requests. -/
theorem stack_tail (hs : w.Sound) {f : Frame} {frames : List Frame} (hf : w.frames = f::frames) :
    frames.Pairwise Frame.Inside ∧
      ∀ g ∈ frames, f.request = g.request → f.isSend = false ∧ g.isSend = true := by
  have h := hs.stack
  rw [hf] at h
  exact ⟨(List.pairwise_cons.mp h).2,(List.pairwise_cons.mp h).1⟩

/-- `Callback_Handler` starts. -/
theorem callback (hs : w.Sound) {n : ℕ} {q : Request η ρ} {calls : List (η × μ)}
    (hq : w.requests[n]? = some q) (hd : q.adapter.destroyed = false) (hcalled : q.called = false) :
    ({ w with
      requests := w.requests.set n { q with called := true }
      frames := .callback n::w.frames
      calls := calls } : World η ρ μ).Sound := by
  have ha : q.answered = false := by
    cases hx : q.answered with
    | false => rfl
    | true => simp [(hs.request n q hq).called hx] at hcalled
  have hnot : .callback n ∉ w.frames := by
    intro hf
    obtain ⟨q',hq',hc,-⟩ := hs.calling n hf
    obtain rfl := Option.some.inj (hq.symm.trans hq')
    simp [hcalled] at hc
  constructor
  · refine List.pairwise_cons.mpr ⟨fun f hf he => ⟨rfl,?_⟩,hs.stack⟩
    cases f with
    | send => rfl
    | callback m =>
      obtain rfl : n = m := he
      exact absurd hf hnot
  · intro k m t rc hf
    obtain ⟨c,q',hc,hq'⟩ := hs.sending k m t rc (by simpa using hf)
    exact ⟨c,exists_and_left.mpr ⟨hc,exists_getElem?_set hq id ⟨q',hq'⟩⟩⟩
  · intro m hf
    rcases List.mem_cons.mp hf with he | hf
    · obtain rfl : m = n := Frame.callback.inj he
      exact ⟨_,getElem?_set_self hq,rfl,ha,hd⟩
    · obtain ⟨q',hq',h⟩ := hs.calling m hf
      have hm : n ≠ m := by
        rintro rfl
        exact hnot hf
      exact ⟨q',(List.getElem?_set_ne hm).trans hq',h⟩
  · intro m q' hq'
    rcases getElem?_set_cases hq' with ⟨rfl,rfl⟩ | ⟨-,hq'⟩
    · have h := hs.request m q hq
      refine ⟨fun hr => ?_,fun _ => rfl,h.complete,h.kept,h.pending⟩
      obtain ⟨f,hf,hn⟩ := h.sending hr
      exact ⟨f,List.mem_cons_of_mem _ hf,hn⟩
    · have h := hs.request m q' hq'
      refine ⟨fun hr => ?_,h.called,h.complete,h.kept,h.pending⟩
      obtain ⟨f,hf,hn⟩ := h.sending hr
      exact ⟨f,List.mem_cons_of_mem _ hf,hn⟩
  · intro j c t m hc hm
    exact exists_getElem?_set hq id (hs.entry j c t m hc hm)

/-- `Callback_Handler` returns. -/
theorem answer (hs : w.Sound) {n : ℕ} {q : Request η ρ} {frames : List Frame}
    (hf : w.frames = .callback n::frames) (hq : w.requests[n]? = some q) :
    ({ w with
      requests := w.requests.set n { q with
        adapter := { q.adapter with complete := true }, callbackReturn := some .noError }
      frames := frames } : World η ρ μ).Sound := by
  obtain ⟨q',hq',hcalled,-,hd⟩ := hs.calling n (by simp [hf])
  obtain rfl := Option.some.inj (hq.symm.trans hq')
  obtain ⟨hstack,hinside⟩ := hs.stack_tail hf
  have hmem : ∀ f ∈ frames, f ∈ w.frames := fun f h => hf ▸ List.mem_cons_of_mem _ h
  have hsend : ∀ m, (∃ f ∈ w.frames, f.request = m ∧ f.isSend = true) →
      ∃ f ∈ frames, f.request = m ∧ f.isSend = true := by
    rintro m ⟨f,hm,hn,hx⟩
    rw [hf] at hm
    rcases List.mem_cons.mp hm with rfl | hm
    · simp [Frame.isSend] at hx
    · exact ⟨f,hm,hn,hx⟩
  constructor
  · exact hstack
  · intro k m t rc hm
    obtain ⟨c,q',hc,hq'⟩ := hs.sending k m t rc (hmem _ hm)
    exact ⟨c,exists_and_left.mpr ⟨hc,exists_getElem?_set hq id ⟨q',hq'⟩⟩⟩
  · intro m hm
    obtain ⟨q',hq',h⟩ := hs.calling m (hmem _ hm)
    have hn : n ≠ m := by
      rintro rfl
      simpa [Frame.isSend] using (hinside _ hm rfl).2
    exact ⟨q',(List.getElem?_set_ne hn).trans hq',h⟩
  · intro m q' hq'
    rcases getElem?_set_cases hq' with ⟨rfl,rfl⟩ | ⟨-,hq'⟩
    · have h := hs.request m q hq
      exact ⟨fun hr => hsend m (h.sending hr),fun _ => hcalled,fun _ => rfl,
        fun hx => by simp [hd] at hx,fun t _ ha => by simp [Request.answered] at ha⟩
    · have h := hs.request m q' hq'
      exact ⟨fun hr => hsend m (h.sending hr),h.called,h.complete,h.kept,h.pending⟩
  · intro j c t m hc hm
    exact exists_getElem?_set hq id (hs.entry j c t m hc hm)

/-- `Send_Message_Async` returns and `send` with it: `c'` is the connection with the entry for an
accepted request. The adapters that `send` drops are destroyed afterwards. -/
theorem record (hs : w.Sound) {k n : ℕ} {t : ℤ} {rc : ReturnCode} {c : Connection}
    (c' : Connection) {q : Request η ρ} {frames : List Frame}
    (hf : w.frames = .send k n t rc::frames)
    (hc : w.live? k = some c) (hq : w.requests[n]? = some q) (hlive : c'.alive = true)
    (hch' : c'.channel = c.channel)
    (hnew : accepted rc = true → c'.pending.lookup t = some n)
    (hkept : ∀ m q' t', w.requests[m]? = some q' → q'.answered = false →
      c.pending.lookup t' = some m → c'.pending.lookup t' = some m)
    (hentry : ∀ t' m, c'.pending.lookup t' = some m →
      (m = n ∧ t' = t ∧ accepted rc = true) ∨ c.pending.lookup t' = some m) :
    ({ w with
      connections := w.connections.set k c'
      requests := w.requests.set n { q with result := some (t,rc) }
      frames := frames } : World η ρ μ).Sound := by
  obtain ⟨c₀,q₀,hc₀,hq₀,hr,hch⟩ := hs.sending k n t rc (by simp [hf])
  obtain rfl := Option.some.inj (hc.symm.trans hc₀)
  obtain rfl := Option.some.inj (hq.symm.trans hq₀)
  obtain ⟨hk,-⟩ := live?_eq_some.mp hc
  obtain ⟨hstack,hinside⟩ := hs.stack_tail hf
  have hmem : ∀ f ∈ frames, f ∈ w.frames := fun f h => hf ▸ List.mem_cons_of_mem _ h
  have hne : ∀ f ∈ frames, n ≠ f.request := fun f h he => by
    simpa [Frame.isSend] using (hinside f h he).1
  have hset : ∀ j c₁, w.live? j = some c₁ → ∃ c₂, ({ w with
      connections := w.connections.set k c' } : World η ρ μ).live? j = some c₂ ∧
        c₂.channel = c₁.channel ∧ (j = k ∧ c₁ = c ∧ c₂ = c' ∨ c₂ = c₁) := by
    intro j c₁ hc₁
    by_cases hj : j = k
    · subst j
      obtain rfl := Option.some.inj (hc.symm.trans hc₁)
      exact ⟨c',live?_eq_some.mpr ⟨getElem?_set_self hk,hlive⟩,hch',.inl ⟨rfl,rfl,rfl⟩⟩
    · obtain ⟨hj',hlive'⟩ := live?_eq_some.mp hc₁
      exact ⟨c₁,live?_eq_some.mpr ⟨(List.getElem?_set_ne (Ne.symm hj)).trans hj',hlive'⟩,rfl,
        .inr rfl⟩
  constructor
  · exact hstack
  · intro j m t' rc' hm
    obtain ⟨c₁,q₁,hc₁,hq₁,hr₁,hch₁⟩ := hs.sending j m t' rc' (hmem _ hm)
    obtain ⟨c₂,hc₂,he,-⟩ := hset j c₁ hc₁
    exact ⟨c₂,q₁,hc₂,(List.getElem?_set_ne (hne _ hm)).trans hq₁,hr₁,hch₁.trans he.symm⟩
  · intro m hm
    obtain ⟨q₁,hq₁,h⟩ := hs.calling m (hmem _ hm)
    exact ⟨q₁,(List.getElem?_set_ne (hne _ hm)).trans hq₁,h⟩
  · intro m q₁ hq₁
    rcases getElem?_set_cases hq₁ with ⟨rfl,rfl⟩ | ⟨hm,hold⟩
    · have h := hs.request m q hq
      refine ⟨by simp,h.called,h.complete,fun hd => absurd hr (h.kept hd).1,fun t' ht' _ => ?_⟩
      obtain ⟨ha,rfl⟩ : accepted rc = true ∧ t = t' := by simpa [Request.transactionId?] using ht'
      exact ⟨k,c',live?_eq_some.mpr ⟨getElem?_set_self hk,hlive⟩,hch'.trans hch.symm,hnew ha⟩
    · have h := hs.request m q₁ hold
      refine ⟨fun hr₁ => ?_,h.called,h.complete,h.kept,fun t' ht' ha => ?_⟩
      · obtain ⟨f,hmf,hfm,hfs⟩ := h.sending hr₁
        rw [hf] at hmf
        rcases List.mem_cons.mp hmf with rfl | hmf
        · exact absurd hfm.symm hm
        · exact ⟨f,hmf,hfm,hfs⟩
      · obtain ⟨j,c₁,hc₁,hch₁,hl⟩ := h.pending t' ht' ha
        obtain ⟨c₂,hc₂,he,⟨-,rfl,rfl⟩ | rfl⟩ := hset j c₁ hc₁
        · exact ⟨j,_,hc₂,he.trans hch₁,hkept m q₁ t' hold ha hl⟩
        · exact ⟨j,_,hc₂,hch₁,hl⟩
  · have hold : ∀ (j : ℕ) (c₁ : Connection) t' m, w.connections[j]? = some c₁ →
        c₁.pending.lookup t' = some m → ∃ q₁ : Request η ρ,
          (w.requests.set n { q with result := some (t,rc) })[m]? = some q₁ ∧
            q₁.transactionId? = some t' ∧ q₁.channel = c₁.channel := by
      intro j c₁ t' m hc₁ hm
      obtain ⟨q₁,hq₁,ht₁,hch₁⟩ := hs.entry j c₁ t' m hc₁ hm
      have hn : n ≠ m := by
        rintro rfl
        obtain rfl := Option.some.inj (hq.symm.trans hq₁)
        rw [Request.transactionId?_of_none _ hr] at ht₁
        simp at ht₁
      exact ⟨q₁,(List.getElem?_set_ne hn).trans hq₁,ht₁,hch₁⟩
    intro j c₁ t' m hc₁ hm
    rcases getElem?_set_cases hc₁ with ⟨rfl,rfl⟩ | ⟨-,hc₁⟩
    · rcases hentry t' m hm with ⟨rfl,rfl,ha⟩ | hm
      · exact ⟨_,getElem?_set_self hq,by simp [Request.transactionId?,ha],hch.trans hch'.symm⟩
      · obtain ⟨q₁,hq₁,ht₁,hch₁⟩ := hold j c t' m hk hm
        exact ⟨q₁,hq₁,ht₁,hch₁.trans hch'.symm⟩
    · exact hold j c₁ t' m hc₁ hm

/-- `send` returns: an overwritten entry is that of an answered request. -/
theorem finish (hs : w.Sound) {k n : ℕ} {t : ℤ} {rc : ReturnCode} {c : Connection}
    {q : Request η ρ} {frames : List Frame} (hf : w.frames = .send k n t rc::frames)
    (hc : w.live? k = some c) (hq : w.requests[n]? = some q)
    (hfresh : accepted rc = true → ∀ q' ∈ w.requests, q'.channel = q.channel →
      q'.transactionId? = some t → q'.answered = true) :
    (w.finish k n c q t rc frames).Sound := by
  obtain ⟨c₀,q₀,hc₀,hq₀,hr,hch⟩ := hs.sending k n t rc (by simp [hf])
  obtain rfl := Option.some.inj (hc.symm.trans hc₀)
  obtain rfl := Option.some.inj (hq.symm.trans hq₀)
  obtain ⟨hk,hlive⟩ := live?_eq_some.mp hc
  have hne : ∀ f ∈ frames, n ≠ f.request := fun f h he => by
    simpa [Frame.isSend] using ((hs.stack_tail hf).2 f h he).1
  have hanswered : accepted rc = true → ∀ m q', w.requests[m]? = some q' →
      c.pending.lookup t = some m → q'.answered = true := by
    intro ha m q' hq' hm
    obtain ⟨q₁,hq₁,ht₁,hch₁⟩ := hs.entry k c t m hk hm
    obtain rfl := Option.some.inj (hq'.symm.trans hq₁)
    exact hfresh ha q' (List.mem_of_getElem? hq') (hch₁.trans hch.symm) ht₁
  cases ha : accepted rc with
  | true =>
    have h := hs.record (c.assign t n).1 hf hc hq hlive rfl
      (fun _ => Connection.lookup_assign_self) (fun m q' t' hq' hx hm => by
        have ht' : t' ≠ t := by
          rintro rfl
          simp [hanswered ha m q' hq' hm] at hx
        exact (Connection.lookup_assign_of_ne ht').trans hm) (fun t' m hm => by
        by_cases ht' : t' = t
        · subst t'
          rw [Connection.lookup_assign_self] at hm
          exact .inl ⟨(Option.some.inj hm).symm,rfl,ha⟩
        · exact .inr ((Connection.lookup_assign_of_ne ht').symm.trans hm))
    have hd := h.destroyAdapters (c.assign t n).2 fun m hm => by
      have hl := Connection.mem_assign hm
      obtain ⟨q',hq',-⟩ := hs.entry k c t m hk hl
      obtain ⟨hcb,hrel⟩ := hs.released hk hl hq' (hanswered ha m q' hq' hl)
      refine ⟨fun hx => hcb (hf ▸ List.mem_cons_of_mem _ hx),fun q₁ hq₁ => ?_⟩
      rcases getElem?_set_cases hq₁ with ⟨rfl,rfl⟩ | ⟨-,hq₁⟩
      · exact absurd hr (hrel q hq).1
      · exact hrel q₁ hq₁
    simpa only [World.finish,ha,if_true] using hd
  | false =>
    have h := hs.record c hf hc hq hlive rfl (fun hx => by simp [ha] at hx)
      (fun _ _ _ _ _ hm => hm) (fun _ _ hm => .inr hm)
    have hd := h.destroyAdapters [n] fun m hm => by
      obtain rfl := List.mem_singleton.mp hm
      refine ⟨fun hx => hne _ hx rfl,fun q₁ hq₁ => ?_⟩
      rcases getElem?_set_cases hq₁ with ⟨-,rfl⟩ | ⟨hx,-⟩
      · exact ⟨by simp,by simp [Request.transactionId?,ha]⟩
      · exact absurd rfl hx
    simpa only [World.finish,ha,if_false,Bool.false_eq_true] using hd

/-- An object that holds no unanswered request loses its map, by its destruction or by an
assignment. -/
theorem discard (hs : w.Sound) {k : ℕ} {c : Connection} {cs : List Connection}
    (hc : w.live? k = some c) (hanswered : ∀ n ∈ c.owned, ∀ q, w.requests[n]? = some q →
      q.answered = true)
    (hsend : ∀ j n t rc c', .send j n t rc ∈ w.frames → w.live? j = some c' →
      ∃ c'', ({ w with connections := cs } : World η ρ μ).live? j = some c'' ∧
        c''.channel = c'.channel)
    (hholds : ∀ j c' t n, j ≠ k → w.live? j = some c' → c'.pending.lookup t = some n →
      ({ w with connections := cs } : World η ρ μ).Holds c'.channel t n)
    (hentry : ∀ (j : ℕ) (c' : Connection) (t : ℤ) (n : ℕ), cs[j]? = some c' →
      c'.pending.lookup t = some n → ∃ (i : ℕ) (c'' : Connection), w.connections[i]? = some c'' ∧
        c''.channel = c'.channel ∧ c''.pending.lookup t = some n) :
    ({ w with connections := cs, requests := Requests.destroyAdapters c.owned w.requests } :
      World η ρ μ).Sound := by
  have hk := (live?_eq_some.mp hc).1
  refine (hs.setConnections _ hsend ?_ hentry).destroyAdapters _ fun n hn => ?_
  · rintro n q t hq ha ⟨j,c',hc',hch,hn⟩
    by_cases hj : j = k
    · subst j
      obtain rfl := Option.some.inj (hc.symm.trans hc')
      simp [hanswered n (Connection.mem_owned.mpr ⟨t,hn⟩) q hq] at ha
    · exact hch ▸ hholds j c' t n hj hc' hn
  · obtain ⟨t,ht⟩ := Connection.mem_owned.mp hn
    obtain ⟨q,hq,-⟩ := hs.entry k c t n hk ht
    have h := hs.released hk ht hq (hanswered n hn q hq)
    exact ⟨h.1,h.2⟩

end Sound

/-- What the contract says about a map that goes away. -/
theorem answered_of_contract {k : ℕ} {c : Connection} (hc : w.live? k = some c)
    (h : (w.connections[k]?.all fun c =>
      c.owned.all fun n => w.requests[n]?.all Request.answered) = true) :
    ∀ n ∈ c.owned, ∀ q, w.requests[n]? = some q → q.answered = true := by
  intro n hn q hq
  rw [(live?_eq_some.mp hc).1,Option.all_some] at h
  have := List.all_eq_true.mp h n hn
  rwa [hq,Option.all_some] at this

/-- What the contract says about the id of a request that gets accepted. -/
theorem fresh_of_contract {k n : ℕ} {t : ℤ} {rc : ReturnCode} {frames : List Frame}
    {q : Request η ρ} (hf : w.frames = .send k n t rc::frames) (hq : w.requests[n]? = some q)
    (h : w.contract .returns = true) :
    accepted rc = true → ∀ q' ∈ w.requests, q'.channel = q.channel →
      q'.transactionId? = some t → q'.answered = true := by
  intro ha q' hq' hch ht
  unfold contract at h
  simp only [hf,ha,hq,Bool.not_true,Bool.false_or,List.all_eq_true] at h
  have := h q' hq'
  simpa [hch,ht] using this

/-- What the contract says about a callback. -/
theorem not_destroyed_of_contract (hs : w.Sound) {n : ℕ} {response : μ} {q : Request η ρ}
    (hq : w.requests[n]? = some q) (h : w.contract (.deliver n response) = true) :
    q.called = false ∧ q.adapter.destroyed = false := by
  have h : q.called = false ∧ q.refused = false := by
    rw [contract,hq,Option.all_some] at h
    simpa using h
  refine ⟨h.1,?_⟩
  cases hd : q.adapter.destroyed with
  | false => rfl
  | true =>
    have hr := hs.request n q hq
    obtain ⟨hres,hans⟩ := hr.kept hd
    have hnot : q.transactionId? = none := by
      by_contra ht
      simp [hr.called (hans ht)] at h
    simp [Request.refused,hnot,Option.isSome_iff_ne_none.mpr hres] at h

theorem live?_set_of_ne {k j : ℕ} {c : Connection} (c' : Connection) (hj : j ≠ k)
    (hc : w.live? j = some c) :
    ({ w with connections := w.connections.set k c' } : World η ρ μ).live? j = some c := by
  obtain ⟨h,ha⟩ := live?_eq_some.mp hc
  exact live?_eq_some.mpr ⟨(List.getElem?_set_ne (Ne.symm hj)).trans h,ha⟩

namespace Sound

/-- A new object. -/
theorem create (hs : w.Sound) (c : Connection) (hc : c.pending = ∅) :
    ({ w with connections := w.connections ++ [c] } : World η ρ μ).Sound := by
  refine hs.setConnections _ ?_ ?_ ?_
  · intro k n t rc c' _ hc'
    obtain ⟨hk,ha⟩ := live?_eq_some.mp hc'
    exact ⟨c',live?_eq_some.mpr ⟨getElem?_concat_of_some hk,ha⟩,rfl⟩
  · rintro n q t _ _ ⟨k,c',hc',hch,hn⟩
    obtain ⟨hk,ha⟩ := live?_eq_some.mp hc'
    exact ⟨k,c',live?_eq_some.mpr ⟨getElem?_concat_of_some hk,ha⟩,hch,hn⟩
  · intro k c' t n hc' hn
    rcases getElem?_concat_cases hc' with ⟨-,rfl⟩ | hc'
    · simp [hc] at hn
    · exact ⟨k,c',hc',rfl,hn⟩

/-- The TS answers a call of `send`. -/
theorem sendAnswered (hs : w.Sound) {k n : ℕ} {t t' : ℤ} {rc rc' : ReturnCode}
    {frames : List Frame} (hf : w.frames = .send k n t rc::frames) :
    ({ w with frames := .send k n t' rc'::frames } : World η ρ μ).Sound := by
  refine ⟨?_,?_,?_,?_,hs.entry⟩
  · have h := hs.stack
    rw [hf] at h
    exact List.pairwise_cons.mpr ⟨(List.pairwise_cons.mp h).1,(List.pairwise_cons.mp h).2⟩
  · intro j m t₁ rc₁ hm
    rcases List.mem_cons.mp hm with he | hm
    · obtain ⟨rfl,rfl,-,-⟩ := Frame.send.inj he
      exact hs.sending j m t rc (by simp [hf])
    · exact hs.sending j m t₁ rc₁ (hf ▸ List.mem_cons_of_mem _ hm)
  · intro m hm
    rcases List.mem_cons.mp hm with he | hm
    · simp at he
    · exact hs.calling m (hf ▸ List.mem_cons_of_mem _ hm)
  · intro m q hq
    have h := hs.request m q hq
    refine ⟨fun hr => ?_,h.called,h.complete,h.kept,h.pending⟩
    obtain ⟨f,hm,hn,hx⟩ := h.sending hr
    rw [hf] at hm
    rcases List.mem_cons.mp hm with rfl | hm
    · exact ⟨_,List.mem_cons_self,hn,rfl⟩
    · exact ⟨f,List.mem_cons_of_mem _ hm,hn,hx⟩

/-- The move constructor. -/
theorem move (hs : w.Sound) {k : ℕ} {c : Connection} (hi : w.idle k = true)
    (hc : w.live? k = some c) :
    ({ w with connections := w.connections.set k c.emptied ++ [c] } : World η ρ μ).Sound := by
  obtain ⟨hk,ha⟩ := live?_eq_some.mp hc
  have hold : ∀ j c', j ≠ k → w.live? j = some c' → ({ w with
      connections := w.connections.set k c.emptied ++ [c] } : World η ρ μ).live? j = some c' := by
    intro j c' hj hc'
    obtain ⟨hj',ha'⟩ := live?_eq_some.mp (live?_set_of_ne c.emptied hj hc')
    exact live?_eq_some.mpr ⟨getElem?_concat_of_some hj',ha'⟩
  have hnew : ({ w with connections := w.connections.set k c.emptied ++ [c] } :
      World η ρ μ).live? w.connections.length = some c := by
    refine live?_eq_some.mpr ⟨?_,ha⟩
    simp
  refine hs.setConnections _ ?_ ?_ ?_
  · intro j n t rc c' hm hc'
    exact ⟨c',hold j c' (ne_of_idle hi hm) hc',rfl⟩
  · rintro n q t _ _ ⟨j,c',hc',hch,hn⟩
    by_cases hj : j = k
    · subst j
      obtain rfl := Option.some.inj (hc.symm.trans hc')
      exact ⟨_,c,hnew,hch,hn⟩
    · exact ⟨j,c',hold j c' hj hc',hch,hn⟩
  · intro j c' t n hc' hn
    rcases getElem?_concat_cases hc' with ⟨-,rfl⟩ | hc'
    · exact ⟨k,_,hk,rfl,hn⟩
    · rcases getElem?_set_cases hc' with ⟨rfl,rfl⟩ | ⟨-,hc'⟩
      · simp at hn
      · exact ⟨j,c',hc',rfl,hn⟩

/-- The move assignment, all of whose adapters were answered. -/
theorem moveAssign (hs : w.Sound) {k j : ℕ} {c c' : Connection} (hk : w.idle k = true)
    (hj : w.idle j = true) (hne : k ≠ j) (hc : w.live? k = some c) (hc' : w.live? j = some c')
    (hanswered : ∀ n ∈ c.owned, ∀ q, w.requests[n]? = some q → q.answered = true) :
    ({ w with
      connections := (w.connections.set k c').set j c'.emptied
      requests := Requests.destroyAdapters c.owned w.requests } : World η ρ μ).Sound := by
  obtain ⟨hk',ha⟩ := live?_eq_some.mp hc
  obtain ⟨hj',ha'⟩ := live?_eq_some.mp hc'
  have hother : ∀ i c₁, i ≠ k → i ≠ j → w.live? i = some c₁ → ({ w with
      connections := (w.connections.set k c').set j c'.emptied } : World η ρ μ).live? i =
        some c₁ := by
    intro i c₁ hik hij hc₁
    obtain ⟨h,hx⟩ := live?_eq_some.mp hc₁
    refine live?_eq_some.mpr ⟨?_,hx⟩
    rw [List.getElem?_set_ne (Ne.symm hij),List.getElem?_set_ne (Ne.symm hik)]
    exact h
  refine hs.discard hc hanswered ?_ ?_ ?_
  · intro i n t rc c₁ hm hc₁
    exact ⟨c₁,hother i c₁ (ne_of_idle hk hm) (ne_of_idle hj hm) hc₁,rfl⟩
  · intro i c₁ t n hi hc₁ hn
    by_cases hij : i = j
    · subst i
      obtain rfl := Option.some.inj (hc'.symm.trans hc₁)
      refine ⟨k,c',live?_eq_some.mpr ⟨?_,ha'⟩,rfl,hn⟩
      rw [List.getElem?_set_ne (Ne.symm hne)]
      exact getElem?_set_self hk'
    · exact ⟨i,c₁,hother i c₁ hi hij hc₁,rfl,hn⟩
  · intro i c₁ t n hc₁ hn
    rcases getElem?_set_cases hc₁ with ⟨rfl,rfl⟩ | ⟨-,hc₁⟩
    · simp at hn
    · rcases getElem?_set_cases hc₁ with ⟨rfl,rfl⟩ | ⟨-,hc₁⟩
      · exact ⟨j,_,hj',rfl,hn⟩
      · exact ⟨i,c₁,hc₁,rfl,hn⟩

/-- The destructor, all of whose adapters were answered. -/
theorem destroy (hs : w.Sound) {k : ℕ} {c : Connection} (hi : w.idle k = true)
    (hc : w.live? k = some c)
    (hanswered : ∀ n ∈ c.owned, ∀ q, w.requests[n]? = some q → q.answered = true) :
    ({ w with
      connections := w.connections.set k { c.emptied with alive := false }
      requests := Requests.destroyAdapters c.owned w.requests } : World η ρ μ).Sound := by
  refine hs.discard hc hanswered ?_ ?_ ?_
  · intro j n t rc c₁ hm hc₁
    exact ⟨c₁,live?_set_of_ne _ (ne_of_idle hi hm) hc₁,rfl⟩
  · intro j c₁ t n hj hc₁ hn
    exact ⟨j,c₁,live?_set_of_ne _ hj hc₁,rfl,hn⟩
  · intro j c₁ t n hc₁ hn
    rcases getElem?_set_cases hc₁ with ⟨rfl,rfl⟩ | ⟨-,hc₁⟩
    · simp at hn
    · exact ⟨j,c₁,hc₁,rfl,hn⟩

end Sound

/-- Every step that meets the contract keeps the invariant and uses no destroyed adapter. -/
theorem Step.sound (h : w.Step a w') (hs : w.Sound) (hfault : w.fault = none)
    (hcontract : w.contract a = true) : w'.Sound ∧ w'.fault = none := by
  cases h with
  | create => exact ⟨hs.create _ rfl,hfault⟩
  | @send k c handler message hc =>
    obtain ⟨hk,ha⟩ := live?_eq_some.mp hc
    refine ⟨?_,hfault⟩
    have h := (hs.cleanup hc).push (k:=k) (c:=(c.cleanupCompleted w.complete).1)
      (q:=⟨⟨handler,false,false⟩,c.channel,message,none,false,none⟩) (t:=calleeProvidesTid)
      .notAvailable (live?_eq_some.mpr ⟨getElem?_set_self hk,ha⟩) rfl rfl rfl rfl rfl
    simpa [World.send,Requests.destroyAdapters] using h
  | answer hf => exact ⟨hs.sendAnswered hf,hfault⟩
  | returns hf hc hq => exact ⟨hs.finish hf hc hq (fresh_of_contract hf hq hcontract),hfault⟩
  | deliver hq =>
    obtain ⟨hcalled,hd⟩ := not_destroyed_of_contract hs hq hcontract
    rw [callbackHandler,if_neg (by simp [hd])]
    exact ⟨hs.callback hq hd hcalled,hfault⟩
  | @handled n q frames hf hq =>
    obtain ⟨q',hq',-,-,hd⟩ := hs.calling n (by simp [hf])
    obtain rfl := Option.some.inj (hq.symm.trans hq')
    rw [completed,if_neg (by simp [hd])]
    exact ⟨hs.answer hf hq,hfault⟩
  | move hi hc => exact ⟨hs.move hi hc,hfault⟩
  | moveAssign hk hj hne hc hc' =>
    exact ⟨hs.moveAssign hk hj hne hc hc' (answered_of_contract hc hcontract),hfault⟩
  | destroy hi hc => exact ⟨hs.destroy hi hc (answered_of_contract hc hcontract),hfault⟩

/-- The handler that a call of `send` passes. -/
def sentHandler? : Act η ρ μ → Option η
  | .send _ handler _ => some handler
  | _ => none

/-- The response that a call of `Callback_Handler` delivers, with the number of the request. -/
def delivery? : Act η ρ μ → Option (ℕ × μ)
  | .deliver n response => some (n,response)
  | _ => none

/-- The handlers of the table. -/
def handlers (w : World η ρ μ) : List η := w.requests.map fun q => q.adapter.handler

theorem handlers_destroyAdapters (ns : List ℕ) (l : List (Request η ρ)) :
    (destroyAdapters ns l).map (fun q => q.adapter.handler) =
      l.map fun q => q.adapter.handler := by
  apply List.ext_getElem?
  intro n
  rw [List.getElem?_map,List.getElem?_map,getElem?_destroyAdapters,Option.map_map]
  congr 1
  funext q
  by_cases hn : n ∈ ns <;> simp [hn]

/-- A request keeps its handler; only `send` adds one. -/
theorem Step.handlers (h : w.Step a w') :
    w'.handlers = w.handlers ++ (sentHandler? a).toList := by
  cases h with
  | create | answer | move => simp [World.handlers,sentHandler?]
  | send => simp [World.handlers,sentHandler?,World.send,handlers_destroyAdapters]
  | returns hf hc hq =>
    simp only [World.handlers,World.finish,handlers_destroyAdapters,sentHandler?,
      Option.toList_none,List.append_nil]
    exact map_set_of_eq hq rfl
  | deliver hq =>
    rw [callbackHandler]
    split
    · simp [World.handlers,sentHandler?]
    · simpa [World.handlers,sentHandler?] using map_set_of_eq hq rfl
  | handled hf hq =>
    rw [completed]
    split
    · simp [World.handlers,sentHandler?]
    · simpa [World.handlers,sentHandler?] using map_set_of_eq hq rfl
  | moveAssign | destroy => simp [World.handlers,sentHandler?,handlers_destroyAdapters]

/-- The call that a delivery to the request number `n` makes. -/
def CallOf (hs : List η) (call : η × μ) (d : ℕ × μ) : Prop :=
  hs[d.1]? = some call.1 ∧ call.2 = d.2

theorem CallOf.append {hs hs' : List η} {call : η × μ} {d : ℕ × μ} (h : CallOf hs call d) :
    CallOf (hs ++ hs') call d :=
  ⟨(List.getElem?_append_left (List.getElem?_eq_some_iff.mp h.1).1).trans h.1,h.2⟩

/-- Only a delivery calls a handler, that of its own request. -/
theorem Step.calls_cases (h : w.Step a w') : w'.calls = w.calls ∨
    ∃ n q response, a = .deliver n response ∧ w.requests[n]? = some q ∧
      w'.calls = w.calls ++ [(q.adapter.handler,response)] := by
  cases h with
  | @deliver n q response hq =>
    rw [callbackHandler]
    split
    · exact .inl rfl
    · exact .inr ⟨n,q,response,rfl,hq,rfl⟩
  | handled hf hq =>
    left
    rw [completed]
    split <;> rfl
  | create | send | answer | returns | move | moveAssign | destroy => exact .inl rfl

/-- When the contract is met, every delivery calls the handler with the delivered response. -/
theorem Step.calls (h : w.Step a w') (hs : w.Sound) (hcontract : w.contract a = true) :
    ∃ new, w'.calls = w.calls ++ new ∧
      List.Forall₂ (CallOf w.handlers) new (delivery? a).toList := by
  rcases h.calls_cases with hc | ⟨n,q,response,rfl,hq,hc⟩
  · cases h with
    | @deliver n q response hq =>
      obtain ⟨-,hd⟩ := not_destroyed_of_contract hs hq hcontract
      rw [callbackHandler,if_neg (by simp [hd])] at hc
      simp at hc
    | create | send | answer | returns | handled | move | moveAssign | destroy =>
      exact ⟨[],hc.trans (List.append_nil _).symm,.nil⟩
  · refine ⟨_,hc,.cons ⟨?_,rfl⟩ .nil⟩
    rw [World.handlers,List.getElem?_map,hq]
    rfl

end World

/-- The handlers passed to `send` in a run, in the order of the calls. -/
def sentHandlers (steps : List (World η ρ μ × Act η ρ μ)) : List η :=
  steps.filterMap fun p => World.sentHandler? p.2

/-- The responses delivered in a run, in order, each with the number of its request. -/
def deliveries (steps : List (World η ρ μ × Act η ρ μ)) : List (ℕ × μ) :=
  steps.filterMap fun p => World.delivery? p.2

/-- What every run that meets the contract establishes at its end. -/
theorem run_sound {steps : List (World η ρ μ × Act η ρ μ)} (h : Run step World.init steps w)
    (hc : ∀ p ∈ steps, p.1.contract p.2 = true) :
    w.Sound ∧ w.fault = none ∧ w.handlers = sentHandlers steps ∧
      List.Forall₂ (World.CallOf w.handlers) w.calls (deliveries steps) := by
  induction h with
  | refl => exact ⟨World.init_sound,rfl,rfl,.nil⟩
  | @next steps s a s' before hs ih =>
    obtain ⟨hsound,hfault,hhandlers,hcalls⟩ := ih fun p hp => hc p (List.mem_append_left _ hp)
    have hcontract := hc (s,a) (by simp)
    have hstep := (step_cases hs).2
    obtain ⟨hsound',hfault'⟩ := hstep.sound hsound hfault hcontract
    obtain ⟨new,hnew,hcall⟩ := hstep.calls hsound hcontract
    refine ⟨hsound',hfault',?_,?_⟩
    · rw [hstep.handlers,hhandlers]
      simp [sentHandlers,Slots.filterMap_cons_toList]
    · have hd : deliveries (steps ++ [(s,a)]) = deliveries steps ++ (World.delivery? a).toList := by
        simp [deliveries,Slots.filterMap_cons_toList]
      rw [hnew,hd,hstep.handlers]
      exact List.rel_append (hcalls.imp fun _ _ h => h.append) (hcall.imp fun _ _ h => h.append)

/-- In every run in which the typed TS gives each accepted request an id of its own among those
that are not answered, and calls each callback once and none after a refusal: no destroyed adapter
is used and none is destroyed too early, the maps hold the requests that are not answered, and the
handlers are called with the responses to their own requests. -/
theorem adapters_outlive_callbacks (e : Execution step (World.init : World η ρ μ))
    (h : ∀ p ∈ e.steps, p.1.contract p.2 = true) :
    (∀ w ∈ e.visited, w.fault = none ∧ w.AdaptersKept ∧ w.PendingKept) ∧
      List.Forall₂ (World.CallOf (sentHandlers e.steps)) e.final.calls (deliveries e.steps) := by
  constructor
  · refine e.forall_visited fun steps w hp hr => ?_
    obtain ⟨hsound,hfault,-⟩ := run_sound hr fun p hm => h p (hp.subset hm)
    exact ⟨hfault,hsound.adaptersKept,hsound.pendingKept⟩
  · obtain ⟨-,-,hhandlers,hcalls⟩ := run_sound e.run h
    exact hhandlers ▸ hcalls

/-- A request that is answered inside `Send_Message_Async`, by a handler that sends another one;
this one is answered after a move of the connection, and a third send cleans up. -/
def nestedRequests : Execution step (World.init : World ℕ Unit ℕ) :=
  .ofLabels [.create ⟨0,4⟩,.send 0 10 (),.deliver 0 100,.send 0 11 (),.answer 7 .inProgress,
    .returns,.handled,.answer 5 .noError,.returns,.move 0,.deliver 1 101,.handled,.send 1 12 (),
    .answer 5 .invalidParam,.returns] (by decide)

theorem nestedRequests_adapters :
    (∀ w ∈ nestedRequests.visited, w.fault = none ∧ w.AdaptersKept ∧ w.PendingKept) ∧
      List.Forall₂ (World.CallOf (sentHandlers nestedRequests.steps)) nestedRequests.final.calls
        (deliveries nestedRequests.steps) :=
  adapters_outlive_callbacks nestedRequests (by decide)

end Blush.Requests
