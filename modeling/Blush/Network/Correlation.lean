import Blush.Connections.Step
import Blush.Requests.Adapters
import Blush.Network.Model

/-! A response reaches the request it answers. Everything in the network that carries a transaction
id belongs to a request; as long as no two requests share an id, the callback registered for the id
of a response is that of the request whose handler sent it. It is not enough that the requests
still without an answer have different ids: a request can be answered more than once. -/
namespace Blush.Network
open Face Slots Transition
variable {η ρ μ θ π : Type}

/-- No id stands for two requests. -/
def Consistent (l : List (ℤ × Origin)) : Prop := ∀ x ∈ l, ∀ y ∈ l, x.1 = y.1 → x.2 = y.2

namespace Consistent
variable {l l' : List (ℤ × Origin)}

theorem mono (h : Consistent l) (hl : ∀ x ∈ l', x ∈ l) : Consistent l' :=
  fun x hx y hy he => h x (hl x hx) y (hl y hy) he

/-- One request more, with an id of its own. -/
theorem cons {x : ℤ × Origin} (h : Consistent l) (hx : ∀ y ∈ l, y.1 ≠ x.1) :
    Consistent (x::l) := by
  intro y hy z hz he
  rcases List.mem_cons.mp hy with rfl | hy' <;> rcases List.mem_cons.mp hz with rfl | hz'
  · rfl
  · exact absurd he.symm (hx z hz')
  · exact absurd he (hx y hy')
  · exact h y hy' z hz' he

end Consistent

def InFlight.tag {β : Type} (x : InFlight β) : ℤ × Origin := (x.transactionId,x.origin)

def Incoming.tag (x : Incoming ρ) : ℤ × Origin := (x.sender.transactionId,x.origin)

namespace World
variable {w w' : World η ρ μ θ π} {a : Act η ρ μ θ π}

/-- The ids in use, each with its request: of the registered callbacks, the messages in flight and
the senders. -/
def tags (w : World η ρ μ θ π) : List (ℤ × Origin) :=
  w.registered.entries.map (fun x => (x.1,x.2)) ++ w.requests.map InFlight.tag ++
    w.responders.flatMap (fun v => v.world.frames.map fun f => f.message.tag) ++
      w.responses.map InFlight.tag

/-- The ids of the accepted requests of a process whose `send` or `Callback_Handler` has not
returned. -/
def outstandingIds (v : Requests.World η ρ μ) : List ℤ :=
  v.requests.filterMap (fun q => if q.answered then none else q.transactionId?) ++
    v.frames.filterMap fun f =>
      match f with
      | .send _ _ t rc => if Requests.accepted rc then some t else none
      | .callback _ => none

/-- The id of a request that the TS accepts is not that of an outstanding request, and an id
provided by the caller of `Send_Message` is left unchanged. -/
def uniqueIds (w : World η ρ μ θ π) : Act η ρ μ θ π → Bool
  | .submit _ t rc => !Requests.accepted rc || w.requesters.all fun v => t ∉ outstandingIds v
  | .sendResponse d j _ writtenBack _ =>
    (w.replying? d j).all fun x => writtenBack == x.2.message.sender.transactionId
  | _ => true

/-- What the TS promises of the next step: the id of a request it accepts is not in use, for an
outstanding request, in flight or in a sender, and an id provided by the caller of `Send_Message`
is left unchanged. -/
def contract (w : World η ρ μ θ π) : Act η ρ μ θ π → Bool
  | .submit _ t rc => !Requests.accepted rc || w.tags.all fun x => x.1 != t
  | .sendResponse d j _ writtenBack _ =>
    (w.replying? d j).all fun x => writtenBack == x.2.message.sender.transactionId
  | _ => true

/-- The response that a step sends, with the request whose sender it goes through. -/
def reply? (w : World η ρ μ θ π) : Act η ρ μ θ π → Option (Origin × μ)
  | .sendResponse d j response _ _ =>
    (w.replying? d j).map fun x => (x.2.message.origin,response)
  | _ => none

theorem mem_tags {x : ℤ × Origin} : x ∈ w.tags ↔
    w.registered.lookup x.1 = some x.2 ∨ (∃ m ∈ w.requests, m.tag = x) ∨
      (∃ v ∈ w.responders, ∃ f ∈ v.world.frames, f.message.tag = x) ∨
        ∃ m ∈ w.responses, m.tag = x := by
  have hreg : x ∈ w.registered.entries.map (fun x => (x.1,x.2)) ↔
      w.registered.lookup x.1 = some x.2 := by
    constructor
    · intro h
      obtain ⟨⟨t,o⟩,hm,rfl⟩ := List.mem_map.mp h
      exact AList.mem_lookup_iff.mpr hm
    · intro h
      exact List.mem_map.mpr ⟨⟨x.1,x.2⟩,AList.mem_lookup_iff.mp h,rfl⟩
  simp only [tags,List.mem_append,hreg,List.mem_map,List.mem_flatMap,or_assoc]

/-- The invariant: the ids are consistent, and the handles of the responders are linked. -/
structure Sound (w : World η ρ μ θ π) : Prop where
  consistent : Consistent w.tags
  linked : ∀ v ∈ w.responders, v.world.Linked

theorem init_sound (m n : ℕ) : (init m n : World η ρ μ θ π).Sound := by
  constructor
  · intro x hx
    rcases mem_tags.mp hx with h | h | ⟨v,hv,f,hf,-⟩ | h
    · simp [init] at h
    · simp [init] at h
    · obtain rfl := List.eq_of_mem_replicate hv
      simp [Connections.World.init] at hf
    · simp [init] at h
  · intro v hv
    obtain rfl := List.eq_of_mem_replicate hv
    exact Connections.run_linked .refl

/-- What a step does, by the call or the event it executes. -/
inductive Step (w : World η ρ μ θ π) : Act η ρ μ θ π → World η ρ μ θ π → Prop
  | requester {s b v v'} (hlocal : requesterLocal b = true) (hv : w.requesters[s]? = some v)
      (hs : Requests.step v b = some v') :
      Step w (.requester s b) { w with requesters := w.requesters.set s v' }
  | refused {s t rc x v v'} (ha : Requests.accepted rc = false) (hx : w.sending? s = some x)
      (hv : w.requesters[s]? = some v) (hs : Requests.step v (.answer t rc) = some v') :
      Step w (.submit s t rc) { w with requesters := w.requesters.set s v' }
  | accepted {s t rc x v v'} (ha : Requests.accepted rc = true) (hx : w.sending? s = some x)
      (hv : w.requesters[s]? = some v) (hs : Requests.step v (.answer t rc) = some v') :
      Step w (.submit s t rc) { w with
        requesters := w.requesters.set s v'
        registered := w.registered.insert t ⟨s,x.1⟩
        requests := w.requests ++ [⟨t,x.2.message,⟨s,x.1⟩⟩] }
  | deliverRequest {i d k x id v v'} (hx : w.requests[i]? = some x)
      (hv : w.responders[d]? = some v) (hid : v.connectionIds[k]? = some id)
      (hs : Connections.step v.world (.callbackHandler k (.create id x)) = some v') :
      Step w (.deliverRequest i d k) { w with
        responders := w.responders.set d { v with world := v' }
        requests := w.requests.eraseIdx i }
  | createResponder {d id v v'} (hv : w.responders[d]? = some v)
      (hs : Connections.step v.world .create = some v') :
      Step w (.createResponder d id) { w with
        responders := w.responders.set d ⟨v',v.connectionIds ++ [id]⟩ }
  | responder {d b v v'} (hlocal : responderLocal b = true) (hv : w.responders[d]? = some v)
      (hs : Connections.step v.world b = some v') :
      Step w (.responder d b) { w with responders := w.responders.set d { v with world := v' } }
  | sendResponse {d j response t ok v f} (hf : w.replying? d j = some (v,f)) :
      Step w (.sendResponse d j response t ok) { w with
        responders := w.responders.set d
          (v.setFrame j { f with message := (f.message.sendResponse response t).2 })
        responses := if ok then w.responses ++ [(f.message.sendResponse response t).1]
          else w.responses }
  | deliverResponse {i x o v v'} (hx : w.responses[i]? = some x)
      (ho : w.registered.lookup x.transactionId = some o) (hv : w.requesters[o.site]? = some v)
      (hs : Requests.step v (.deliver o.request x.body) = some v') :
      Step w (.deliverResponse i) { w with
        requesters := w.requesters.set o.site v'
        registered := w.registered.erase x.transactionId
        responses := w.responses.eraseIdx i }
  | dropRequest {i} : Step w (.dropRequest i) { w with requests := w.requests.eraseIdx i }
  | dropResponse {i} : Step w (.dropResponse i) { w with responses := w.responses.eraseIdx i }

/-- A requester process takes a step and nothing else changes. -/
theorem requesterStep_cases {s : ℕ} {b : Requests.Act η ρ μ}
    (h : w.requesterStep s b = some w') : ∃ v v', w.requesters[s]? = some v ∧
      Requests.step v b = some v' ∧ w' = { w with requesters := w.requesters.set s v' } := by
  obtain ⟨v,hv,h⟩ := Option.bind_eq_some_iff.mp h
  obtain ⟨v',hs,rfl⟩ := Option.map_eq_some_iff.mp h
  exact ⟨v,v',hv,hs,rfl⟩

/-- A responder process takes a step and nothing else changes. -/
theorem responderStep_cases {d : ℕ} {b : Connections.Act θ π (Incoming ρ)}
    (h : w.responderStep d b = some w') : ∃ v v', w.responders[d]? = some v ∧
      Connections.step v.world b = some v' ∧
        w' = { w with responders := w.responders.set d { v with world := v' } } := by
  obtain ⟨v,hv,h⟩ := Option.bind_eq_some_iff.mp h
  obtain ⟨v',hs,rfl⟩ := Option.map_eq_some_iff.mp h
  exact ⟨v,v',hv,hs,rfl⟩

/-- The inversion of a step. -/
theorem step_cases (h : step w a = some w') : w.Step a w' := by
  cases a with
  | requester s b =>
    obtain ⟨hlocal,h⟩ := Option.ite_none_right_eq_some.mp h
    obtain ⟨v,v',hv,hs,rfl⟩ := requesterStep_cases h
    exact .requester hlocal hv hs
  | submit s t rc =>
    obtain ⟨x,hx,h⟩ := Option.bind_eq_some_iff.mp h
    obtain ⟨w₁,h₁,rfl⟩ := Option.map_eq_some_iff.mp h
    obtain ⟨v,v',hv,hs,rfl⟩ := requesterStep_cases h₁
    cases ha : Requests.accepted rc with
    | false => exact .refused ha hx hv hs
    | true => exact .accepted ha hx hv hs
  | deliverRequest i d k =>
    obtain ⟨x,hx,h⟩ := Option.bind_eq_some_iff.mp h
    obtain ⟨id,hid,h⟩ := Option.bind_eq_some_iff.mp h
    obtain ⟨w₁,h₁,rfl⟩ := Option.map_eq_some_iff.mp h
    obtain ⟨v,v',hv,hs,rfl⟩ := responderStep_cases h₁
    rw [hv,Option.bind_some] at hid
    exact .deliverRequest hx hv hid hs
  | createResponder d id =>
    obtain ⟨v,hv,h⟩ := Option.bind_eq_some_iff.mp h
    obtain ⟨v',hs,rfl⟩ := Option.map_eq_some_iff.mp h
    exact .createResponder hv hs
  | responder d b =>
    obtain ⟨hlocal,h⟩ := Option.ite_none_right_eq_some.mp h
    obtain ⟨v,v',hv,hs,rfl⟩ := responderStep_cases h
    exact .responder hlocal hv hs
  | sendResponse d j response t ok =>
    obtain ⟨⟨v,f⟩,hf,rfl⟩ := Option.map_eq_some_iff.mp h
    exact .sendResponse hf
  | deliverResponse i =>
    obtain ⟨x,hx,h⟩ := Option.bind_eq_some_iff.mp h
    obtain ⟨o,ho,h⟩ := Option.bind_eq_some_iff.mp h
    obtain ⟨w₁,h₁,rfl⟩ := Option.map_eq_some_iff.mp h
    obtain ⟨v,v',hv,hs,rfl⟩ := requesterStep_cases h₁
    exact .deliverResponse hx ho hv hs
  | dropRequest i =>
    obtain rfl := Option.some.inj h
    exact .dropRequest
  | dropResponse i =>
    obtain rfl := Option.some.inj h
    exact .dropResponse

/-- The process that is replying and the call whose sender it uses. -/
theorem replying?_cases {d j : ℕ} {v : ResponderSite θ π ρ}
    {f : Connections.Frame θ π (Incoming ρ)} (h : w.replying? d j = some (v,f)) :
    w.responders[d]? = some v ∧ v.world.frames[j]? = some f := by
  obtain ⟨v',hv,h⟩ := Option.bind_eq_some_iff.mp h
  obtain ⟨-,h⟩ := Option.ite_none_right_eq_some.mp h
  obtain ⟨f',hf,he⟩ := Option.map_eq_some_iff.mp h
  obtain ⟨rfl,rfl⟩ := Prod.mk.inj he
  exact ⟨hv,(Option.filter_eq_some_iff.mp hf).1⟩

/-- A responder process that steps keeps its handles linked and its senders; a delivery makes
one. -/
theorem responderStep_spec (hl : ∀ v ∈ w.responders, v.world.Linked) {d : ℕ}
    {b : Connections.Act θ π (Incoming ρ)} {v : ResponderSite θ π ρ}
    {v' : Connections.World θ π (Incoming ρ)} (ids : List ℤ) (hv : w.responders[d]? = some v)
    (hs : Connections.step v.world b = some v') :
    (∀ v ∈ w.responders.set d ⟨v',ids⟩, v.world.Linked) ∧
      ∀ v ∈ w.responders.set d ⟨v',ids⟩, ∀ f ∈ v.world.frames,
        (∃ k, b = .callbackHandler k f.message) ∨
          ∃ v' ∈ w.responders, ∃ f' ∈ v'.world.frames, f'.message = f.message := by
  have hmem := List.mem_of_getElem? hv
  have hstep := (Connections.step_cases (hl v hmem) hs).2
  refine ⟨forall_set (hstep.linked (hl v hmem)) hl,?_⟩
  refine forall_set (fun f hf => ?_) fun u hu f hf => .inr ⟨u,hu,f,hf,rfl⟩
  rcases hstep.message hf with hk | ⟨f',hf',he⟩
  · exact .inl hk
  · exact .inr ⟨v,hmem,f',hf',he⟩

/-- A step that adds no id keeps the invariant. -/
theorem Sound.of_subset (hs : w.Sound) (ht : ∀ x ∈ w'.tags, x ∈ w.tags)
    (hl : ∀ v ∈ w'.responders, v.world.Linked) : w'.Sound := ⟨hs.consistent.mono ht,hl⟩

/-- The ids of some parts of the network. -/
theorem tags_subset (hreg : ∀ t o, w'.registered.lookup t = some o → (t,o) ∈ w.tags)
    (hreq : ∀ m ∈ w'.requests, m.tag ∈ w.tags)
    (hframe : ∀ v ∈ w'.responders, ∀ f ∈ v.world.frames, f.message.tag ∈ w.tags)
    (hres : ∀ m ∈ w'.responses, m.tag ∈ w.tags) : ∀ x ∈ w'.tags, x ∈ w.tags := by
  intro x hx
  rcases mem_tags.mp hx with h | ⟨m,hm,rfl⟩ | ⟨v,hv,f,hf,rfl⟩ | ⟨m,hm,rfl⟩
  · exact hreg x.1 x.2 h
  · exact hreq m hm
  · exact hframe v hv f hf
  · exact hres m hm

theorem registered_tag {t : ℤ} {o : Origin} (h : w.registered.lookup t = some o) :
    (t,o) ∈ w.tags := mem_tags.mpr (.inl h)

theorem request_tag {m : InFlight ρ} (h : m ∈ w.requests) : m.tag ∈ w.tags :=
  mem_tags.mpr (.inr (.inl ⟨m,h,rfl⟩))

theorem frame_tag {v : ResponderSite θ π ρ} {f : Connections.Frame θ π (Incoming ρ)}
    (hv : v ∈ w.responders) (hf : f ∈ v.world.frames) : f.message.tag ∈ w.tags :=
  mem_tags.mpr (.inr (.inr (.inl ⟨v,hv,f,hf,rfl⟩)))

theorem response_tag {m : InFlight μ} (h : m ∈ w.responses) : m.tag ∈ w.tags :=
  mem_tags.mpr (.inr (.inr (.inr ⟨m,h,rfl⟩)))

/-- Responders that got no sender, and responses that go through senders. -/
theorem Sound.setResponders (hs : w.Sound) {l : List (ResponderSite θ π ρ)}
    {responses : List (InFlight μ)}
    (hframe : ∀ v ∈ l, ∀ f ∈ v.world.frames, f.message.tag ∈ w.tags)
    (hl : ∀ v ∈ l, v.world.Linked) (hres : ∀ m ∈ responses, m.tag ∈ w.tags) :
    ({ w with responders := l, responses := responses } : World η ρ μ θ π).Sound :=
  hs.of_subset (tags_subset (fun _ _ ht => registered_tag ht) (fun _ hm => request_tag hm) hframe
    hres) hl

/-- Messages that are sent again or lost. -/
theorem Sound.setMessages (hs : w.Sound) {requests : List (InFlight ρ)}
    {responses : List (InFlight μ)} (hreq : ∀ m ∈ requests, m.tag ∈ w.tags)
    (hres : ∀ m ∈ responses, m.tag ∈ w.tags) :
    ({ w with requests := requests, responses := responses } : World η ρ μ θ π).Sound :=
  hs.of_subset (tags_subset (fun _ _ ht => registered_tag ht) hreq
    (fun _ hv _ hf => frame_tag hv hf) hres) hs.linked

/-- A callback and a request under a fresh id. -/
theorem Sound.register (hs : w.Sound) {t : ℤ} {o : Origin} {body : ρ}
    (hfresh : ∀ y ∈ w.tags, y.1 ≠ t) :
    ({ w with
      registered := w.registered.insert t o
      requests := w.requests ++ [⟨t,body,o⟩] } : World η ρ μ θ π).Sound := by
  refine ⟨(hs.consistent.cons (x:=(t,o)) hfresh).mono fun x hx => ?_,hs.linked⟩
  rcases mem_tags.mp hx with hr | ⟨m,hm,rfl⟩ | ⟨v,hv,f,hf,rfl⟩ | ⟨m,hm,rfl⟩
  · by_cases ht : x.1 = t
    · rw [ht] at hr
      have ho := (AList.lookup_insert w.registered).symm.trans hr
      exact List.mem_cons.mpr (.inl (Prod.ext ht (Option.some.inj ho).symm))
    · exact List.mem_cons_of_mem _
        (registered_tag ((AList.lookup_insert_ne ht).symm.trans hr))
  · rcases List.mem_append.mp hm with hm | hm
    · exact List.mem_cons_of_mem _ (request_tag hm)
    · obtain rfl := List.mem_singleton.mp hm
      exact List.mem_cons_self
  · exact List.mem_cons_of_mem _ (frame_tag hv hf)
  · exact List.mem_cons_of_mem _ (response_tag hm)

/-- A step of the network that meets the contract keeps the invariant. -/
theorem Step.sound (h : w.Step a w') (hs : w.Sound) (hc : w.contract a = true) : w'.Sound := by
  cases h with
  | requester | refused => exact ⟨hs.consistent,hs.linked⟩
  | @accepted s t rc x v v' ha =>
    have hfresh : ∀ y ∈ w.tags, y.1 ≠ t := by
      simpa [contract,ha,List.all_eq_true] using hc
    have hset : ({ w with requesters := w.requesters.set s v' } : World η ρ μ θ π).Sound :=
      ⟨hs.consistent,hs.linked⟩
    exact hset.register hfresh
  | @deliverRequest i d k x id v v' hx hv _ hs' =>
    obtain ⟨hl,hf⟩ := responderStep_spec hs.linked v.connectionIds hv hs'
    refine hs.of_subset (tags_subset (fun _ _ ht => registered_tag ht) (fun m hm => ?_) ?_
      fun m hm => response_tag hm) hl
    · exact request_tag (List.mem_of_mem_eraseIdx hm)
    · intro u hu f hfm
      rcases hf u hu f hfm with ⟨k',he⟩ | ⟨u',hu',f',hf',he⟩
      · have hm := (Connections.Act.callbackHandler.inj he).2
        have := request_tag (List.mem_of_getElem? hx)
        rwa [← hm]
      · rw [← he]
        exact frame_tag hu' hf'
  | @createResponder d id v v' hv hs' =>
    obtain ⟨hl,hf⟩ := responderStep_spec hs.linked (v.connectionIds ++ [id]) hv hs'
    refine hs.setResponders (fun u hu f hfm => ?_) hl fun m hm => response_tag hm
    rcases hf u hu f hfm with ⟨k,hk⟩ | ⟨u',hu',f',hf',he⟩
    · simp at hk
    · rw [← he]
      exact frame_tag hu' hf'
  | @responder d b v v' hlocal hv hs' =>
    obtain ⟨hl,hf⟩ := responderStep_spec hs.linked v.connectionIds hv hs'
    refine hs.setResponders (fun u hu f hfm => ?_) hl fun m hm => response_tag hm
    rcases hf u hu f hfm with ⟨k,rfl⟩ | ⟨u',hu',f',hf',he⟩
    · simp [responderLocal] at hlocal
    · rw [← he]
      exact frame_tag hu' hf'
  | @sendResponse d j response t ok v f hf =>
    obtain ⟨hv,hj⟩ := replying?_cases hf
    have hmem := List.mem_of_getElem? hv
    have hfmem := List.mem_of_getElem? hj
    obtain rfl : t = f.message.sender.transactionId := by simpa [contract,hf] using hc
    refine hs.setResponders (forall_set (fun g hg => ?_) fun u hu g hg => frame_tag hu hg)
      (forall_set ⟨(hs.linked v hmem).inner,(hs.linked v hmem).owner⟩ hs.linked) fun m hm => ?_
    · exact forall_set (P:=fun g => g.message.tag ∈ w.tags) (frame_tag hmem hfmem)
        (fun g hg => frame_tag hmem hg) g hg
    · cases ok with
      | false => exact response_tag hm
      | true =>
        rcases List.mem_append.mp hm with hm | hm
        · exact response_tag hm
        · obtain rfl := List.mem_singleton.mp hm
          exact frame_tag hmem hfmem
  | @deliverResponse i x o v v' =>
    refine hs.of_subset (tags_subset (fun t o ht => ?_) (fun m hm => request_tag hm)
      (fun v hv f hf => frame_tag hv hf) fun m hm => ?_) hs.linked
    · have hne : t ≠ x.transactionId := by
        rintro rfl
        rw [AList.lookup_erase] at ht
        simp at ht
      exact registered_tag ((AList.lookup_erase_ne hne).symm.trans ht)
    · exact response_tag (List.mem_of_mem_eraseIdx hm)
  | dropRequest =>
    exact hs.setMessages (fun m hm => request_tag (List.mem_of_mem_eraseIdx hm))
      fun m hm => response_tag hm
  | dropResponse =>
    exact hs.setMessages (fun m hm => request_tag hm)
      fun m hm => response_tag (List.mem_of_mem_eraseIdx hm)

/-- A response comes into flight only as a reply. -/
theorem Step.responses (h : w.Step a w') {m : InFlight μ} (hm : m ∈ w'.responses) :
    m ∈ w.responses ∨ w.reply? a = some (m.origin,m.body) := by
  cases h with
  | requester | refused | accepted | deliverRequest | createResponder | responder | dropRequest =>
    exact .inl hm
  | @sendResponse d j response t ok v f hf =>
    cases ok with
    | false => exact .inl hm
    | true =>
      rcases List.mem_append.mp hm with hm | hm
      · exact .inl hm
      · obtain rfl := List.mem_singleton.mp hm
        right
        rw [reply?,hf]
        rfl
  | deliverResponse | dropResponse => exact .inl (List.mem_of_mem_eraseIdx hm)

/-- A step of a requester process calls at most one response handler, on a delivery to it. -/
theorem calls_set {s t : ℕ} {b : Requests.Act η ρ μ} {u u' v v' : Requests.World η ρ μ}
    (hu : w.requesters[t]? = some u) (hs : Requests.step u b = some u')
    (hv : w.requesters[s]? = some v) (hv' : (w.requesters.set t u')[s]? = some v') :
    v'.calls = v.calls ∨ ∃ n q response, t = s ∧ b = .deliver n response ∧
      v.requests[n]? = some q ∧ v'.calls = v.calls ++ [(q.adapter.handler,response)] := by
  rcases getElem?_set_cases hv' with ⟨rfl,rfl⟩ | ⟨-,hv'⟩
  · obtain rfl := Option.some.inj (hv.symm.trans hu)
    rcases (Requests.step_cases hs).2.calls_cases with hc | ⟨n,q,response,rfl,hq,hc⟩
    · exact .inl hc
    · exact .inr ⟨n,q,response,rfl,rfl,hq,hc⟩
  · obtain rfl := Option.some.inj (hv.symm.trans hv')
    exact .inl rfl

/-- A response handler is called only by the delivery of a response, and with that response, whose
request is then that of the handler. -/
theorem Step.calls (h : w.Step a w') (hs : w.Sound) {s : ℕ} {v v' : Requests.World η ρ μ}
    (hv : w.requesters[s]? = some v) (hv' : w'.requesters[s]? = some v') :
    v'.calls = v.calls ∨ ∃ n q m, v.requests[n]? = some q ∧ m ∈ w.responses ∧
      m.origin = ⟨s,n⟩ ∧ v'.calls = v.calls ++ [(q.adapter.handler,m.body)] := by
  cases h with
  | requester hlocal hu hu' =>
    rcases calls_set hu hu' hv hv' with hc | ⟨n,q,response,-,rfl,-⟩
    · exact .inl hc
    · simp [requesterLocal] at hlocal
  | refused _ _ hu hu' | accepted _ _ hu hu' =>
    rcases calls_set hu hu' hv hv' with hc | ⟨n,q,response,-,hb,-⟩
    · exact .inl hc
    · simp at hb
  | @deliverResponse i x o u u' hx ho hu hu' =>
    rcases calls_set hu hu' hv hv' with hc | ⟨n,q,response,hsite,hb,hq,hc⟩
    · exact .inl hc
    · obtain ⟨rfl,rfl⟩ := Requests.Act.deliver.inj hb
      have hm := List.mem_of_getElem? hx
      -- the callback registered for the id and the response with the id are of one request
      have ho' : o = x.origin :=
        hs.consistent _ (registered_tag ho) _ (response_tag hm) rfl
      exact .inr ⟨o.request,q,x,hq,hm,by rw [← ho',← hsite],hc⟩
  | deliverRequest | createResponder | responder | sendResponse | dropRequest | dropResponse =>
    obtain rfl := Option.some.inj (hv.symm.trans hv')
    exact .inl rfl

end World

/-- The responses that handlers sent in a run, each with the request whose sender it went
through. -/
def replies (steps : List (World η ρ μ θ π × Act η ρ μ θ π)) : List (Origin × μ) :=
  steps.filterMap fun p => p.1.reply? p.2

/-- A step calls at most one response handler of a process, and only with a response that was sent
before through a sender made for the request of that handler. -/
def Correlated (steps : List (World η ρ μ θ π × Act η ρ μ θ π)) : Prop :=
  ∀ before w a after, steps = before ++ (w,a)::after → ∀ w', step w a = some w' →
    ∀ s v v', w.requesters[s]? = some v → w'.requesters[s]? = some v' →
      v'.calls = v.calls ∨ ∃ k q response, v.requests[k]? = some q ∧
        v'.calls = v.calls ++ [(q.adapter.handler,response)] ∧
          (⟨s,k⟩,response) ∈ replies before

/-- What every run that meets the contract establishes at its end. -/
theorem run_sound {m n : ℕ} {w : World η ρ μ θ π} {steps : List (World η ρ μ θ π × Act η ρ μ θ π)}
    (h : Run step (World.init m n) steps w) (hc : ∀ p ∈ steps, p.1.contract p.2 = true) :
    w.Sound ∧ ∀ x ∈ w.responses, (x.origin,x.body) ∈ replies steps := by
  induction h with
  | refl => exact ⟨World.init_sound m n,by simp [World.init]⟩
  | @next steps w a w' before hs ih =>
    obtain ⟨hsound,hreplies⟩ := ih fun p hp => hc p (List.mem_append_left _ hp)
    have hstep := World.step_cases hs
    refine ⟨hstep.sound hsound (hc (w,a) (by simp)),fun x hx => ?_⟩
    rw [replies,List.filterMap_append]
    rcases hstep.responses hx with hx | hx
    · exact List.mem_append_left _ (hreplies x hx)
    · refine List.mem_append_right _ ?_
      simp [hx]

/-- In every run in which the ids that the TS gives are not in use and those it is given stay as
they are, the responses are correlated with the requests. -/
theorem responses_correlated {m n : ℕ} (e : Execution step (World.init m n : World η ρ μ θ π))
    (hc : ∀ p ∈ e.steps, p.1.contract p.2 = true) : Correlated e.steps := by
  intro before w a after he w' hs s v v' hv hv'
  have hrun := e.run
  rw [he] at hrun
  obtain ⟨u,hbefore,hafter⟩ := hrun.of_append
  obtain ⟨rfl,-⟩ := hafter.of_cons
  obtain ⟨hsound,hreplies⟩ := run_sound hbefore fun p hp => hc p (by simp [he,hp])
  rcases (World.step_cases hs).calls hsound hv hv' with h | ⟨k,q,x,hq,hx,ho,h⟩
  · exact .inl h
  · exact .inr ⟨k,q,x.body,hq,h,ho ▸ hreplies x hx⟩

/-- Two requests on one connection; the first is delivered while a handler is still replying to the
second, and the handlers reply in the order of the requests' deliveries. -/
def nestedReplies : Execution step (World.init 1 1 : World ℕ ℕ ℕ Unit Unit) :=
  .ofLabels [.requester 0 (.create ⟨0,4⟩),.createResponder 0 4,
    .responder 0 (.registerHandler 0 ⟨(),none⟩ true),.requester 0 (.send 0 10 1),
    .submit 0 5 .noError,.requester 0 .returns,.requester 0 (.send 0 11 2),.submit 0 6 .inProgress,
    .requester 0 .returns,.deliverRequest 1 0 0,.responder 0 .next,.deliverRequest 0 0 0,
    .responder 0 .next,.sendResponse 0 1 200 6 true,.sendResponse 0 0 100 5 true,
    .deliverResponse 1,.requester 0 .handled,.deliverResponse 0] (by decide)

theorem nestedReplies_correlated : Correlated nestedReplies.steps :=
  responses_correlated nestedReplies (by decide)

/-- A handler replies twice. The first response is delivered and ends its request, whose id is then
given to another one, and the second response reaches the handler of that. -/
def staleResponse : Execution step (World.init 1 1 : World ℕ ℕ ℕ Unit Unit) :=
  .ofLabels [.requester 0 (.create ⟨0,4⟩),.createResponder 0 4,
    .responder 0 (.registerHandler 0 ⟨(),none⟩ true),.requester 0 (.send 0 10 1),
    .submit 0 5 .noError,.requester 0 .returns,.deliverRequest 0 0 0,.responder 0 .next,
    .sendResponse 0 0 100 5 true,.sendResponse 0 0 200 5 true,.responder 0 .handled,
    .responder 0 .next,.deliverResponse 0,.requester 0 .handled,.requester 0 (.send 0 11 2),
    .submit 0 5 .noError,.requester 0 .returns,.deliverResponse 0] (by decide)

/-- The same with the second reply after the other request was accepted. -/
def lateReply : Execution step (World.init 1 1 : World ℕ ℕ ℕ Unit Unit) :=
  .ofLabels [.requester 0 (.create ⟨0,4⟩),.createResponder 0 4,
    .responder 0 (.registerHandler 0 ⟨(),none⟩ true),.requester 0 (.send 0 10 1),
    .submit 0 5 .noError,.requester 0 .returns,.deliverRequest 0 0 0,.responder 0 .next,
    .sendResponse 0 0 100 5 true,.deliverResponse 0,.requester 0 .handled,
    .requester 0 (.send 0 11 2),.submit 0 5 .noError,.requester 0 .returns,
    .sendResponse 0 0 200 5 true,.deliverResponse 0] (by decide)

/-- The handler that the last step of a correlated run calls, and the request it was passed with. -/
theorem Correlated.last {m n : ℕ} {e : Execution step (World.init m n : World η ρ μ θ π)}
    (h : Correlated e.steps) {p : World η ρ μ θ π × Act η ρ μ θ π} (hp : e.steps.getLast? = some p)
    {s : ℕ} {v v' : Requests.World η ρ μ} (hv : p.1.requesters[s]? = some v)
    (hv' : e.final.requesters[s]? = some v') {handler : η} {response : μ}
    (hc : v'.calls = v.calls ++ [(handler,response)]) :
    ∃ x ∈ replies e.steps.dropLast, x.1.site = s ∧ x.2 = response ∧
      v.requests[x.1.request]?.map (fun q => q.adapter.handler) = some handler := by
  have he : e.steps = e.steps.dropLast ++ [(p.1,p.2)] := (List.dropLast_append_getLast? p hp).symm
  have hrun := e.run
  rw [he] at hrun
  obtain ⟨u,-,hafter⟩ := hrun.of_append
  obtain ⟨rfl,t,hs,hnil⟩ := hafter.of_cons
  obtain rfl := hnil.eq_of_nil
  rcases h _ _ _ _ he _ hs s v v' hv hv' with hsame | ⟨k,q,r,hq,hc',hm⟩
  · simp [hc] at hsame
  · have hlast := List.append_cancel_left (hc.symm.trans hc')
    obtain ⟨rfl,rfl⟩ := Prod.mk.inj (List.singleton_inj.mp hlast)
    exact ⟨_,hm,rfl,rfl,by simp [hq]⟩

/-- Both times the second response calls the handler of the second request. -/
theorem reusedId_not_correlated :
    ((∀ p ∈ staleResponse.steps, p.1.uniqueIds p.2 = true) ∧ ¬Correlated staleResponse.steps) ∧
      (∀ p ∈ lateReply.steps, p.1.uniqueIds p.2 = true) ∧ ¬Correlated lateReply.steps := by
  refine ⟨⟨by decide,fun h => ?_⟩,by decide,fun h => ?_⟩
  · exact absurd (h.last (s:=0) rfl rfl rfl rfl) (by decide)
  · exact absurd (h.last (s:=0) rfl rfl rfl rfl) (by decide)

end Blush.Network
