import Blush.Connections.Step
import Blush.Lib.LastWrite
import Blush.Responders.Model

/-! The replies to a request carry its transaction id as long as the TS leaves the id of a sender as
it was: what it writes there is the id of the next reply. -/
namespace Blush.Responders
open Network Slots Transition
variable {θ π ρ μ : Type} {w w' : Process θ π ρ} {a : Act θ π ρ μ}

/-- The call of `Send_Message` that a step begins, with the request it replies to. -/
def Process.sendMessage? (w : Process θ π ρ) : Act θ π ρ μ → Option (ℕ × SendMessage μ)
  | .sendResponse n response =>
    w.requests[n]?.map fun r => (n,Responders.sendResponse r.sender response)
  | _ => none

/-- The delivery that a step begins: the object and the transaction id. -/
def Act.delivery? : Act θ π ρ μ → Option (ℕ × ℤ)
  | .callbackHandler k _ transactionId _ => some (k,transactionId)
  | _ => none

/-- What a step of the TS writes to the id of the sender of a request. -/
def Process.written? (w : Process θ π ρ) (n : ℕ) : Act θ π ρ μ → Option ℤ
  | .write i transactionId =>
    if w.sending[i]?.any fun s => s.request == n then some transactionId else none
  | _ => none

/-- The deliveries of a run. A request has the number of its delivery. -/
def deliveries (steps : List (Process θ π ρ × Act θ π ρ μ)) : List (ℕ × ℤ) :=
  steps.filterMap fun p => p.2.delivery?

/-- What the TS wrote in a run to the id of the sender of a request, in this order. -/
def writes (n : ℕ) (steps : List (Process θ π ρ × Act θ π ρ μ)) : List ℤ :=
  steps.filterMap fun p => p.1.written? n p.2

/-- Every reply to a request is sent on the connection it came to, with the id it came with. -/
def Correlated (e : Execution step (Process.init : Process θ π ρ) (α:=Act θ π ρ μ)) : Prop :=
  ∀ before p after, e.steps = before ++ p::after → ∀ n call, p.1.sendMessage? p.2 = some (n,call) →
    ∃ k transactionId, (deliveries before)[n]? = some (k,transactionId) ∧
      p.1.connectionIds[k]? = some call.connectionId ∧ call.transactionId = transactionId

/-- Whenever a request is replied to, the TS has written nothing to the id of its sender, or at last
the id the request came with. -/
def Restored (e : Execution step (Process.init : Process θ π ρ) (α:=Act θ π ρ μ)) : Prop :=
  ∀ before p after, e.steps = before ++ p::after → ∀ n response, p.2 = .sendResponse n response →
    ∀ t ∈ (writes n before).getLast?, (deliveries before)[n]?.map Prod.snd = some t

/-! ## One step -/

namespace Process

/-- What a step does, guards included. -/
inductive Step (w : Process θ π ρ) : Act θ π ρ μ → Process θ π ρ → Prop
  | create {connectionId v} (hs : Connections.step w.world .create = some v) :
      Step w (.create connectionId)
        { w with world := v, connectionIds := w.connectionIds ++ [connectionId] }
  | callbackHandler {k arg transactionId message connectionId v}
      (hk : w.connectionIds[k]? = some connectionId)
      (hs : Connections.step w.world (.callbackHandler k w.requests.length) = some v) :
      Step w (.callbackHandler k arg transactionId message) { w with
        world := v
        requests := w.requests ++ [⟨k,transactionId,message,⟨connectionId,transactionId⟩⟩] }
  | connection {b v} (hp : w.permits b = true) (hs : Connections.step w.world b = some v) :
      Step w (.connection b) { w with world := v }
  | sendResponse {n response} (hm : w.mayReply n = true) :
      Step w (.sendResponse n response)
        { w with sending := ⟨n,w.world.frames.length⟩::w.sending }
  | write {i transactionId s} (hi : w.sending[i]? = some s) :
      Step w (.write i transactionId) (w.setTransactionId s.request transactionId)
  | sent (ht : w.transporting = true) : Step w .sent { w with sending := w.sending.tail }

end Process

theorem step_cases (h : step w a = some w') : w.Step a w' := by
  cases a with
  | create connectionId =>
    obtain ⟨v,hs,rfl⟩ := Option.map_eq_some_iff.mp h
    exact .create hs
  | callbackHandler k arg transactionId message =>
    obtain ⟨connectionId,hk,h⟩ := Option.bind_eq_some_iff.mp h
    obtain ⟨v,hs,rfl⟩ := Option.map_eq_some_iff.mp h
    exact .callbackHandler hk hs
  | connection b =>
    obtain ⟨hp,h⟩ := Option.ite_none_right_eq_some.mp h
    obtain ⟨v,hs,rfl⟩ := Option.map_eq_some_iff.mp h
    exact .connection hp hs
  | sendResponse n response =>
    obtain ⟨hm,h⟩ := Option.ite_none_right_eq_some.mp h
    obtain rfl := Option.some.inj h
    exact .sendResponse hm
  | write i transactionId =>
    obtain ⟨s,hi,rfl⟩ := Option.map_eq_some_iff.mp h
    exact .write hi
  | sent =>
    obtain ⟨ht,h⟩ := Option.ite_none_right_eq_some.mp h
    obtain rfl := Option.some.inj h
    exact .sent ht

/-! ## Runs -/

section
variable {steps : List (Process θ π ρ × Act θ π ρ μ)} {n : ℕ}

theorem deliveries_concat :
    deliveries (steps ++ [(w,a)]) = deliveries steps ++ a.delivery?.toList := by
  simp [deliveries,filterMap_cons_toList]

theorem writes_concat :
    writes n (steps ++ [(w,a)]) = writes n steps ++ (w.written? n a).toList := by
  simp [writes,filterMap_cons_toList]

/-- What a run establishes: a sender keeps the id of its connection, and its transaction id is the
one the request came with until the TS writes another. -/
structure Process.Known (w : Process θ π ρ) (steps : List (Process θ π ρ × Act θ π ρ μ)) :
    Prop where
  linked : w.world.Linked
  requests : w.requests.map (fun r => (r.connection,r.transactionId)) = deliveries steps
  frames : ∀ f ∈ w.world.frames, f.message < w.requests.length
  sending : ∀ s ∈ w.sending, s.request < w.requests.length
  unwritten : ∀ n, w.requests.length ≤ n → writes n steps = []
  sender : ∀ n r, w.requests[n]? = some r →
    w.connectionIds[r.connection]? = some r.sender.connectionId ∧
      r.sender.transactionId = (writes n steps).getLast?.getD r.transactionId

namespace Process.Known

/-- A step without a delivery, in which the TS writes nothing. -/
theorem quiet (hk : w.Known steps) (hd : a.delivery? = none) (hw : ∀ n, w.written? n a = none)
    (hlinked : w'.world.Linked) (hreq : w'.requests = w.requests)
    (hids : ∀ (k : ℕ) id, w.connectionIds[k]? = some id → w'.connectionIds[k]? = some id)
    (hframes : ∀ f ∈ w'.world.frames, f.message < w.requests.length)
    (hsending : ∀ s ∈ w'.sending, s.request < w.requests.length) :
    w'.Known (steps ++ [(w,a)]) := by
  have hwrites (n : ℕ) : writes n (steps ++ [(w,a)]) = writes n steps := by
    rw [writes_concat,hw,Option.toList_none,List.append_nil]
  refine ⟨hlinked,?_,hreq ▸ hframes,hreq ▸ hsending,fun n hn => ?_,fun n r hr => ?_⟩
  · rw [hreq,hk.requests,deliveries_concat,hd,Option.toList_none,List.append_nil]
  · rw [hwrites]
    exact hk.unwritten n (hreq ▸ hn)
  · obtain ⟨hid,ht⟩ := hk.sender n r (hreq ▸ hr)
    rw [hwrites]
    exact ⟨hids _ _ hid,ht⟩

/-- A delivery makes a sender with the id of the request. -/
theorem callbackHandler (hk : w.Known steps) {k : ℕ} {arg transactionId connectionId : ℤ}
    {message : ρ} {v : Connections.World θ π ℕ} (hid : w.connectionIds[k]? = some connectionId)
    (hs : Connections.step w.world (.callbackHandler k w.requests.length) = some v) :
    ({ w with
      world := v
      requests := w.requests ++
        [⟨k,transactionId,message,⟨connectionId,transactionId⟩⟩] } : Process θ π ρ).Known
      (steps ++ [(w,(.callbackHandler k arg transactionId message : Act θ π ρ μ))]) := by
  have hwrites (n : ℕ) :
      writes n (steps ++ [(w,(.callbackHandler k arg transactionId message : Act θ π ρ μ))]) =
        writes n steps := by
    rw [writes_concat]
    exact List.append_nil _
  have hstep := (Connections.step_cases hk.linked hs).2
  refine ⟨hstep.linked hk.linked,?_,fun f hf => ?_,fun s hs => ?_,fun n hn => ?_,fun n r hr => ?_⟩
  · rw [List.map_append,hk.requests,deliveries_concat]
    rfl
  · rw [List.length_append,List.length_singleton]
    rcases hstep.message hf with ⟨j,hj⟩ | ⟨f',hf',he⟩
    · obtain ⟨-,he⟩ := Connections.Act.callbackHandler.inj hj
      omega
    · have := hk.frames f' hf'
      omega
  · rw [List.length_append]
    exact Nat.lt_add_right _ (hk.sending s hs)
  · rw [List.length_append] at hn
    rw [hwrites]
    exact hk.unwritten n (by omega)
  · rw [hwrites]
    rcases getElem?_concat_cases hr with ⟨rfl,rfl⟩ | hr
    · rw [hk.unwritten _ le_rfl]
      exact ⟨hid,rfl⟩
    · exact hk.sender n r hr

/-- The TS writes to the id of a sender. -/
theorem write (hk : w.Known steps) {i : ℕ} {t : ℤ} {s : Sending} (hi : w.sending[i]? = some s) :
    (w.setTransactionId s.request t).Known (steps ++ [(w,(.write i t : Act θ π ρ μ))]) := by
  have hlt := hk.sending s (List.mem_of_getElem? hi)
  have hwrites (n : ℕ) : writes n (steps ++ [(w,(.write i t : Act θ π ρ μ))]) =
      if s.request = n then writes n steps ++ [t] else writes n steps := by
    rw [writes_concat,written?,hi]
    by_cases hn : s.request = n <;> simp [hn]
  have hlen : (w.setTransactionId s.request t).requests.length = w.requests.length :=
    List.length_modify _ _ _
  have hget (n : ℕ) : (w.setTransactionId s.request t).requests[n]? = w.requests[n]?.map fun r =>
      if s.request = n then { r with sender := { r.sender with transactionId := t } } else r := by
    rw [setTransactionId,List.getElem?_modify]
    by_cases hn : s.request = n <;> simp [hn]
  refine ⟨hk.linked,?_,?_,?_,fun n hn => ?_,fun n r hr => ?_⟩
  · rw [deliveries_concat,← hk.requests]
    refine List.ext_getElem? fun n => ?_
    rw [List.getElem?_map,hget,Option.map_map]
    by_cases hn : s.request = n <;> simp [hn,Act.delivery?,Function.comp_def]
  · rw [hlen]
    exact hk.frames
  · rw [hlen]
    exact hk.sending
  · rw [hlen] at hn
    rw [hwrites,if_neg (by omega)]
    exact hk.unwritten n hn
  · rw [hget] at hr
    obtain ⟨r,hr',rfl⟩ := Option.map_eq_some_iff.mp hr
    obtain ⟨hid,ht⟩ := hk.sender n r hr'
    rw [hwrites]
    by_cases hn : s.request = n
    · simp only [if_pos hn,List.getLast?_concat]
      exact ⟨hid,rfl⟩
    · simp only [if_neg hn]
      exact ⟨hid,ht⟩

theorem reply_lt (hk : w.Known steps) {n : ℕ} (hm : w.mayReply n = true) :
    n < w.requests.length := by
  obtain ⟨-,hany⟩ := Bool.and_eq_true_iff.mp hm
  obtain ⟨f,hf,hn⟩ := List.any_eq_true.mp hany
  exact beq_iff_eq.mp hn ▸ hk.frames f hf

theorem delivery (hk : w.Known steps) {n : ℕ} {r : Request ρ} (hr : w.requests[n]? = some r) :
    (deliveries steps)[n]? = some (r.connection,r.transactionId) := by
  rw [← hk.requests,List.getElem?_map,hr]
  rfl

theorem step (hk : w.Known steps) (h : w.Step a w') : w'.Known (steps ++ [(w,a)]) := by
  cases h with
  | @create connectionId v hs =>
    have hstep := (Connections.step_cases hk.linked hs).2
    refine hk.quiet rfl (fun _ => rfl) (hstep.linked hk.linked) rfl
      (fun _ _ => getElem?_concat_of_some) (fun f hf => ?_) hk.sending
    rcases hstep.message hf with ⟨j,hj⟩ | ⟨f',hf',he⟩
    · simp at hj
    · exact he ▸ hk.frames f' hf'
  | callbackHandler hid hs => exact hk.callbackHandler hid hs
  | @connection b v hp hs =>
    have hstep := (Connections.step_cases hk.linked hs).2
    refine hk.quiet rfl (fun _ => rfl) (hstep.linked hk.linked) rfl (fun _ _ => id)
      (fun f hf => ?_) hk.sending
    rcases hstep.message hf with ⟨j,rfl⟩ | ⟨f',hf',he⟩
    · simp [permits] at hp
    · exact he ▸ hk.frames f' hf'
  | @sendResponse n response hm =>
    refine hk.quiet rfl (fun _ => rfl) hk.linked rfl (fun _ _ => id) hk.frames fun s hs => ?_
    rcases List.mem_cons.mp hs with rfl | hs
    · exact hk.reply_lt hm
    · exact hk.sending s hs
  | write hi => exact hk.write hi
  | sent ht =>
    exact hk.quiet rfl (fun _ => rfl) hk.linked rfl (fun _ _ => id) hk.frames fun s hs =>
      hk.sending s (List.mem_of_mem_tail hs)

end Process.Known

theorem run_known (h : Run step (Process.init : Process θ π ρ) steps w) : w.Known steps := by
  induction h with
  | refl =>
    exact ⟨Connections.run_linked .refl,rfl,by simp [Process.init,Connections.World.init],
      by simp [Process.init],fun _ _ => rfl,by simp [Process.init]⟩
  | next before hs ih => exact ih.step (step_cases hs)

end

/-- Replies carry the ids of their requests in a run if and only if the TS has restored the id of a
sender whenever it is used. -/
theorem correlated_iff (e : Execution step (Process.init : Process θ π ρ) (α:=Act θ π ρ μ)) :
    Correlated e ↔ Restored e := by
  constructor
  · intro h before p after he n response hp t ht
    have hk := run_known (e.run_before he)
    obtain ⟨w,a⟩ := p
    obtain rfl : a = .sendResponse n response := hp
    obtain ⟨w',hs⟩ := e.run.exists_target (p:=(w,.sendResponse n response)) (by simp [he])
    cases step_cases hs with
    | sendResponse hm =>
      obtain ⟨r,hr⟩ : ∃ r, w.requests[n]? = some r := ⟨_,List.getElem?_eq_getElem (hk.reply_lt hm)⟩
      obtain ⟨k,t',hd,-,ht'⟩ := h before _ after he n _ (congrArg (Option.map _) hr)
      have hsender := (hk.sender n r hr).2
      rw [Option.mem_def.mp ht,Option.getD_some] at hsender
      rw [hd,Option.map_some,← ht',← hsender]
      rfl
  · intro h before p after he n call hcall
    have hk := run_known (e.run_before he)
    obtain ⟨w,a⟩ := p
    cases a with
    | create | callbackHandler | connection | write | sent => simp [Process.sendMessage?] at hcall
    | sendResponse m response =>
      obtain ⟨r,hr,hx⟩ := Option.map_eq_some_iff.mp hcall
      obtain ⟨rfl,rfl⟩ := Prod.mk.inj hx
      have hd := hk.delivery hr
      obtain ⟨hid,ht⟩ := hk.sender m r hr
      refine ⟨r.connection,r.transactionId,hd,hid,ht.trans ?_⟩
      cases hw : (writes m before).getLast? with
      | none => rfl
      | some t =>
        have ht := h before _ after he m response rfl t hw
        rw [hd] at ht
        exact (Option.some.inj ht).symm

/-- The TS writes an id of its own back, and the handler replies a second time. -/
def twoReplies :
    Execution step (Process.init : Process Unit Unit Unit) (α:=Act Unit Unit Unit Unit) :=
  .ofLabels [.create 4,.connection (.registerHandler 0 ⟨(),none⟩ true),.callbackHandler 0 4 7 (),
    .connection .next,.sendResponse 0 (),.write 0 8,.sent,.sendResponse 0 ()] (by decide)

theorem twoReplies_not_correlated : ¬Correlated twoReplies := by
  intro h
  obtain ⟨k,t,hd,-,ht⟩ := h (twoReplies.steps.take 7) _ [] rfl 0 _ rfl
  obtain ⟨-,rfl⟩ := Prod.mk.inj (Option.some.inj hd)
  exact absurd ht (by decide)

end Blush.Responders
