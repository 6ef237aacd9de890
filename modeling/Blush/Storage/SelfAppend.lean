import Blush.Storage.Sizes
import Blush.Storage.Sequence.Refinement
import Blush.Storage.String.Refinement

/-! Appending an object to itself, and one of its own elements. The first loop runs after a length
that grows with it; the reference of the second goes into the block that growing releases. -/
namespace Blush.Storage
open Memory Transition World
variable {α κ : Type} [Inhabited α]

/-- `s.append(s)` ends, and when twice the length fits the bound and allocations succeed it returns
no error with the content twice. -/
structure AppendsItself (c : Class α κ) (w : World α) (k : ℕ) (f : Fields) : Prop where
  terminates : ∀ outcomes : ℕ → Bool, ∃ n w', Returns c w k k ((List.range n).map outcomes) w'
  doubles : ∀ n w', (f.isBounded = true → 2*f.length ≤ f.bound) →
    Returns c w k k (List.replicate n true) w' → w'.returned = some .noError ∧
      ∃ g, w'.live? k = some g ∧
        g.content w'.heap.memory = f.content w.heap.memory ++ f.content w.heap.memory

/-- `s.append(s[i])` appends what `s[i]` was before. -/
def AppendsElement (c : Class α κ) (w : World α) (k i : ℕ) (f : Fields) : Prop :=
  ∀ ok w', step c w (.append k (.element k i) ok) = some w' → w'.returned = some .noError →
    ∃ g, w'.live? k = some g ∧
      g.content w'.heap.memory = f.content w.heap.memory ++ [w.heap.memory.read f.buf_ i]

/-- The buffer holds as many elements as the capacity says. -/
def Fields.Backed (f : Fields) (m : Memory (Option ℕ) α) : Prop :=
  f.capacity_ ≤ (m.cells f.buf_).length

/-! ## The object itself -/

section
omit [Inhabited α]
variable {c : Class α κ} {first : ℕ} {w w' w₁ : World α} {k i : ℕ} {f : Fields} {oks : List Bool}
  {outcomes : ℕ → Bool}

/-- The largest length wraps to zero. -/
theorem Fields.longer_length_of_wraps (h : f.length_+1 = 2^32) : f.longer.length_ = 0 := by
  rw [Fields.longer,h]
  rfl

/-- A call ends, with these outcomes of the allocations. -/
def Ends (c : Class α κ) (w : World α) (outcomes : ℕ → Bool) : Prop :=
  ∃ n w', World.nexts c ((List.range n).map outcomes) w = some w' ∧ w'.call = none

theorem ends_of_returned (hcall : w.call = none) : Ends c w outcomes := ⟨0,w,rfl,hcall⟩

theorem Ends.next (h : Ends c w₁ (outcomes ∘ Nat.succ))
    (hstep : step c w (.next (outcomes 0)) = some w₁) : Ends c w outcomes := by
  obtain ⟨n,w',hnexts,hreturned⟩ := h
  refine ⟨n+1,w',?_,hreturned⟩
  rw [List.range_succ_eq_map,List.map_cons,List.map_map,World.nexts,hstep]
  exact hnexts

/-- The loop is at its end. -/
theorem ends_of_length_le (hcall : w.call = some ⟨k,k,i⟩) (hf : w.live? k = some f)
    (hi : f.length_ ≤ i) : Ends c w outcomes := by
  refine Ends.next (ends_of_returned ?_) (step_next hcall hf hf)
  rw [next_of_length_le hi]

variable (hc : Growth c first)
include hc

/-- The length grows until an append fails or it wraps to zero, which ends the loop. -/
theorem Growth.ends (hcall : w.call = some ⟨k,k,i⟩) (hf : w.live? k = some f)
    (hlt : f.length_ < 2^32) (outcomes : ℕ → Bool) : Ends c w outcomes := by
  induction hd : 2^32-f.length_ using Nat.strongRecOn generalizing w f i outcomes with
  | ind d ih =>
    rcases Nat.lt_or_ge i f.length_ with hi | hi
    · by_cases hr : (w.appended c k i f f (outcomes 0)).returned = some .noError
      · obtain ⟨w₁,hstep,hcall₁,hf₁,-⟩ := step_iterates hcall hf hf hi hr
        obtain ⟨-,-,p,cap,hfields⟩ := (hc.append _ _ _ _ _).of_noError hr
        rw [World.appended,hfields] at hf₁
        refine Ends.next ?_ hstep
        by_cases hwrap : f.length_+1 < 2^32
        · have hlen := Fields.longer_length (f:={ f with buf_ := p, capacity_ := cap }) hwrap
          refine ih _ ?_ hcall₁ hf₁ (hlen.trans_lt hwrap) _ rfl
          rw [hlen]
          show 2^32-(f.length_+1) < d
          omega
        · refine ends_of_length_le hcall₁ hf₁ ?_
          rw [Fields.longer_length_of_wraps (by
            show f.length_+1 = _
            omega)]
          exact Nat.zero_le _
      · obtain ⟨w₁,hstep,hreturned,-⟩ := hc.stops hcall hf hf hi hr
        exact Ends.next (ends_of_returned hreturned) hstep
    · exact ends_of_length_le hcall hf hi

/-- The loop never catches up with the length of an object that is not empty: without an error it
ends only when the length has wrapped. -/
theorem Growth.length_of_noError (start : ℕ) (hstart : 0 < start) (hcall : w.call = some ⟨k,k,i⟩)
    (hf : w.live? k = some f) (hlen : f.length_ = start+i) (hlt : f.length_ < 2^32)
    (h : World.nexts c oks w = some w') (hreturned : w'.call = none)
    (hr : w'.returned = some .noError) : ∃ g, w'.live? k = some g ∧ g.length_ = 0 := by
  induction oks generalizing w f i with
  | nil =>
    obtain rfl := Option.some.inj h
    simp [hcall] at hreturned
  | cons ok oks ih =>
    rw [World.nexts] at h
    by_cases hok : (w.appended c k i f f ok).returned = some .noError
    · obtain ⟨w₁,hstep,hcall₁,hf₁,-⟩ := step_iterates hcall hf hf (by omega) hok
      obtain ⟨-,-,p,cap,hfields⟩ := (hc.append _ _ _ _ _).of_noError hok
      rw [World.appended,hfields] at hf₁
      rw [hstep] at h
      by_cases hwrap : f.length_+1 < 2^32
      · have hlonger := Fields.longer_length (f:={ f with buf_ := p, capacity_ := cap }) hwrap
        refine ih hcall₁ hf₁ (hlonger.trans ?_) (hlonger.trans_lt hwrap) h
        show f.length_+1 = _
        omega
      · have hzero := Fields.longer_length_of_wraps (f:={ f with buf_ := p, capacity_ := cap }) (by
          show f.length_+1 = _
          omega)
        cases oks with
        | nil =>
          obtain rfl := Option.some.inj h
          simp [hcall₁] at hreturned
        | cons ok oks =>
          have h : (step c w₁ (.next ok)).bind (World.nexts c oks) = some w' := h
          rw [step_next hcall₁ hf₁ hf₁,next_of_length_le (by omega)] at h
          obtain rfl := nexts_of_returned rfl h
          exact ⟨_,hf₁,hzero⟩
    · obtain ⟨w₁,hstep,hcall₁,hret,-⟩ := hc.stops hcall hf hf (by omega) hok
      rw [hstep] at h
      obtain rfl := nexts_of_returned hcall₁ h
      exact absurd (hret.symm.trans hr) hok

end

section
variable {c : Class α κ} {first : ℕ} {w : World α} {k : ℕ} {f : Fields}

/-- `s.append(s)` is right for an empty object and for one whose bound is too small. -/
theorem Growth.appendsItself_iff (hc : Growth c first) (hcall : w.call = none)
    (hf : w.live? k = some f) (hv : f.valid_ = true) (hlt : f.length_ < 2^32) :
    AppendsItself c w k f ↔ f.length = 0 ∨ f.isBounded = true ∧ f.bound < 2*f.length := by
  have hlen : f.length = f.length_ := if_pos hv
  have hterminates (outcomes : ℕ → Bool) :
      ∃ n w', Returns c w k k ((List.range n).map outcomes) w' := by
    obtain ⟨n,w',hnexts,hreturned⟩ := hc.ends (w:=w.begun k k) rfl hf hlt outcomes
    refine ⟨n,w',?_,hreturned⟩
    rw [step_appendAll hcall hf hf hv]
    exact hnexts
  constructor
  · intro h
    by_contra hcond
    obtain ⟨hne,hfits⟩ := not_or.mp hcond
    obtain ⟨n,w',hreturns⟩ := h.terminates fun _ => true
    rw [List.map_const',List.length_range] at hreturns
    obtain ⟨hr,g,hg,hcontent⟩ := h.doubles n w' (fun hs => by
      by_contra hbound
      exact hfits ⟨hs,Nat.lt_of_not_le hbound⟩) hreturns
    obtain ⟨ok,oks,-,hnexts,hreturned⟩ := (returns_of_valid hcall hf hf hv).mp hreturns
    have hnexts : World.nexts c (ok::oks) (w.begun k k) = some w' := hnexts
    obtain ⟨g',hg',hzero⟩ := hc.length_of_noError (w:=w.begun k k) f.length_ (by omega) rfl hf
      rfl hlt hnexts hreturned hr
    obtain rfl := Option.some.inj (hg.symm.trans hg')
    have hlengths := congrArg List.length hcontent
    simp only [Fields.content,length_reads,List.length_append] at hlengths
    omega
  · intro hcond
    refine ⟨hterminates,fun n w' hfits hreturns => ?_⟩
    rcases hcond with hz | ⟨hs,hbound⟩
    · rw [hlen] at hz
      obtain ⟨ok,oks,-,hnexts,-⟩ := (returns_of_valid hcall hf hf hv).mp hreturns
      rw [step_begun_of_empty hf hf hz] at hnexts
      obtain rfl := nexts_of_returned rfl hnexts
      refine ⟨rfl,f,hf,?_⟩
      rw [Fields.content,Fields.content,hz]
      rfl
    · exact absurd (hfits hs) (Nat.not_le_of_lt hbound)

end
/-! ## One of its elements -/

/-- What has to be shown of a class: an append that puts its element keeps the content and adds what
the reference stands for; one that has to grow adds what is read behind a freed pointer. -/
structure AppendsReference (c : Class α κ) : Prop where
  index {f i} : f.valid_ = true → i < f.length_ → c.index f i = .cell f.buf_ i
  put {h k f x ok} : f.Words → ¬f.MustGrow → f.Backed h.memory →
    (c.append h k f x ok).returned = some .noError →
    (c.append h k f x ok).fields.content (c.append h k f x ok).heap.memory =
      f.content h.memory ++ [x.get h.memory]
  grown {h k f i} : f.valid_ = true → f.MustGrow → f.capacity_ < 2^31 →
    (c.append h k f (.cell f.buf_ i) true).returned = some .noError ∧
      (c.append h k f (.cell f.buf_ i) true).heap.memory.read
        (c.append h k f (.cell f.buf_ i) true).fields.buf_ f.length_ = default

section
variable {c : Class α κ} {w w' : World α} {k i : ℕ} {f : Fields} (hc : AppendsReference c)
include hc

/-- A call with an element of the object itself. -/
theorem AppendsReference.step_append {ok : Bool} (hcall : w.call = none) (hf : w.live? k = some f)
    (hv : f.valid_ = true) (hi : i < f.length_) : step c w (.append k (.element k i) ok) =
      some (w.put k (c.append w.heap k f (.cell f.buf_ i) ok)) := by
  simp [step,hcall,hf,World.resolve,hc.index hv hi]

/-- An element is appended when the object need not grow for it. -/
theorem AppendsReference.appendsElement (hcall : w.call = none) (hf : w.live? k = some f)
    (hv : f.valid_ = true) (hi : i < f.length_) (hw : f.Words) (hb : f.Backed w.heap.memory)
    (hm : ¬f.MustGrow) : AppendsElement c w k i f := by
  intro ok w' h hr
  rw [hc.step_append hcall hf hv hi] at h
  obtain rfl := Option.some.inj h
  exact ⟨_,live?_put_self _ hf,hc.put hw hm hb hr⟩

/-- When it has to, the released block is read. -/
theorem AppendsReference.not_mustGrow (hcall : w.call = none) (hf : w.live? k = some f)
    (hv : f.valid_ = true) (hi : i < f.length_) (hcap : f.capacity_ < 2^31)
    (hne : w.heap.memory.read f.buf_ i ≠ default) (h : AppendsElement c w k i f) : ¬f.MustGrow := by
  intro hm
  obtain ⟨hr,hread⟩ := hc.grown (h:=w.heap) (k:=k) (i:=i) hv hm hcap
  obtain ⟨g,hg,hcontent⟩ := h true _ (hc.step_append hcall hf hv hi) hr
  obtain rfl := Option.some.inj ((live?_put_self _ hf).symm.trans hg)
  have hlast := read_of_reads hcontent
  rw [Fields.content,length_reads] at hlast
  exact hne (hlast.symm.trans hread)

end

namespace String

/-- What is appended by a reference behind which there is nothing. -/
theorem read_put_of_default {h : Heap Cell} {f : Fields} {x : Elem Cell}
    (hx : x.get h.memory = Inhabited.default) :
    (put h f x).heap.memory.read f.buf_ f.length_ = Inhabited.default := by
  have hne : f.length_ ≠ u32 (f.length_+1) := by
    rw [u32]
    omega
  have hmemory : (put h f x).heap.memory =
      (h.memory.write f.buf_ f.length_ Inhabited.default).write f.buf_ (u32 (f.length_+1)) nul := by
    rw [put,hx]
    rfl
  rw [hmemory,read_write_of_ne hne,read_write_default]

theorem appendsReference : AppendsReference string where
  index hv hi := if_neg (by simp [hv,hi])
  put {h k f x ok} hw hm hb hr := by
    have ho := append_cases h k f x ok
    generalize hout : append h k f x ok = o at ho
    have hr : o.returned = some .noError := hout ▸ hr
    show Fields.content (append h k f x ok).fields (append h k f x ok).heap.memory = _
    rw [hout]
    cases ho with
    | invalid | full | unmanaged | refused => simp at hr
    | put _ _ hn =>
      have := hw.capacity_lt
      exact content_put_of_lt (hn.trans_le hb) (by omega)
    | grown _ hfull hn hm' => exact absurd ⟨hm',hfull,hn⟩ hm
  grown {h k f i} hv hm _ := by
    obtain ⟨hmanaged,hfull,hn⟩ := hm
    have ho := append_cases h k f (.cell f.buf_ i) true
    show (append h k f (.cell f.buf_ i) true).returned = _ ∧
      (append h k f (.cell f.buf_ i) true).heap.memory.read
        (append h k f (.cell f.buf_ i) true).fields.buf_ f.length_ = _
    generalize append h k f (.cell f.buf_ i) true = o at ho
    cases ho with
    | invalid hv' => simp [hv] at hv'
    | full _ hb => exact absurd hb hfull
    | put _ _ hn' => exact absurd hn' (Nat.not_lt_of_le hn)
    | unmanaged _ _ _ hm' => simp [hmanaged] at hm'
    | refused _ _ _ _ hok => simp at hok
    | grown =>
      refine ⟨rfl,read_put_of_default (f:=(allocated h k f (f.newCap 8) true).2) ?_⟩
      show Memory.read _ f.buf_ i = _
      rw [memory_allocated,read_free_self]

end String

namespace Sequence

theorem read_put_of_default {h : Heap α} {f : Fields} {x : Elem α}
    (hx : x.get h.memory = default) :
    (put h f x).heap.memory.read f.buf_ f.length_ = default := by
  rw [put,Heap.memory_store,hx,read_write_default]

theorem appendsReference : AppendsReference (sequence (α:=α)) where
  index _ _ := rfl
  put {h k f x ok} hw hm hb hr := by
    have ho := append_cases h k f x ok
    generalize hout : append h k f x ok = o at ho
    have hr : o.returned = some .noError := hout ▸ hr
    show Fields.content (append h k f x ok).fields (append h k f x ok).heap.memory = _
    rw [hout]
    cases ho with
    | invalid | full | unmanaged | refused => simp at hr
    | put _ _ hn =>
      have := hw.capacity_lt
      exact content_put (hn.trans_le hb) (by omega)
    | wrapped _ hfull hn hm' | grown _ hfull hn hm' => exact absurd ⟨hm',hfull,hn⟩ hm
  grown {h k f i} hv hm hcap := by
    obtain ⟨hmanaged,hfull,hn⟩ := hm
    have ho := append_cases h k f (.cell f.buf_ i) true
    show (append h k f (.cell f.buf_ i) true).returned = _ ∧
      (append h k f (.cell f.buf_ i) true).heap.memory.read
        (append h k f (.cell f.buf_ i) true).fields.buf_ f.length_ = _
    generalize append h k f (.cell f.buf_ i) true = o at ho
    cases ho with
    | invalid hv' => simp [hv] at hv'
    | full _ hb => exact absurd hb hfull
    | put _ _ hn' => exact absurd hn' (Nat.not_lt_of_le hn)
    | unmanaged _ _ _ hm' => simp [hmanaged] at hm'
    | refused _ _ _ _ _ hok => simp at hok
    | wrapped _ _ _ _ hc =>
      exact absurd hc (Nat.not_le_of_lt (f.lt_newCap 4 (by omega) hfull hn hcap))
    | grown =>
      refine ⟨rfl,read_put_of_default (f:=(grow h k f (f.newCap 4)).2) ?_⟩
      show Memory.read _ f.buf_ i = _
      rw [memory_grow,read_free_self]

end Sequence

/-! ## Both classes -/

/-- What is appended from an object to itself, for its valid objects. -/
structure SelfAppends (c : Class α κ) (w : World α) (k : ℕ) (f : Fields) : Prop where
  itself : AppendsItself c w k f ↔ f.length = 0 ∨ f.isBounded = true ∧ f.bound < 2*f.length
  element : ∀ i < f.length, f.Backed w.heap.memory → ¬f.MustGrow → AppendsElement c w k i f
  growing : ∀ i < f.length, f.capacity_ < 2^31 → w.heap.memory.read f.buf_ i ≠ default →
    AppendsElement c w k i f → ¬f.MustGrow

theorem selfAppends {c : Class α κ} {first : ℕ} (hc : Growth c first) (hr : AppendsReference c)
    {e : Execution (step c) World.init} {w : World α} (hw : w ∈ e.visited) (hcall : w.call = none)
    {k : ℕ} {f : Fields} (hf : w.live? k = some f) (hv : f.isValid = true) :
    SelfAppends c w k f := by
  have hv : f.valid_ = true := hv
  have hlen : f.length = f.length_ := if_pos hv
  have hwords := hc.words hw hf
  refine ⟨hc.appendsItself_iff hcall hf hv hwords.length_lt,fun i hi hb hm => ?_,
    fun i hi hcap hne h => ?_⟩
  · exact hr.appendsElement hcall hf hv (hlen ▸ hi) hwords hb hm
  · exact hr.not_mustGrow hcall hf hv (hlen ▸ hi) hcap hne h

theorem self_append_iff :
    (∀ e : Execution (step string) World.init, ∀ w ∈ e.visited, w.call = none →
      ∀ k f, w.live? k = some f → f.isValid = true → SelfAppends string w k f) ∧
    ∀ e : Execution (step (sequence (α:=α))) World.init, ∀ w ∈ e.visited, w.call = none →
      ∀ k f, w.live? k = some f → f.isValid = true → SelfAppends sequence w k f :=
  ⟨fun _ _ hw hcall _ _ hf hv => selfAppends String.growth String.appendsReference hw hcall hf hv,
    fun _ _ hw hcall _ _ hf hv =>
      selfAppends Sequence.growth Sequence.appendsReference hw hcall hf hv⟩

/-- A string of two characters bounded by eight. -/
def twoOfEight : Execution (step string) World.init :=
  .ofLabels [.construct (.bounded 8) true,.append 0 (.value (some 72)) true,
    .append 0 (.value (some 105)) true] (by decide)

theorem twoOfEight_selfAppends :
    SelfAppends string twoOfEight.final 0 ⟨some 0,2,8,8,true,true⟩ :=
  (self_append_iff (α:=ℕ)).1 twoOfEight _ twoOfEight.final_mem_visited (by decide) 0 _ (by decide)
    rfl

/-- Appended to itself it grows to its bound, and the bound is reported. -/
theorem twoOfEight_not_appendsItself :
    ¬∀ f, twoOfEight.final.live? 0 = some f → AppendsItself string twoOfEight.final 0 f := by
  intro h
  have hself := h ⟨some 0,2,8,8,true,true⟩ (by decide)
  have hr := (hself.doubles 7 _ (by decide) ⟨rfl,rfl⟩).1
  exact absurd hr (by decide)

end Blush.Storage
