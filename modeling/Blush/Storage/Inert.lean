import Blush.Storage.Sequence.Step
import Blush.Storage.String.Step

/-! The invalid state is a flag. An object that is invalid does nothing any more if its pointer is
null and its length zero; the failed unmanaged constructors leave other objects behind. -/
namespace Blush.Storage
open Transition
variable {α κ : Type}

/-- The observers show the same. -/
structure SameMeaning (c : Class α κ) (f g : Fields) : Prop where
  isValid : g.isValid = f.isValid
  length : g.length = f.length
  capacity : g.capacity = f.capacity
  bound : g.bound = f.bound
  isManaged : g.isManaged = f.isManaged
  isBounded : g.isBounded = f.isBounded
  buffer : c.buffer g = c.buffer f

/-- An operation changed no memory and nothing that the observers show. -/
def Untouched (c : Class α κ) (w : World α) (f : Fields) (o : Outcome α) : Prop :=
  o.heap = w.heap ∧ SameMeaning c f o.fields

/-- Every operation on the object number `k` but assignment changes nothing, `buffer` is null, and
`append` from the object ends at once for a valid target. -/
structure Inert (c : Class α κ) (w : World α) (k : ℕ) (f : Fields) : Prop where
  reserve : ∀ n ok, Untouched c w f (c.reserve w.heap k f n ok)
  clear : Untouched c w f (c.clear w.heap f)
  append : ∀ x ok, Untouched c w f (c.append w.heap k f x ok)
  appendAll : ∀ j, w.appendAll k j f = { w with returned := some .preconditionViolated }
  destroy : (w.destroy k f).heap = w.heap
  buffer : c.buffer f = .null
  source : ∀ j g ok, g.valid_ = true →
    w.next c ⟨j,k,0⟩ g f ok = { w with call := none, returned := some .noError }

section
variable {c : Class α κ} {w : World α} {k : ℕ} {f : Fields}

theorem SameMeaning.refl (c : Class α κ) (f : Fields) : SameMeaning c f f :=
  ⟨rfl,rfl,rfl,rfl,rfl,rfl,rfl⟩

/-- The raw length of an invalid object does not show. -/
theorem sameMeaning_of_invalid (hv : f.valid_ = false) {n : ℕ}
    (hb : c.buffer { f with length_ := n } = c.buffer f) :
    SameMeaning c f { f with length_ := n } :=
  ⟨rfl,by simp [Fields.length,hv],rfl,rfl,rfl,rfl,hb⟩

theorem appendAll_of_invalid (hv : f.valid_ = false) (j : ℕ) :
    w.appendAll k j f = { w with returned := some .preconditionViolated } := by
  simp [World.appendAll,hv]

theorem destroy_of_none (hb : f.buf_ = none) : (w.destroy k f).heap = w.heap := by
  simp [World.destroy,hb,Heap.delete]

theorem next_of_empty (hl : f.length_ = 0) (j : ℕ) (g : Fields) (ok : Bool) :
    w.next c ⟨j,k,0⟩ g f ok = { w with call := none, returned := some .noError } := by
  simp [World.next,hl]

end

/-- A source that is not empty makes an empty target allocate. -/
theorem length_of_source {c : Class α κ} {w : World α} {k : ℕ} {f : Fields} {g : Fields}
    (hg : g.valid_ = true)
    (happend : ∀ h k x, (c.append h k g x false).returned = some .insufficientMemory)
    (hsource : ∀ j g ok, g.valid_ = true →
      w.next c ⟨j,k,0⟩ g f ok = { w with call := none, returned := some .noError }) :
    f.length_ = 0 := by
  by_contra hl
  have h := hsource 0 g false hg
  have hr := happend (w.heap.access false f 0) 0 (.cell f.buf_ 0)
  simp only [World.next] at h
  rw [if_pos (Nat.pos_of_ne_zero hl),if_neg (by simp [hr])] at h
  have hreturned := congrArg World.returned h
  simp [World.put,hr] at hreturned

/-- A write is never nothing. -/
theorem store_ne (h : Heap α) (f : Fields) (i : ℕ) (v : α) : h.store f i v ≠ h := by
  intro he
  have hlen := congrArg (fun h => h.accesses.length) he
  simp [Heap.store,Heap.access] at hlen

namespace Sequence
variable {α : Type} [Inhabited α] {w : World α} {k : ℕ} {f : Fields}

theorem inert_iff (hv : f.valid_ = false) :
    Inert sequence w k f ↔ f.buf_ = none ∧ f.length_ = 0 := by
  constructor
  · intro h
    refine ⟨?_,length_of_source (g:={ Fields.initial unboundedSentinel with valid_ := true }) rfl
      (fun _ _ _ => rfl) h.source⟩
    have hb : buffer f = .null := h.buffer
    rw [Sequence.buffer] at hb
    cases hbuf : f.buf_ with
    | none => rfl
    | some b => simp [hbuf] at hb
  · rintro ⟨hb,hl⟩
    refine ⟨fun n ok => ?_,⟨rfl,sameMeaning_of_invalid hv rfl⟩,fun x ok => ?_,
      appendAll_of_invalid hv,destroy_of_none hb,?_,fun j g ok _ => next_of_empty hl j g ok⟩
    · simpa [sequence,given,reserve,hv] using ⟨rfl,SameMeaning.refl _ f⟩
    · simpa [sequence,given,append,hv] using ⟨rfl,SameMeaning.refl _ f⟩
    · simp [sequence,given,Sequence.buffer,hb]

end Sequence

namespace String
variable {w : World Cell} {k : ℕ} {f : Fields}

theorem inert_iff (hv : f.valid_ = false) :
    Inert string w k f ↔ f.buf_ = none ∧ f.length_ = 0 := by
  constructor
  · intro h
    refine ⟨?_,length_of_source (g:=default) rfl (fun _ _ _ => rfl) h.source⟩
    by_contra hb
    have hc : (String.clear w.heap f).heap = w.heap := h.clear.1
    rw [clear_of_ne hb] at hc
    exact store_ne _ _ _ _ hc
  · rintro ⟨hb,hl⟩
    refine ⟨fun n ok => ?_,?_,fun x ok => ?_,appendAll_of_invalid hv,destroy_of_none hb,?_,
      fun j g ok _ => next_of_empty hl j g ok⟩
    · simpa [string,given,reserve,hv] using ⟨rfl,SameMeaning.refl _ f⟩
    · rw [show string.clear w.heap f = _ from clear_of_none hb]
      exact ⟨rfl,sameMeaning_of_invalid hv (by simp [string,given,String.buffer,hv])⟩
    · simpa [string,given,append,hv] using ⟨rfl,SameMeaning.refl _ f⟩
    · simp [string,given,String.buffer,hv]

end String

/-! ## Runs -/

/-- The invalid objects of a state are inert. -/
def InvalidInert (c : Class α κ) (w : World α) : Prop :=
  ∀ k f, w.live? k = some f → f.isValid = false → Inert c w k f

/-- An invalid object keeps neither a pointer nor a length. -/
def Emptied (f : Option Fields) : Prop :=
  ∀ g ∈ f, g.valid_ = false → g.buf_ = none ∧ g.length_ = 0

namespace Sequence
variable {α : Type}

/-- The unmanaged constructor gets no memory but a length, or an unmanaged object with a buffer is
assigned an invalid one. -/
inductive LeavesRaw (w : World α) : Act α Constructor → Prop
  | unmanaged {length bound ok} (hl : length ≠ 0) :
      LeavesRaw w (.construct (.unmanaged none length bound) ok)
  | assign {k j ok f g} (hne : k ≠ j) (hf : w.live? k = some f) (hg : w.live? j = some g)
      (hm : f.managed_ = false) (hb : f.buf_ ≠ none) (hv : g.valid_ = false) :
      LeavesRaw w (.assign k j ok)

variable [Inhabited α] {w : World α} {k : ℕ} {f : Fields} {a : Act α Constructor} {o : Outcome α}

theorem Made.emptied (ho : Made false w a o) (hs : ¬LeavesRaw w a) : Emptied (some o.fields) := by
  intro g hg hv
  obtain rfl := Option.some.inj hg
  cases ho with
  | construct _ ho =>
    cases ho with
    | default | bounded | filled | emptyArray | unmanaged => simp [fill] at hv
    | nullArray | refused => exact ⟨rfl,rfl⟩
    | @nullBuffer length =>
      refine ⟨rfl,?_⟩
      by_contra hl
      exact hs (.unmanaged hl)
  | copy _ ho =>
    cases ho with
    | invalid | refused => exact ⟨rfl,rfl⟩
    | filled | empty => simp [fill] at hv

theorem Appends.valid {h : Heap α} {x : Elem α} {ok : Bool} (ho : Appends h k f x ok o) :
    o.fields.valid_ = f.valid_ ∧ (f.valid_ = false → o.fields = f) := by
  cases ho with
  | invalid => exact ⟨rfl,fun _ => rfl⟩
  | full hv | unmanaged hv | refused hv | put hv | wrapped hv | grown hv =>
    exact ⟨rfl,fun h => absurd (hv.symm.trans h) (by simp)⟩

theorem Done.emptied (ho : Done w k f a o) (hf : w.live? k = some f) (hs : ¬LeavesRaw w a)
    (hi : Emptied (some f)) : Emptied (some o.fields) := by
  intro g hg hv
  obtain rfl := Option.some.inj hg
  cases ho with
  | assign hlive hne ho =>
    cases ho with
    | managed _ ho =>
      cases ho with
      | invalid | refused => exact ⟨rfl,rfl⟩
      | filled | empty => simp [fill] at hv
    | unmanaged hm ho =>
      cases ho with
      | invalid hgv =>
        refine ⟨?_,rfl⟩
        by_contra hb
        exact hs (.assign hne hf hlive hm hb hgv)
      | refused => exact ⟨rfl,rfl⟩
      | filled | empty => simp [fill] at hv
  | reserve _ ho =>
    cases ho with
    | precondition | enough | bound | refused => exact hi f rfl hv
    | grown hfv =>
      have hv : f.valid_ = false := hv
      simp [hfv] at hv
  | clear => exact ⟨(hi f rfl hv).1,rfl⟩
  | append _ ho | next _ _ _ ho =>
    obtain ⟨he,hsame⟩ := ho.valid
    have hfv : f.valid_ = false := he.symm.trans hv
    rw [hsame hfv]
    exact hi f rfl hfv

theorem emptied_preserved : Preserved (sequence (α:=α)) LeavesRaw (fun _ => True)
    fun _ f _ => Emptied f where
  start := trivial
  caller _ := trivial
  unborn _ := by simp [Emptied]
  stable _ _ hi := hi
  makes _ _ hs hm := ⟨trivial,(makes_cases hm).emptied hs⟩
  does _ hw hs hf hd := ⟨trivial,(does_cases hd).emptied hf hs (hf ▸ hw.2 _)⟩
  destroy _ _ _ _ := ⟨trivial,by simp [Emptied]⟩

/-- What such a step leaves behind is not inert. -/
theorem not_inert_of_leavesRaw {w' : World α} (h : step sequence w a = some w')
    (hs : LeavesRaw w a) : ¬InvalidInert sequence w' := by
  intro hw'
  cases hs with
  | unmanaged hl =>
    obtain ⟨o,hm,rfl⟩ := (step_cases h).constructs
    cases makes_cases hm with
    | construct _ ho =>
      cases ho with
      | nullBuffer =>
        have hi := hw' _ _ (World.live?_push_self _) rfl
        exact hl ((inert_iff rfl).mp hi).2
  | assign hne hf hg hm hb hv =>
    obtain ⟨f,o,hf',hd,rfl⟩ := (step_cases h).assigns hne
    obtain rfl := Option.some.inj (hf.symm.trans hf')
    cases does_cases hd with
    | assign hg' _ ho =>
      obtain rfl := Option.some.inj (hg.symm.trans hg')
      cases ho with
      | managed hm' => simp [hm] at hm'
      | unmanaged _ ho =>
        cases ho with
        | invalid =>
          have hi := hw' _ _ (World.live?_put_self _ hf) rfl
          exact hb ((inert_iff rfl).mp hi).1
        | refused hv' | filled hv' | empty hv' => simp [hv] at hv'

theorem invalidInert_iff (e : Execution (step (sequence (α:=α))) World.init) :
    (∀ w ∈ e.visited, InvalidInert sequence w) ↔ ∀ p ∈ e.steps, ¬LeavesRaw p.1 p.2 := by
  refine e.forall_visited_iff (fun steps w hr hn => ?_) fun steps w a w' hr hn hstep hs => ?_
  · intro k f hf hv
    exact (inert_iff hv).mpr ((emptied_preserved.run confines hr hn).2 k f hf hv)
  · exact not_inert_of_leavesRaw hstep hs

end Sequence

namespace String

/-- The unmanaged constructor refuses its arguments, which are not a null pointer and length
zero. -/
inductive LeavesRaw : Act Cell Constructor → Prop
  | unmanaged {str length bound ok}
      (hr : str = none ∨ bound < length ∨ bound = 0 ∨ bound = unboundedSentinel)
      (hl : ¬(str = none ∧ length = 0)) : LeavesRaw (.construct (.unmanaged str length bound) ok)

variable {w : World Cell} {k : ℕ} {f : Fields} {a : Act Cell Constructor} {o : Outcome Cell}

theorem Made.emptied (ho : Made false w a o) (hs : ¬LeavesRaw a) : Emptied (some o.fields) := by
  intro g hg hv
  obtain rfl := Option.some.inj hg
  cases ho with
  | construct _ ho =>
    cases ho with
    | default => simp [default] at hv
    | bounded | wrap | unmanaged => simp at hv
    | filled => simp [copied,fill] at hv
    | noBound | wrapNull | nullString | noMemory => exact ⟨rfl,rfl⟩
    | refused hr =>
      by_contra hl
      exact hs (.unmanaged hr hl)
  | copy _ ho =>
    cases ho with
    | invalid | refused => exact ⟨rfl,rfl⟩
    | filled => simp [copied,fill] at hv

theorem Appends.valid {h : Heap Cell} {x : Elem Cell} {ok : Bool} (ho : Appends h k f x ok o) :
    o.fields.valid_ = f.valid_ ∧ (f.valid_ = false → o.fields = f) := by
  cases ho with
  | invalid => exact ⟨rfl,fun _ => rfl⟩
  | full hv | unmanaged hv | refused hv | put hv | grown hv =>
    exact ⟨rfl,fun h => absurd (hv.symm.trans h) (by simp)⟩

theorem Done.emptied (ho : Done w k f a o) (hi : Emptied (some f)) : Emptied (some o.fields) := by
  intro g hg hv
  obtain rfl := Option.some.inj hg
  cases ho with
  | assign _ _ ho =>
    cases ho with
    | invalid | refused => exact ⟨rfl,rfl⟩
    | filled => simp [copied,fill] at hv
  | reserve _ ho =>
    cases ho with
    | precondition | enough | refused => exact hi f rfl hv
    | grown hfv =>
      have hv : f.valid_ = false := hv
      simp [hfv] at hv
  | clear => exact ⟨(hi f rfl hv).1,rfl⟩
  | append _ ho | next _ _ _ ho =>
    obtain ⟨he,hsame⟩ := ho.valid
    have hfv : f.valid_ = false := he.symm.trans hv
    rw [hsame hfv]
    exact hi f rfl hfv

theorem emptied_preserved : Preserved string (fun _ => LeavesRaw) (fun _ => True)
    fun _ f _ => Emptied f where
  start := trivial
  caller _ := trivial
  unborn _ := by simp [Emptied]
  stable _ _ hi := hi
  makes _ _ hs hm := ⟨trivial,(makes_cases hm).emptied hs⟩
  does _ hw _ hf hd := ⟨trivial,(does_cases hd).emptied (hf ▸ hw.2 _)⟩
  destroy _ _ _ _ := ⟨trivial,by simp [Emptied]⟩

/-- What such a constructor leaves behind is not inert. -/
theorem not_inert_of_leavesRaw {w' : World Cell} (h : step string w a = some w')
    (hs : LeavesRaw a) : ¬InvalidInert string w' := by
  intro hw'
  cases hs with
  | unmanaged hr hl =>
    obtain ⟨o,hm,rfl⟩ := (step_cases h).constructs
    cases makes_cases hm with
    | construct _ ho =>
      cases ho with
      | refused =>
        have hi := hw' _ _ (World.live?_push_self _) rfl
        exact hl ((inert_iff rfl).mp hi)
      | unmanaged hle hz hs => simp [hz,hs,Nat.not_lt_of_le hle] at hr

theorem invalidInert_iff (e : Execution (step string) World.init) :
    (∀ w ∈ e.visited, InvalidInert string w) ↔ ∀ p ∈ e.steps, ¬LeavesRaw p.2 := by
  show _ ↔ ∀ p ∈ e.steps, ¬Function.const (World Cell) LeavesRaw p.1 p.2
  refine e.forall_visited_iff (fun steps w hr hn => ?_) fun steps w a w' hr hn hstep hs => ?_
  · intro k f hf hv
    exact (inert_iff hv).mpr ((emptied_preserved.run confines hr hn).2 k f hf hv)
  · exact not_inert_of_leavesRaw hstep hs

end String

/-- The invalid objects of a run of either class are inert if and only if the run has no step that
leaves a pointer or a length behind. -/
theorem invalid_inert_iff {α : Type} [Inhabited α] :
    (∀ e : Execution (step string) World.init,
      (∀ w ∈ e.visited, InvalidInert string w) ↔ ∀ p ∈ e.steps, ¬String.LeavesRaw p.2) ∧
    ∀ e : Execution (step (sequence (α:=α))) World.init,
      (∀ w ∈ e.visited, InvalidInert sequence w) ↔ ∀ p ∈ e.steps, ¬Sequence.LeavesRaw p.1 p.2 :=
  ⟨String.invalidInert_iff,Sequence.invalidInert_iff⟩

/-- A string over the caller's memory is refused. -/
def refusedString : Execution (step string) World.init :=
  .ofLabels [.caller [some 65,some 66],.construct (.unmanaged (some 0) 5 3) true] (by decide)

/-- Its `clear` writes to the caller's memory. -/
theorem refusedString_not_inert : ¬∀ w ∈ refusedString.visited, InvalidInert string w := by
  intro h
  have hi := h _ refusedString.final_mem_visited 0 ⟨some 0,5,3,3,false,false⟩ (by decide) rfl
  exact absurd hi.clear.1 (by decide)

end Blush.Storage
