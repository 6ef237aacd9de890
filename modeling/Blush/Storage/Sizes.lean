import Blush.Storage.Atomicity
import Blush.Storage.Sequence.Step
import Blush.Storage.String.Step

/-! Strings and sequences grow alike, so that `append(src)` does all or nothing in the same cases. -/
namespace Blush.Storage
open Transition World
variable {α κ : Type} [Inhabited α]

/-- An object without memory. -/
theorem Fields.words_initial {bound : ℕ} {valid : Bool} (h : bound < 2^32) :
    { Fields.initial bound with valid_ := valid }.Words :=
  ⟨by simp [Fields.initial],by simp [Fields.initial],h,by simp [Fields.initial]⟩

theorem unboundedSentinel_lt : unboundedSentinel < 2^32 := by simp [unboundedSentinel]

omit [Inhabited α] in
/-- The numbers of all objects are `UnsignedLong`s in every state of a run if all operations keep
them so. -/
theorem run_words {c : Class α κ} (hc : Confines c fun _ _ => False)
    (hmakes : ∀ {w a o}, (∀ k f, w.live? k = some f → f.Words) → Makes c w a o → o.fields.Words)
    (hdoes : ∀ {w k f a o}, (∀ k f, w.live? k = some f → f.Words) → w.live? k = some f →
      Does c w k f a o → o.fields.Words) {e : Execution (step c) World.init} {w : World α} {k : ℕ}
    {f : Fields} (hw : w ∈ e.visited) (hf : w.live? k = some f) : f.Words := by
  have hI : Preserved c (fun _ _ => False) (fun _ => True) fun _ f _ => ∀ g ∈ f, g.Words := {
    start := trivial
    caller _ := trivial
    unborn _ := by simp
    stable _ _ h := h
    makes _ hw _ hm :=
      ⟨trivial,fun g hg => Option.some.inj hg ▸ hmakes (fun k f hf => hw.2 k f hf) hm⟩
    does _ hw _ hf hd :=
      ⟨trivial,fun g hg => Option.some.inj hg ▸ hdoes (fun k f hf => hw.2 k f hf) hf hd⟩
    destroy _ _ _ _ := ⟨trivial,by simp⟩ }
  obtain ⟨steps,-,hr⟩ := e.run.prefix_of_visited hw
  exact (hI.run hc hr fun _ _ => id).2 k f hf

namespace String
variable {h : Heap Cell} {k : ℕ} {f str : Fields} {x : Elem Cell} {ok : Bool} {o : Outcome Cell}

theorem Appends.sized (ho : Appends h k f x ok o) : Sized 8 h f ok o := by
  cases ho with
  | invalid hv => exact .invalid hv
  | full hv hb => exact .full hv hb
  | put hv hb hn => exact .room hv hb hn
  | unmanaged hv hb hn hm => exact .stuck hv hb hn (.inl hm) (by simp)
  | refused hv hb hn _ hok => exact .stuck hv hb hn (.inr hok) (by simp)
  | grown hv hb hn hm hok => exact .grown hv hb hn hm hok

theorem CopiesFrom.words (ho : CopiesFrom h k f str ok o) (hf : f.Words) (hs : str.Words)
    (hm : f.managed_ = true) : o.fields.Words := by
  cases ho with
  | invalid | refused => exact hf
  | filled =>
    exact ⟨hs.length_lt,hs.length_lt,hf.bound_lt,fun h => by simp [copied,fill,allocated,hm] at h⟩

theorem Made.words {lends : Bool} {w : World Cell} {a : Act Cell Constructor} (ho : Made lends w a o)
    (hw : ∀ k f, w.live? k = some f → f.Words) : o.fields.Words := by
  have hstrlen (b : ℕ) : strlen w.heap.memory (some b) < 2^32 := Nat.mod_lt _ (by omega)
  cases ho with
  | copy hg ho => exact ho.words (Fields.words_initial (hw _ _ hg).bound_lt) (hw _ _ hg) rfl
  | construct ha ho =>
    cases ho with
    | default => exact Fields.words_initial unboundedSentinel_lt
    | noBound | nullString => exact Fields.words_initial (by omega)
    | bounded => exact Fields.words_initial (by simpa [admissible] using ha)
    | wrapNull => exact ⟨by simp,by simp,by simp,fun _ => rfl⟩
    | wrap => exact ⟨hstrlen _,hstrlen _,hstrlen _,fun _ => rfl⟩
    | noMemory => exact Fields.words_initial (hstrlen _)
    | @filled b len hl =>
      subst hl
      exact ⟨hstrlen b,hstrlen b,hstrlen b,by simp [copied,fill,allocated,Fields.initial]⟩
    | refused | unmanaged =>
      simp only [admissible,Bool.and_eq_true,decide_eq_true_eq] at ha
      exact ⟨ha.1.2,ha.2,ha.2,fun _ => rfl⟩

theorem Done.words {w : World Cell} {a : Act Cell Constructor} (ho : Done w k f a o)
    (hw : ∀ k f, w.live? k = some f → f.Words) (hf : w.live? k = some f) : o.fields.Words := by
  have hwf := hw k f hf
  cases ho with
  | assign hg _ ho =>
    refine ho.words ⟨?_,?_,(hw _ _ hg).bound_lt,?_⟩ (hw _ _ hg) rfl
    · simp [Fields.released]
    · simp [Fields.released]
    · simp [Fields.released]
  | reserve hn ho =>
    cases ho with
    | precondition | enough | refused => exact hwf
    | grown _ hm => exact hwf.resized hm hn _
  | clear => exact ⟨Nat.two_pow_pos 32,hwf.capacity_lt,hwf.bound_lt,hwf.unmanaged⟩
  | append _ ho | next _ _ _ ho => exact ho.sized.words (by omega) hwf

theorem growth : Growth string 8 where
  pos := by omega
  lt := by omega
  append h k f x ok := (append_cases h k f x ok).sized
  words := run_words confines (fun hw hm => (makes_cases hm).words hw)
    fun hw hf hd => (does_cases hd).words hw hf

end String

namespace Sequence
variable {h : Heap α} {k : ℕ} {f seq : Fields} {x : Elem α} {ok : Bool}
  {o : Outcome α}

theorem Appends.sized (ho : Appends h k f x ok o) : Sized 4 h f ok o := by
  cases ho with
  | invalid hv => exact .invalid hv
  | full hv hb => exact .full hv hb
  | put hv hb hn => exact .room hv hb hn
  | unmanaged hv hb hn hm => exact .stuck hv hb hn (.inl hm) (by simp)
  | refused hv hb hn _ _ hok => exact .stuck hv hb hn (.inr hok) (by simp)
  | grown hv hb hn hm _ hok => exact .grown hv hb hn hm hok
  | wrapped hv hb hn hm hc => exact .wrapped hv hb hn hm hc

theorem CopiesFrom.words (ho : CopiesFrom h k f seq ok o) (hf : f.Words) (hs : seq.Words)
    (hm : f.managed_ = true) : o.fields.Words := by
  cases ho with
  | invalid => exact hf
  | refused => exact ⟨hf.length_lt,hf.capacity_lt,hf.bound_lt,hf.unmanaged⟩
  | filled => exact ⟨hs.length_lt,hs.length_lt,hf.bound_lt,fun h => by simp [fill,hm] at h⟩
  | empty => exact ⟨by simp,hf.capacity_lt,hf.bound_lt,hf.unmanaged⟩

theorem Made.words {lends : Bool} {w : World α} {a : Act α Constructor} (ho : Made lends w a o)
    (hw : ∀ k f, w.live? k = some f → f.Words) : o.fields.Words := by
  cases ho with
  | copy hg ho => exact ho.words (Fields.words_initial (hw _ _ hg).bound_lt) (hw _ _ hg) rfl
  | construct ha ho =>
    cases ho with
    | default => exact Fields.words_initial unboundedSentinel_lt
    | bounded => exact Fields.words_initial (by simpa [admissible] using ha)
    | nullArray | refused | emptyArray =>
      simp only [admissible,Bool.and_eq_true,decide_eq_true_eq] at ha
      exact Fields.words_initial ha.2
    | filled =>
      simp only [admissible,Bool.and_eq_true,decide_eq_true_eq] at ha
      exact ⟨ha.2,ha.2,ha.2,by simp [fill,Fields.initial]⟩
    | nullBuffer | unmanaged =>
      simp only [admissible,Bool.and_eq_true,decide_eq_true_eq] at ha
      exact ⟨ha.1.2,ha.2,ha.2,fun _ => rfl⟩

theorem Done.words {w : World α} {a : Act α Constructor} (ho : Done w k f a o)
    (hw : ∀ k f, w.live? k = some f → f.Words) (hf : w.live? k = some f) : o.fields.Words := by
  have hwf := hw k f hf
  cases ho with
  | assign hg _ ho =>
    have hreleased : (f.released (Fields.bound_ _)).Words :=
      ⟨by simp [Fields.released],by simp [Fields.released],(hw _ _ hg).bound_lt,by
        simp [Fields.released]⟩
    cases ho with
    | managed _ ho =>
      exact ho.words ⟨hreleased.length_lt,hreleased.capacity_lt,hreleased.bound_lt,
        hreleased.unmanaged⟩ (hw _ _ hg) rfl
    | unmanaged _ ho => exact ho.words hreleased (hw _ _ hg) rfl
  | reserve hn ho =>
    cases ho with
    | precondition | enough | bound | refused => exact hwf
    | grown _ hm => exact hwf.resized hm hn _
  | clear => exact ⟨by simp,hwf.capacity_lt,hwf.bound_lt,hwf.unmanaged⟩
  | append _ ho | next _ _ _ ho => exact ho.sized.words (by omega) hwf

theorem growth : Growth (sequence (α:=α)) 4 where
  pos := by omega
  lt := by omega
  append h k f x ok := (append_cases h k f x ok).sized
  words := run_words confines (fun hw hm => (makes_cases hm).words hw)
    fun hw hf hd => (does_cases hd).words hw hf

end Sequence
/-- `dst.append(src)` does all or nothing when its first element decides, and while capacities are
moderate only then. -/
def AtomicWhenDecided (c : Class α κ) (first : ℕ) (w : World α) : Prop :=
  ∀ k j f g, k ≠ j → w.live? k = some f → w.live? j = some g →
    (Decided first f g.length_ → AppendsAllOrNothing c w k j f g) ∧
      (f.Moderate → (AppendsAllOrNothing c w k j f g ↔ Decided first f g.length_))

theorem append_all_or_nothing_iff :
    (∀ e : Execution (step string) World.init, ∀ w ∈ e.visited, w.call = none →
      AtomicWhenDecided string 8 w) ∧
    ∀ e : Execution (step (sequence (α:=α))) World.init, ∀ w ∈ e.visited, w.call = none →
      AtomicWhenDecided sequence 4 w :=
  ⟨fun _ _ hw hcall _ _ _ _ hne hf hg =>
      String.growth.appendsAllOrNothing_iff hw hcall hne hf hg,
    fun _ _ hw hcall _ _ _ _ hne hf hg =>
      Sequence.growth.appendsAllOrNothing_iff hw hcall hne hf hg⟩

/-- A string bounded by two and one of three characters. -/
def boundedTarget : Execution (step string) World.init :=
  .ofLabels [.caller [some 72,some 105,some 33,some 0],.construct (.bounded 2) true,
    .construct (.wrap (some 0)) true] (by decide)

theorem boundedTarget_atomicWhenDecided : AtomicWhenDecided string 8 boundedTarget.final :=
  (append_all_or_nothing_iff (α:=ℕ)).1 boundedTarget _ boundedTarget.final_mem_visited (by decide)

/-- Two of the three characters are appended before the bound is reported. -/
theorem boundedTarget_not_all_or_nothing :
    ¬∀ f g, boundedTarget.final.live? 0 = some f → boundedTarget.final.live? 1 = some g →
      AppendsAllOrNothing string boundedTarget.final 0 1 f g := by
  intro h
  have hcall := h ⟨none,0,0,2,true,true⟩ ⟨some 0,3,3,3,false,true⟩ (by decide) (by decide)
    [true,true,true] _ ⟨rfl,rfl⟩
  obtain ⟨f,hf,hlen,-⟩ := hcall.unchanged (by decide)
  obtain rfl := Option.some.inj (hf.symm.trans
    (show _ = some (⟨some 1,2,2,2,true,true⟩ : Fields) by decide))
  exact absurd hlen (by decide)

end Blush.Storage
