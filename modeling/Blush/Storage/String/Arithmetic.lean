import Blush.Storage.String.Step

/-! The 32-bit arithmetic of `String`. It wraps in two places: `chars + 1` in `allocate`, for the
largest number, and the doubling in `append`, from a capacity of `2^31` on. -/
namespace Blush.Storage.String
open Memory Transition

/-- A write through a buffer that the object manages is inside the block. -/
def Inside (x : Access) : Prop := x.write = true → x.managed = true → x.index < x.held

/-- A block of an object has room for its capacity and the terminator, its length is at most its
capacity, and nothing was written outside a block. -/
structure Fits (w : World Cell) : Prop where
  block : ∀ k f, w.live? k = some f → f.managed_ = true → f.buf_ ≠ none →
    f.capacity_+1 ≤ (w.heap.memory.cells f.buf_).length ∧ f.length_ ≤ f.capacity_
  writes : w.heap.Checked Inside

/-- A step appends a character to an object that has to grow for it. -/
inductive Grows (w : World Cell) (f : Fields) : Act Cell Constructor → Prop
  | append {k e ok} (hf : w.live? k = some f) (hv : f.valid_ = true) (hm : f.managed_ = true)
      (hb : ¬f.Full) (hn : f.capacity_ ≤ f.length_) : Grows w f (.append k e ok)
  | next {k j i ok g} (hc : w.call = some ⟨k,j,i⟩) (hf : w.live? k = some f)
      (hg : w.live? j = some g) (hi : i < g.length_) (hv : f.valid_ = true)
      (hm : f.managed_ = true) (hb : ¬f.Full) (hn : f.capacity_ ≤ f.length_) :
      Grows w f (.next ok)

/-- An append that has to grow picks a capacity above the length. -/
def PicksLarger (w : World Cell) (a : Act Cell Constructor) : Prop :=
  ∀ f, Grows w f a → f.length_ < f.newCap 8

/-- The steps at which the arithmetic wraps: a successful allocation for `2^32-1` characters, and a
growth from a capacity of `2^31` or more. -/
inductive Wraps (w : World Cell) : Act Cell Constructor → Prop
  | reserve {k f} (hf : w.live? k = some f) (hv : f.valid_ = true) (hm : f.managed_ = true)
      (hb : f.bound_ = unboundedSentinel) (hn : f.capacity_ < 2^32-1) :
      Wraps w (.reserve k (2^32-1) true)
  | copy {j g} (hg : w.live? j = some g) (hv : g.valid_ = true) (hl : g.length_ = 2^32-1) :
      Wraps w (.copy j true)
  | assign {k j g} (hne : k ≠ j) (hg : w.live? j = some g) (hv : g.valid_ = true)
      (hl : g.length_ = 2^32-1) : Wraps w (.assign k j true)
  | cString {b} (hl : strlen w.heap.memory (some b) = 2^32-1) :
      Wraps w (.construct (.cString (some b)) true)
  | grow {f a} (hg : Grows w f a) (hc : 2^31 ≤ f.capacity_) : Wraps w a

/-- The invariant of an object. -/
structure Rep (k : ℕ) (f : Fields) (m : Memory (Option ℕ) Cell) : Prop where
  empty : f.managed_ = true → f.buf_ = none → f.length_ = 0 ∧ f.capacity_ = 0
  block : f.managed_ = true → f.buf_ ≠ none → m.owner? f.buf_ = some (some k) ∧
    (m.cells f.buf_).length = f.capacity_+1 ∧ f.length_ ≤ f.capacity_
  length_lt : f.length_ < 2^32
  capacity_lt : f.capacity_ < 2^32
  bound_lt : f.bound_ < 2^32

namespace Rep
variable {k : ℕ} {f : Fields} {m m' : Memory (Option ℕ) Cell}

/-- Nothing but the size of the object's own block matters. -/
theorem of_spares {S : Option ℕ → Option ℕ → Prop} (hr : Rep k f m) (hc : Spares S m m')
    (hk : ∀ p, ¬S p (some k)) : Rep k f m' where
  empty := hr.empty
  block hm hb := by
    obtain ⟨ho,hl,hle⟩ := hr.block hm hb
    exact ⟨hc.keeps _ _ ho,(hc.frame _ _ ho (hk _)).2.trans hl,hle⟩
  length_lt := hr.length_lt
  capacity_lt := hr.capacity_lt
  bound_lt := hr.bound_lt

theorem length_le (hr : Rep k f m) (hm : f.managed_ = true) : f.length_ ≤ f.capacity_ := by
  by_cases hb : f.buf_ = none
  · obtain ⟨hl,hc⟩ := hr.empty hm hb
    omega
  · exact (hr.block hm hb).2.2

/-- The terminator has its place too. -/
theorem inside {h : Heap Cell} {i : ℕ} (hr : Rep k f h.memory) (hb : f.buf_ ≠ none)
    (hi : i ≤ f.capacity_) : Inside (h.entry true f i) := by
  intro _ hm
  have hm : f.managed_ = true := hm
  have hheld : h.held f = f.capacity_+1 := by
    rw [Heap.held,if_pos hm]
    exact (hr.block hm hb).2.1
  exact (Nat.lt_succ_of_le hi).trans_eq hheld.symm

end Rep

theorem fits_of_holds {w : World Cell}
    (hw : w.Holds (fun h => h.Checked Inside) fun k f m => ∀ g ∈ f, Rep k g m) : Fits w where
  block k f hf hm hb := by
    obtain ⟨-,hl,hle⟩ := (hw.2 k f hf).block hm hb
    exact ⟨hl.ge,hle⟩
  writes := hw.1

/-! ## Steps that do not wrap -/

/-- The capacity can be doubled if the object has to grow. -/
def Doubles (f : Fields) : Prop :=
  f.valid_ = true → f.managed_ = true → ¬f.Full → f.capacity_ ≤ f.length_ → f.capacity_ < 2^31

section
variable {w : World Cell} {k j b n : ℕ} {f g : Fields} {e : Arg Cell} {ok : Bool}

/-- What is copied leaves a number for the terminator. -/
theorem length_lt_of_copy (hs : ¬Wraps w (.copy j ok)) (hg : w.live? j = some g)
    (hl : g.length_ < 2^32) (hok : ok = true) (hv : g.valid_ = true) : g.length_+1 < 2^32 := by
  subst hok
  have hne : g.length_ ≠ 2^32-1 := fun h => hs (.copy hg hv h)
  omega

theorem length_lt_of_assign (hs : ¬Wraps w (.assign k j ok)) (hkj : k ≠ j)
    (hg : w.live? j = some g) (hl : g.length_ < 2^32) (hok : ok = true) (hv : g.valid_ = true) :
    g.length_+1 < 2^32 := by
  subst hok
  have hne : g.length_ ≠ 2^32-1 := fun h => hs (.assign hkj hg hv h)
  omega

theorem strlen_lt (hs : ¬Wraps w (.construct (.cString (some b)) true)) :
    strlen w.heap.memory (some b)+1 < 2^32 := by
  have hlt : strlen w.heap.memory (some b) < 2^32 := Nat.mod_lt _ (by omega)
  have hne : strlen w.heap.memory (some b) ≠ 2^32-1 := fun h => hs (.cString h)
  omega

/-- So does the capacity that is reserved. -/
theorem capacity_lt_of_reserve (hs : ¬Wraps w (.reserve k n ok)) (hf : w.live? k = some f)
    (hv : f.valid_ = true) (hm : f.managed_ = true) (hb : f.bound_ = unboundedSentinel)
    (hcap : f.capacity_ < n) (hn : n < 2^32) (hok : ok = true) : n+1 < 2^32 := by
  subst hok
  have hne : n ≠ 2^32-1 := by
    rintro rfl
    exact hs (.reserve hf hv hm hb hcap)
  omega

theorem doubles_of_append (hs : ¬Wraps w (.append k e ok)) (hf : w.live? k = some f) :
    Doubles f := fun hv hm hb hn => Nat.lt_of_not_le fun h =>
  hs (.grow (.append hf hv hm hb hn) h)

theorem doubles_of_next {i : ℕ} (hs : ¬Wraps w (.next ok)) (hc : w.call = some ⟨k,j,i⟩)
    (hf : w.live? k = some f) (hg : w.live? j = some g) (hi : i < g.length_) : Doubles f :=
  fun hv hm hb hn => Nat.lt_of_not_le fun h => hs (.grow (.next hc hf hg hi hv hm hb hn) h)

end

/-! ## The operations -/

section
variable {h : Heap Cell} {k n i : ℕ} {f str : Fields} {preserve ok : Bool} {x : Elem Cell}
  {o : Outcome Cell}

/-- The new block is as large as it should be while `chars + 1` does not wrap. -/
theorem inside_alloc (hf : f.buf_ = h.memory.next) (hn : n+1 < 2^32) (hi : i ≤ n) :
    Inside ((h.alloc k (u32 (n+1))).entry true f i) := by
  intro _ hm
  have hm : f.managed_ = true := hm
  have hheld : (h.alloc k (u32 (n+1))).held f = n+1 := by
    rw [Heap.held,if_pos hm,Heap.memory_alloc,hf,cells_add_next,List.length_replicate,u32,
      Nat.mod_eq_of_lt hn]
  exact (Nat.lt_succ_of_le hi).trans_eq hheld.symm

theorem inside_read : Inside (h.entry false f i) := by
  intro hw
  contradiction

theorem checked_allocated (hc : h.Checked Inside) (hl : preserve = true → f.length_ ≤ n)
    (hn : n+1 < 2^32) : (allocated h k f n preserve).1.Checked Inside := by
  rw [allocated]
  refine Heap.Checked.delete ?_ _ _
  have hnew := hc.alloc k (u32 (n+1))
  by_cases hp : (preserve && f.buf_.isSome) = true
  · have hle := hl (by simpa using (Bool.and_eq_true_iff.mp hp).1)
    rw [if_pos hp]
    refine (hnew.copy (fun i _ => inside_read) fun i hi => ?_).store ?_ _
    · exact inside_alloc rfl hn (by omega)
    · rw [Heap.entry_copy]
      exact inside_alloc rfl hn hle
  · rw [if_neg hp]
    exact hnew.store (inside_alloc rfl hn (Nat.zero_le _)) _

theorem rep_allocated (ha : Placed f h.memory) (hn : n+1 < 2^32) (hl : f.length_ ≤ n)
    (hb : f.bound_ < 2^32) :
    Rep k (allocated h k f n preserve).2 (allocated h k f n preserve).1.memory where
  empty _ he := by simp [allocated,next] at he
  block _ _ := by
    refine ⟨owner?_allocated,?_,hl⟩
    show (cells _ h.memory.next).length = n+1
    rw [length_allocated ha,u32,Nat.mod_eq_of_lt hn]
  length_lt := lt_of_le_of_lt hl (by omega)
  capacity_lt := by
    show n < _
    omega
  bound_lt := hb

/-- The characters and the terminator of a copied string are inside the block. -/
theorem checked_fill (hc : h.Checked Inside) (hr : Rep k f h.memory) (hbuf : f.buf_ ≠ none)
    (hl : str.length_ ≤ f.capacity_) : (fill h f str).1.Checked Inside := by
  refine (hc.copy (fun i _ => inside_read) fun i hi => hr.inside hbuf (by omega)).store ?_ _
  rw [Heap.entry_copy]
  exact hr.inside hbuf hl

theorem rep_fill (hr : Rep k f h.memory) (hl : str.length_ ≤ f.capacity_) (hbuf : f.buf_ ≠ none) :
    Rep k (fill h f str).2 (fill h f str).1.memory where
  empty _ he := absurd he hbuf
  block hm _ := by
    obtain ⟨ho,hlen,-⟩ := hr.block hm hbuf
    refine ⟨?_,?_,hl⟩
    · simpa [fill] using ho
    · simpa [fill] using hlen
  length_lt := lt_of_le_of_lt hl hr.capacity_lt
  capacity_lt := hr.capacity_lt
  bound_lt := hr.bound_lt

/-- The copy of a string whose length is not the largest number. -/
theorem checked_copied (hc : h.Checked Inside) (ha : Placed f h.memory)
    (hl : f.length_ = 0) (hb : f.bound_ < 2^32) (hn : str.length_+1 < 2^32) :
    (copied h k f str).1.Checked Inside ∧
      Rep k (copied h k f str).2 (copied h k f str).1.memory := by
  have hrep : Rep k (allocated h k f str.length_ false).2
      (allocated h k f str.length_ false).1.memory := rep_allocated ha hn (by omega) hb
  have hbuf : (allocated h k f str.length_ false).2.buf_ ≠ none := by simp [allocated,next]
  exact ⟨checked_fill (checked_allocated hc (by simp) hn) hrep hbuf le_rfl,
    rep_fill hrep le_rfl hbuf⟩

/-- The copy constructor and the assignment operator, when they have reset the fields. -/
theorem CopiesFrom.rep (ho : CopiesFrom h k f str ok o) (hc : h.Checked Inside)
    (hbuf : f.buf_ = none) (hl : f.length_ = 0) (hcap : f.capacity_ = 0) (hb : f.bound_ < 2^32)
    (hs : ok = true → str.valid_ = true → str.length_+1 < 2^32) :
    o.heap.Checked Inside ∧ Rep k o.fields o.heap.memory := by
  cases ho with
  | invalid | refused =>
    exact ⟨hc,fun _ _ => ⟨hl,hcap⟩,fun _ h => absurd hbuf h,by simp [hl],by simp [hcap],hb⟩
  | filled hv hok => exact checked_copied hc (.inl hbuf) hl hb (hs hok hv)

theorem checked_put (hc : h.Checked Inside) (hr : Rep k f h.memory)
    (hn : f.managed_ = true → f.length_ < f.capacity_) :
    (put h f x).heap.Checked Inside ∧ Rep k (put h f x).fields (put h f x).heap.memory := by
  have hlen (hm : f.managed_ = true) : u32 (f.length_+1) = f.length_+1 :=
    Nat.mod_eq_of_lt (by have := hr.capacity_lt; have := hn hm; omega)
  have hbuf (hm : f.managed_ = true) : f.buf_ ≠ none := fun hb => by
    have := (hr.empty hm hb).2
    have := hn hm
    omega
  refine ⟨(hc.store ?_ _).store ?_ _,?_,?_,?_,hr.capacity_lt,hr.bound_lt⟩
  · exact fun hw hm => hr.inside (hbuf hm) (hn hm).le hw hm
  · rw [Heap.entry_store]
    exact fun hw hm => hr.inside (hbuf hm) ((hlen hm).trans_le (hn hm)) hw hm
  · exact fun hm hb => absurd hb (hbuf hm)
  · intro hm hb
    obtain ⟨howner,hsize,-⟩ := hr.block hm hb
    exact ⟨by simpa [put] using howner,by simpa [put] using hsize,(hlen hm).trans_le (hn hm)⟩
  · exact Nat.mod_lt _ (by omega)

theorem checked_clear (hc : h.Checked Inside) (hr : Rep k f h.memory) :
    (clear h f).heap.Checked Inside ∧ Rep k (clear h f).fields (clear h f).heap.memory := by
  by_cases hb : f.buf_ = none
  · rw [clear_of_none hb]
    exact ⟨hc,fun hm _ => ⟨rfl,(hr.empty hm hb).2⟩,fun _ h => absurd hb h,by simp,hr.capacity_lt,
      hr.bound_lt⟩
  · rw [clear_of_ne hb]
    refine ⟨hc.store (hr.inside hb (Nat.zero_le _)) _,fun _ h => absurd h hb,fun hm _ => ?_,
      by simp,hr.capacity_lt,hr.bound_lt⟩
    obtain ⟨howner,hsize,-⟩ := hr.block hm hb
    exact ⟨by simpa using howner,by simpa using hsize,Nat.zero_le _⟩

/-- A growing append does not allocate for the largest number. -/
theorem newCap_lt_sentinel (hb : f.bound_ < 2^32) (hc : f.capacity_ < 2^31) :
    f.newCap 8+1 < 2^32 := by
  by_cases hs : f.bound_ = unboundedSentinel
  · rw [Fields.newCap,if_neg (by simp [hs])]
    split
    · omega
    · rw [u32,Nat.mod_eq_of_lt (by omega)]
      omega
  · have hle := f.newCap_le 8 hs
    rw [unboundedSentinel] at hs
    omega

theorem Appends.rep (ho : Appends h k f x ok o) (hc : h.Checked Inside) (hr : Rep k f h.memory)
    (ha : Placed f h.memory) (hs : Doubles f) :
    o.heap.Checked Inside ∧ Rep k o.fields o.heap.memory := by
  cases ho with
  | invalid | full | unmanaged | refused => exact ⟨hc,hr⟩
  | put hv hb hn => exact checked_put hc hr fun _ => hn
  | grown hv hb hn hm =>
    have hcap := hs hv hm hb hn
    have hlt := Fields.lt_newCap 8 (by omega) hb hn hcap
    have hle : f.length_ ≤ f.newCap 8 := (hr.length_le hm).trans hlt.le
    have hsmall := newCap_lt_sentinel hr.bound_lt hcap
    refine checked_put (checked_allocated hc (fun _ => hle) hsmall)
      (rep_allocated ha hsmall hle hr.bound_lt) fun _ => ?_
    exact lt_of_le_of_lt (hr.length_le hm) hlt

end

/-- A constructor, unless it allocates for the largest number. -/
theorem Made.rep {lends : Bool} {w : World Cell} {a : Act Cell Constructor} {o : Outcome Cell}
    (ho : Made lends w a o) (hs : ¬Wraps w a) (hc : w.heap.Checked Inside)
    (hr : ∀ k f, w.live? k = some f → Rep k f w.heap.memory) :
    o.heap.Checked Inside ∧ Rep w.objects.length o.fields o.heap.memory := by
  have hinit {bound : ℕ} {valid : Bool} (hb : bound < 2^32) :
      Rep w.objects.length { Fields.initial bound with valid_ := valid } w.heap.memory :=
    ⟨fun _ _ => ⟨rfl,rfl⟩,by simp [Fields.initial],by simp [Fields.initial],by
      simp [Fields.initial],hb⟩
  have hstrlen (b : ℕ) : strlen w.heap.memory (some b) < 2^32 := Nat.mod_lt _ (by omega)
  cases ho with
  | construct ha ho =>
    cases ho with
    | default => exact ⟨hc,hinit (by simp [unboundedSentinel])⟩
    | noBound | nullString => exact ⟨hc,hinit (by simp)⟩
    | bounded => exact ⟨hc,hinit (by simpa [admissible] using ha)⟩
    | wrapNull => exact ⟨hc,by simp,by simp,by simp,by simp,by simp⟩
    | wrap => exact ⟨hc,by simp,by simp,hstrlen _,hstrlen _,hstrlen _⟩
    | noMemory => exact ⟨hc,hinit (hstrlen _)⟩
    | @filled b len hl =>
      subst hl
      exact checked_copied hc (.inl rfl) rfl (hstrlen b) (strlen_lt hs)
    | refused | unmanaged =>
      simp only [admissible,Bool.and_eq_true,decide_eq_true_eq] at ha
      exact ⟨hc,by simp,by simp,ha.1.2,ha.2,ha.2⟩
  | copy hg ho =>
    have hrg := hr _ _ hg
    exact ho.rep hc rfl rfl rfl hrg.bound_lt (length_lt_of_copy hs hg hrg.length_lt)

/-- An operation of an object, unless its arithmetic wraps. -/
theorem Done.rep {w : World Cell} {k : ℕ} {f : Fields} {a : Act Cell Constructor}
    {o : Outcome Cell} (ho : Done w k f a o) (ha : Placed f w.heap.memory)
    (hf : w.live? k = some f) (hs : ¬Wraps w a) (hc : w.heap.Checked Inside)
    (hr : ∀ k f, w.live? k = some f → Rep k f w.heap.memory) :
    o.heap.Checked Inside ∧ Rep k o.fields o.heap.memory := by
  have hrf := hr k f hf
  cases ho with
  | @assign j g ok o hg hne ho =>
    have hrg := hr j g hg
    have hrel : (releases w.heap k f).Checked Inside := by
      rw [releases]
      cases f.managed_ with
      | false => exact hc
      | true => exact hc.delete _ _
    exact ho.rep hrel rfl rfl rfl hrg.bound_lt (length_lt_of_assign hs hne hg hrg.length_lt)
  | @reserve n ok o hn ho =>
    cases ho with
    | precondition | enough | refused => exact ⟨hc,hrf⟩
    | grown hv hm hb hcap hok =>
      have hlt := capacity_lt_of_reserve hs hf hv hm hb hcap hn hok
      have hle : f.length_ ≤ n := (hrf.length_le hm).trans hcap.le
      exact ⟨checked_allocated hc (fun _ => hle) hlt,rep_allocated ha hlt hle hrf.bound_lt⟩
  | clear => exact checked_clear hc hrf
  | append hx ho => exact ho.rep hc hrf ha (doubles_of_append hs hf)
  | next hcall hg hi ho =>
    exact ho.rep (hc.access inside_read) hrf ha (doubles_of_next hs hcall hf hg hi)

theorem rep_preserved {lends : Bool} : Preserved (given lends) Wraps (fun h => h.Checked Inside)
    fun k f m => ∀ g ∈ f, Rep k g m where
  start := by simp [Heap.Checked]
  caller hc := hc
  unborn _ := by simp
  stable hc hS hr := fun g hg => (hr g hg).of_spares hc hS
  makes _ hw hs hm := by
    obtain ⟨hc,hr⟩ := (makes_cases hm).rep hs hw.1 fun k f hf => hw.2 k f hf
    exact ⟨hc,fun g hg => Option.some.inj hg ▸ hr⟩
  does hsound hw hs hf hd := by
    obtain ⟨hc,hr⟩ := (does_cases hd).rep (hsound.placed hf) hf hs hw.1 fun k f hf => hw.2 k f hf
    exact ⟨hc,fun g hg => Option.some.inj hg ▸ hr⟩
  destroy {w k f} _ hw _ _ := by
    refine ⟨?_,by simp⟩
    cases hm : f.managed_ with
    | false => simpa [World.destroy,hm] using hw.1
    | true => simpa [World.destroy,hm] using hw.1.delete k f.buf_

/-! ## Where it wraps -/

theorem Grows.rep {w : World Cell} {f : Fields} {a : Act Cell Constructor} (hg : Grows w f a)
    (hr : ∀ k f, w.live? k = some f → Rep k f w.heap.memory) :
    ∃ k, Rep k f w.heap.memory ∧ f.managed_ = true ∧ ¬f.Full ∧ f.capacity_ ≤ f.length_ := by
  cases hg with
  | append hf hv hm hb hn => exact ⟨_,hr _ _ hf,hm,hb,hn⟩
  | next hc hf hg hi hv hm hb hn => exact ⟨_,hr _ _ hf,hm,hb,hn⟩

theorem picksLarger_of_not_wraps {w : World Cell} {a : Act Cell Constructor}
    (hr : ∀ k f, w.live? k = some f → Rep k f w.heap.memory) (hs : ¬Wraps w a) :
    PicksLarger w a := by
  intro f hg
  obtain ⟨k,hrep,hm,hb,hn⟩ := hg.rep hr
  have hcap : f.capacity_ < 2^31 := Nat.lt_of_not_le fun h => hs (.grow hg h)
  exact lt_of_le_of_lt (hrep.length_le hm) (Fields.lt_newCap 8 (by omega) hb hn hcap)

theorem length_copied {h : Heap Cell} {k : ℕ} {f str : Fields} (ha : Placed f h.memory) :
    ((copied h k f str).1.memory.cells (copied h k f str).2.buf_).length =
      u32 (str.length_+1) := by
  have hlen : ((allocated h k f str.length_ false).1.memory.cells h.memory.next).length =
      u32 (str.length_+1) := length_allocated ha
  rw [← hlen]
  simp [copied,fill,allocated]

/-- A valid object that owns a block of size zero. -/
structure Hollow (f : Fields) (m : Memory (Option ℕ) Cell) : Prop where
  valid : f.valid_ = true
  managed : f.managed_ = true
  buffer : f.buf_ ≠ none
  size : (m.cells f.buf_).length = 0

/-- It does not fit. -/
theorem Hollow.not_fits {w : World Cell} {k : ℕ} {f : Fields} (h : Hollow f w.heap.memory)
    (hf : w.live? k = some f) : ¬Fits w := by
  intro hw
  have hsize := (hw.block k f hf h.managed h.buffer).1
  have hzero := h.size
  omega

/-- A copy for the largest number of characters. -/
theorem hollow_copied {h : Heap Cell} {k : ℕ} {f str : Fields} (hm : f.managed_ = true)
    (ha : Placed f h.memory) (hl : str.length_ = 2^32-1) :
    Hollow (copied h k f str).2 (copied h k f str).1.memory where
  valid := rfl
  managed := hm
  buffer := by simp [copied,fill,allocated,next]
  size := by
    rw [length_copied ha,hl]
    rfl

/-- A step that wraps is a growth, or it leaves such an object behind. -/
theorem Wraps.grows_or_hollow {lends : Bool} {w w' : World Cell} {a : Act Cell Constructor}
    (hs : Wraps w a) (hw : w.Sound (given lends)) (h : step (given lends) w a = some w') :
    (∃ f, Grows w f a ∧ 2^31 ≤ f.capacity_) ∨
      ∃ k f, w'.live? k = some f ∧ Hollow f w'.heap.memory := by
  cases hs with
  | @grow f _ hg hc => exact .inl ⟨f,hg,hc⟩
  | @reserve k f hf hv hm hb hn =>
    obtain ⟨o,hd,rfl⟩ := (step_cases h).reserves hf
    refine .inr ⟨k,o.fields,World.live?_put_self o hf,?_⟩
    show Hollow o.fields o.heap.memory
    cases does_cases hd with
    | reserve _ ho =>
      cases ho with
      | precondition hp => simp [hv,hm,hb] at hp
      | enough _ _ _ hle => omega
      | refused _ _ _ _ hok => simp at hok
      | grown =>
        refine ⟨hv,hm,by simp [allocated,next],?_⟩
        exact length_allocated (hw.placed hf)
  | copy hg hv hl =>
    obtain ⟨o,hmakes,rfl⟩ := (step_cases h).copies
    refine .inr ⟨w.objects.length,o.fields,World.live?_push_self o,?_⟩
    cases makes_cases hmakes with
    | copy hg' ho =>
      obtain rfl := Option.some.inj (hg.symm.trans hg')
      cases ho with
      | invalid hv' => simp [hv] at hv'
      | refused _ hok => simp at hok
      | filled => exact hollow_copied rfl (.inl rfl) hl
  | @assign k _ _ hne hg hv hl =>
    obtain ⟨f,o,hf,hd,rfl⟩ := (step_cases h).assigns hne
    refine .inr ⟨k,o.fields,World.live?_put_self o hf,?_⟩
    cases does_cases hd with
    | assign hg' _ ho =>
      obtain rfl := Option.some.inj (hg.symm.trans hg')
      cases ho with
      | invalid hv' => simp [hv] at hv'
      | refused _ hok => simp at hok
      | filled => exact hollow_copied rfl (.inl rfl) hl
  | cString hl =>
    obtain ⟨o,hmakes,rfl⟩ := (step_cases h).constructs
    refine .inr ⟨w.objects.length,o.fields,World.live?_push_self o,?_⟩
    cases makes_cases hmakes with
    | construct _ ho =>
      cases ho with
      | filled hlen => exact hollow_copied rfl (.inl rfl) (hlen.trans hl)

theorem not_fits_of_wraps {w w' : World Cell} {a : Act Cell Constructor} (hw : w.Sound string)
    (hr : ∀ k f, w.live? k = some f → Rep k f w.heap.memory)
    (h : step string w a = some w') (hs : Wraps w a) (hfits : Fits w') : ¬PicksLarger w a := by
  rcases hs.grows_or_hollow hw h with ⟨f,hg,hc⟩ | ⟨k,f,hf,hhollow⟩
  · intro hp
    obtain ⟨k,hrep,hm,hb,hn⟩ := hg.rep hr
    have hlarger := hp f hg
    have hlt := Fields.newCap_lt 8 hc hrep.capacity_lt
    omega
  · exact absurd hfits (hhollow.not_fits hf)

/-- The arithmetic is right throughout a run if and only if it never wraps. -/
theorem fits_iff (e : Execution (step string) World.init) :
    ((∀ w ∈ e.visited, Fits w) ∧ ∀ p ∈ e.steps, PicksLarger p.1 p.2) ↔
      ∀ p ∈ e.steps, ¬Wraps p.1 p.2 := by
  refine e.forall_visited_steps_iff (fun steps w hr hn => ?_) (fun steps w a hr hn hs => ?_)
    fun steps w a w' hr hn hstep hs hP => ?_
  · exact fits_of_holds (rep_preserved.run confines hr hn)
  · have hw := rep_preserved.run confines hr hn
    exact picksLarger_of_not_wraps (fun k f hf => hw.2 k f hf) hs
  · have hw := rep_preserved.run confines hr hn
    exact not_fits_of_wraps (run_sound confines hr hn) (fun k f hf => hw.2 k f hf) hstep hs hP

/-- `reserve` is called with the largest number. -/
def reservedAll : Execution (step string) World.init :=
  .ofLabels [.construct .default true,.reserve 0 (2^32-1) true] (by decide)

theorem reservedAll_not_fits :
    ¬((∀ w ∈ reservedAll.visited, Fits w) ∧ ∀ p ∈ reservedAll.steps, PicksLarger p.1 p.2) := by
  rintro ⟨h,-⟩
  have hb := (h _ reservedAll.final_mem_visited).block 0
    ⟨some 0,0,2^32-1,unboundedSentinel,true,true⟩ (by decide) rfl (by decide)
  exact absurd hb.1 (by decide)

end Blush.Storage.String
