import Mathlib.Data.List.TakeWhile
import Blush.Storage.String.Refinement

/-! `buffer()` ends with a NUL at `length()`. Managed strings place it themselves; a string over
memory that is not its own relies on what is there and on what is done to that memory. -/
namespace Blush.Storage.String
open Memory Transition World

/-- `buffer()` of a valid object is not null and has a NUL at `length()`. -/
def Terminated (w : World Cell) : Prop :=
  ∀ k f, w.live? k = some f → f.isValid = true → lending.buffer f ≠ .null ∧
    (shown w.heap.memory (lending.buffer f))[f.length]? = some nul

/-- An object has room for a character. -/
structure Puts (f : Fields) : Prop where
  valid : f.valid_ = true
  notFull : ¬f.Full
  room : f.length_ < f.capacity_

/-- A step writes the character `v` behind the content of such an object, the one numbered `k`. -/
inductive Writes (w : World Cell) (k : ℕ) (f : Fields) (v : Cell) : Act Cell Constructor → Prop
  | append {e ok x} (hf : w.live? k = some f) (hp : Puts f) (hx : w.resolve lending e = some x)
      (he : x.get w.heap.memory = v) : Writes w k f v (.append k e ok)
  | next {j i g ok} (hf : w.live? k = some f) (hp : Puts f) (hc : w.call = some ⟨k,j,i⟩)
      (hg : w.live? j = some g) (hi : i < g.length_) (he : w.heap.memory.read g.buf_ i = v) :
      Writes w k f v (.next ok)

/-- The steps that lose a terminator: an unmanaged object is made of memory without one, an object
writes the last character that its memory holds or over the terminator of another object, it
releases a buffer that another object shows, or the arithmetic wraps. -/
inductive LosesNul (w : World Cell) : Act Cell Constructor → Prop
  | unmanaged {b length bound ok} (hl : length ≤ bound) (hz : bound ≠ 0)
      (hs : bound ≠ unboundedSentinel) (hr : w.heap.memory.read (some b) length ≠ nul) :
      LosesNul w (.construct (.unmanaged (some b) length bound) ok)
  | wrap {b ok} (hl : 2^32 ≤ (chars w.heap.memory (some b)).length) :
      LosesNul w (.construct (.wrap (some b)) ok)
  | noRoom {a k f v} (hp : Writes w k f v a)
      (hl : (w.heap.memory.cells f.buf_).length ≤ f.length_+1) : LosesNul w a
  | overwrites {a k f v j g} (hp : Writes w k f v a) (hv : v ≠ nul) (hg : w.live? j = some g)
      (hj : j ≠ k) (hgv : g.valid_ = true) (hb : g.buf_ = f.buf_) (hl : g.length_ = f.length_) :
      LosesNul w a
  | frees {a k f j g} (hv : Views w k f j g) (hr : Releases reserves w k f a) : LosesNul w a
  | wraps {a} (hw : Wraps w a) (hok : a.ok = true) : LosesNul w a

/-! ## One object -/

/-- A valid object is empty or has the terminator in its buffer. -/
def Ends (f : Fields) (m : Memory (Option ℕ) Cell) : Prop :=
  f.valid_ = true → (f.buf_ = none → f.length_ = 0) ∧
    (f.buf_ ≠ none → m.read f.buf_ f.length_ = nul)

section
variable {m m' : Memory (Option ℕ) Cell} {p q : Option ℕ} {f g : Fields} {i n : ℕ}

theorem read_eq_nul : m.read p i = nul ↔ (m.cells p)[i]? = some nul := by
  rw [Memory.read,List.getD_eq_getElem?_getD]
  cases (m.cells p)[i]? with
  | none => simp [nul]
  | some v => simp

theorem ends_iff : Ends f m ↔ (f.isValid = true → lending.buffer f ≠ .null ∧
    (shown m (lending.buffer f))[f.length]? = some nul) := by
  refine imp_congr_right fun hv => ?_
  have hlen : f.length = f.length_ := if_pos hv
  rw [hlen]
  cases hb : f.buf_ with
  | none =>
    have hbuffer : lending.buffer f = .literal := by simp [lending,given,String.buffer,hv,hb]
    rw [hbuffer]
    cases f.length_ <;> simp [shown]
  | some b =>
    have hbuffer : lending.buffer f = .block b := by simp [lending,given,String.buffer,hv,hb]
    rw [hbuffer]
    simp [shown,read_eq_nul]

theorem lt_of_read (h : m.read p i = nul) : i < (m.cells p).length :=
  (List.getElem?_eq_some_iff.mp (read_eq_nul.mp h)).1

/-- A C string has its terminator behind its characters. -/
theorem read_strlen_eq_nul {lends : Bool} {b : ℕ}
    (ha : admissible lends m (.wrap (some b)) = true) (hlt : (chars m (some b)).length < 2^32) :
    m.read (some b) (strlen m (some b)) = nul := by
  have hmem : nul ∈ m.cells (some b) := by
    simp only [admissible,Option.isNone_some,Bool.false_or,Bool.and_eq_true,
      List.contains_iff_mem] at ha
    exact ha.2
  have hlen : strlen m (some b) = (chars m (some b)).length := Nat.mod_eq_of_lt hlt
  rw [read_eq_nul,hlen,chars]
  generalize m.cells (some b) = cells at hmem
  induction cells with
  | nil => simp at hmem
  | cons c cells ih =>
    by_cases hc : c = nul
    · simp [hc]
    · have hmem : nul ∈ cells := by simpa [Ne.symm hc] using hmem
      simpa [hc] using ih hmem

/-- None of its characters is a NUL. -/
theorem read_ne_nul_of_chars (hi : i < (chars m p).length) : m.read p i ≠ nul := by
  have hbefore : chars m p <+: m.cells p := List.takeWhile_prefix _
  have hget : (m.cells p)[i]? = (chars m p)[i]? := by
    rw [List.getElem?_eq_getElem hi]
    exact List.prefix_iff_getElem?.mp hbefore i hi
  have hmem : (chars m p)[i] ∈ chars m p := List.getElem_mem hi
  intro hr
  rw [read_eq_nul,hget,List.getElem?_eq_getElem hi] at hr
  have hne := List.mem_takeWhile_imp hmem
  simp [Option.some.inj hr] at hne

/-- A NUL does not overwrite a terminator. -/
theorem read_write_nul (h : m.read p i = nul) : (m.write q n nul).read p i = nul := by
  by_cases hi : i = n
  · subst i
    by_cases hp : p = q
    · subst p
      exact read_write_self (lt_of_read h) nul
    · rw [read_of_ne (cells_write_of_ne n nul hp),h]
  · rw [read_write_of_ne hi,h]

theorem Ends.of_cells (h : Ends f m) (hc : m'.cells f.buf_ = m.cells f.buf_) : Ends f m' :=
  fun hv => ⟨(h hv).1,fun hb => (read_of_ne hc _).trans ((h hv).2 hb)⟩

theorem Ends.write_nul (h : Ends f m) : Ends f (m.write q n nul) :=
  fun hv => ⟨(h hv).1,fun hb => read_write_nul ((h hv).2 hb)⟩

theorem ends_of_invalid (hv : f.valid_ = false) : Ends f m := fun h => by simp [hv] at h

theorem ends_of_closed {k : ℕ} (hr : Rep k f m) (hm : f.managed_ = true) (hc : Closed f m) :
    Ends f m := fun _ => ⟨fun hb => (hr.empty hm hb).1,hc hm⟩

end

section
variable {h : Heap Cell} {k : ℕ} {f g : Fields} {x : Elem Cell}

/-- What is put behind the content of another object. -/
theorem Ends.put (hg : Ends g h.memory)
    (hn : x.get h.memory ≠ nul → g.valid_ = true → g.buf_ = f.buf_ → g.length_ ≠ f.length_) :
    Ends g (put h f x).heap.memory := by
  have hmemory : (String.put h f x).heap.memory =
      (h.memory.write f.buf_ f.length_ (x.get h.memory)).write f.buf_ (u32 (f.length_+1)) nul := rfl
  rw [hmemory]
  refine Ends.write_nul fun hv => ⟨(hg hv).1,fun hb => ?_⟩
  by_cases hnul : x.get h.memory = nul
  · rw [hnul]
    exact read_write_nul ((hg hv).2 hb)
  · by_cases hbuf : g.buf_ = f.buf_
    · rw [read_write_of_ne (hn hnul hv hbuf),(hg hv).2 hb]
    · rw [read_of_ne (cells_write_of_ne _ _ hbuf),(hg hv).2 hb]

/-- What an object puts behind its own content. -/
theorem ends_put (hn : f.length_+1 < (h.memory.cells f.buf_).length) (hl : f.length_+1 < 2^32) :
    Ends (put h f x).fields (put h f x).heap.memory := by
  refine fun _ => ⟨fun hb => ?_,fun _ => (content_put hn hl).2⟩
  have hbuf : f.buf_ = none := hb
  rw [hbuf] at hn
  exact absurd hn (Nat.not_lt_zero _)

/-- A cleared object has the terminator in front. -/
theorem ends_clear (hf : Ends f h.memory) :
    Ends (clear h f).fields (clear h f).heap.memory := by
  by_cases hb : f.buf_ = none
  · rw [clear_of_none hb]
    exact fun _ => ⟨fun _ => rfl,fun h => absurd hb h⟩
  · rw [clear_of_ne hb]
    refine fun hv => ⟨fun _ => rfl,fun _ => read_write_self ?_ _⟩
    exact (Nat.zero_le _).trans_lt (lt_of_read ((hf hv).2 hb))

end

/-! ## The managed objects -/

/-- What is known of every object; a managed one leaves a number for the terminator. -/
def Roomy (k : ℕ) (f : Fields) (m : Memory (Option ℕ) Cell) : Prop :=
  Kept k f m ∧ (f.managed_ = true → f.capacity_+1 < 2^32)

section
variable {w : World Cell} {h : Heap Cell} {k : ℕ} {f str : Fields} {a : Act Cell Constructor}
  {x : Elem Cell} {ok : Bool} {o : Outcome Cell}

theorem Wraps.grows (hw : Wraps w a) (hok : a.ok = false) : ∃ f, Grows w f a := by
  cases hw with
  | reserve | copy | assign | cString => simp [Act.ok] at hok
  | grow hg => exact ⟨_,hg⟩

theorem not_wraps_of_makes (hs : ¬LosesNul w a) (hm : Makes lending w a o) : ¬Wraps w a := by
  intro hw
  cases hok : a.ok with
  | true => exact hs (.wraps hw hok)
  | false =>
    obtain ⟨f,hg⟩ := hw.grows hok
    cases hm with
    | construct | copy => cases hg

theorem Appends.of_refused (ho : Appends h k f x ok o) (hn : f.capacity_ ≤ f.length_)
    (hok : ok = false) : o.heap = h ∧ o.fields = f := by
  cases ho with
  | invalid | full | unmanaged | refused => exact ⟨rfl,rfl⟩
  | put _ _ hlt => exact absurd hlt (Nat.not_lt_of_le hn)
  | grown _ _ _ _ hok' => simp [hok] at hok'

/-- Where the arithmetic would wrap but no memory is there, nothing happens. -/
theorem Done.of_refused (hf : w.live? k = some f) (hw : Wraps w a) (hok : a.ok = false)
    (ho : Done w k f a o) : o.heap.memory = w.heap.memory ∧ o.fields = f ∧
      (w.heap.Checked Inside → o.heap.Checked Inside) := by
  obtain ⟨f',hg⟩ := hw.grows hok
  cases hg with
  | append hf' _ _ _ hn =>
    cases ho with
    | append _ ho =>
      obtain rfl := Option.some.inj (hf.symm.trans hf')
      obtain ⟨hheap,hfields⟩ := ho.of_refused hn hok
      exact ⟨by rw [hheap],hfields,fun hc => hheap ▸ hc⟩
  | next hc hf' _ _ _ _ _ hn =>
    cases ho with
    | next hc' _ _ ho =>
      obtain ⟨rfl,-,-⟩ := Call.mk.inj (Option.some.inj (hc.symm.trans hc'))
      obtain rfl := Option.some.inj (hf.symm.trans hf')
      obtain ⟨hheap,hfields⟩ := ho.of_refused hn hok
      exact ⟨by rw [hheap]; rfl,hfields,fun hc => hheap ▸ hc.access inside_read⟩

theorem CopiesFrom.roomy (ho : CopiesFrom h k f str ok o) (hcap : f.capacity_ = 0)
    (hs : ok = true → str.valid_ = true → str.length_+1 < 2^32) : o.fields.capacity_+1 < 2^32 := by
  cases ho with
  | invalid | refused =>
    show f.capacity_+1 < _
    omega
  | filled hv hok => exact hs hok hv

theorem Made.roomy {lends : Bool} (ho : Made lends w a o) (hs : ¬Wraps w a)
    (hk : ∀ k f, w.live? k = some f → Kept k f w.heap.memory) (hm : o.fields.managed_ = true) :
    o.fields.capacity_+1 < 2^32 := by
  cases ho with
  | copy hg ho => exact ho.roomy rfl (length_lt_of_copy hs hg (hk _ _ hg).1.length_lt)
  | construct _ ho =>
    cases ho with
    | default | bounded | noBound | nullString | noMemory =>
      show 0+1 < _
      omega
    | wrapNull | wrap | refused | unmanaged => simp at hm
    | @filled b len hl =>
      subst hl
      exact strlen_lt hs

theorem Appends.roomy (ho : Appends h k f x ok o) (hr : Rep k f h.memory) (hw : Doubles f)
    (hf : f.managed_ = true → f.capacity_+1 < 2^32) (hm : o.fields.managed_ = true) :
    o.fields.capacity_+1 < 2^32 := by
  cases ho with
  | invalid | full | unmanaged | refused | put => exact hf hm
  | grown hv hb hn hm' => exact newCap_lt_sentinel hr.bound_lt (hw hv hm' hb hn)

theorem Done.roomy (ho : Done w k f a o) (hf : w.live? k = some f) (hs : ¬Wraps w a)
    (hk : ∀ k f, w.live? k = some f → Roomy k f w.heap.memory) (hm : o.fields.managed_ = true) :
    o.fields.capacity_+1 < 2^32 := by
  have hkf := hk k f hf
  cases ho with
  | assign hg hne ho =>
    exact ho.roomy rfl (length_lt_of_assign hs hne hg (hk _ _ hg).1.1.length_lt)
  | reserve hn ho =>
    cases ho with
    | precondition | enough | refused => exact hkf.2 hm
    | grown hv hm hb hcap hok => exact capacity_lt_of_reserve hs hf hv hm hb hcap hn hok
  | clear => exact hkf.2 hm
  | append hx ho => exact ho.roomy hkf.1.1 (doubles_of_append hs hf) hkf.2 hm
  | next hc hg hi ho =>
    exact ho.roomy (h:=w.heap.access false _ _) hkf.1.1 (doubles_of_next hs hc hf hg hi) hkf.2 hm

end

theorem roomy_preserved : Preserved lending LosesNul (fun h => h.Checked Inside)
    fun k f m => ∀ g ∈ f, Roomy k g m where
  start := by simp [Heap.Checked]
  caller hc := hc
  unborn _ := by simp
  stable hc hS hk := fun g hg => ⟨⟨(hk g hg).1.1.of_spares hc hS,(hk g hg).1.2⟩,(hk g hg).2⟩
  makes {w a o} hsound hw hs hm := by
    have hn := not_wraps_of_makes hs hm
    have hk : ∀ k f, w.live? k = some f → Kept k f w.heap.memory := fun k f hf => (hw.2 k f hf).1
    obtain ⟨hc,hkept⟩ := kept_preserved.makes hsound ⟨hw.1,hk⟩ hn hm
    refine ⟨hc,fun g hg => ⟨hkept g hg,?_⟩⟩
    obtain rfl := Option.some.inj hg
    exact (makes_cases hm).roomy hn hk
  does {w k f a o} hsound hw hs hf hd := by
    have hk : ∀ k f, w.live? k = some f → Roomy k f w.heap.memory := fun k f hf => hw.2 k f hf
    by_cases hn : Wraps w a
    · have hok : a.ok = false := by
        by_contra hok
        exact hs (.wraps hn (by simpa using hok))
      obtain ⟨hmemory,hfields,hc⟩ := (does_cases hd).of_refused hf hn hok
      refine ⟨hc hw.1,fun g hg => ?_⟩
      obtain rfl := Option.some.inj hg
      rw [hmemory,hfields]
      exact hk k f hf
    · obtain ⟨hc,hkept⟩ := kept_preserved.does hsound ⟨hw.1,fun k g hg => (hw.2 k g hg).1⟩ hn hf hd
      refine ⟨hc,fun g hg => ⟨hkept g hg,?_⟩⟩
      obtain rfl := Option.some.inj hg
      exact (does_cases hd).roomy hf hn hk
  destroy hsound hw hs hf := by
    obtain ⟨hc,-⟩ := rep_preserved.destroy hsound ⟨hw.1,fun k g hg => (hw.2 k g hg).1.1⟩
      (fun h => by cases h with | grow hg => cases hg) hf
    exact ⟨hc,by simp⟩

/-! ## All objects -/

/-- The state before a step. -/
structure Whole (w : World Cell) : Prop where
  sound : w.Sound lending
  roomy : ∀ k f, w.live? k = some f → Roomy k f w.heap.memory
  ends : ∀ k f, w.live? k = some f → Ends f w.heap.memory

section
variable {w w' : World Cell} {j k : ℕ} {f g : Fields} {a : Act Cell Constructor}
  {x : Elem Cell} {v : Cell} {ok : Bool} {o : Outcome Cell}

/-- An append that does not release the buffer leaves the terminators of the others. -/
theorem Appends.ends_other {h : Heap Cell} (ho : Appends h k f x ok o) (hg : Ends g h.memory)
    (hgrows : f.valid_ = true → f.MustGrow → ok = false)
    (hn : Puts f → x.get h.memory ≠ nul → g.length_ ≠ f.length_) : Ends g o.heap.memory := by
  cases ho with
  | invalid | full | unmanaged | refused => exact hg
  | put hv hb hlt => exact hg.put fun hx _ _ => hn ⟨hv,hb,hlt⟩ hx
  | grown hv hb hlt hm hok =>
    have hnot := hgrows hv ⟨hm,hb,hlt⟩
    simp [hok] at hnot

/-- Its own terminator moves. -/
theorem Appends.ends_self {h : Heap Cell} (ho : Appends h k f x ok o) (hr : Rep k f h.memory)
    (ha : Placed f h.memory) (hf : Ends f h.memory) (hw : Doubles f)
    (hr' : Rep k o.fields o.heap.memory)
    (hn : Puts f → f.length_+1 < (h.memory.cells f.buf_).length) :
    Ends o.fields o.heap.memory := by
  have hcap := hr.capacity_lt
  cases ho with
  | invalid | full | unmanaged | refused => exact hf
  | put hv hb hlt => exact ends_put (hn ⟨hv,hb,hlt⟩) (by omega)
  | grown hv hb hlt hm hok =>
    exact ends_of_closed hr' hm
      ((Appends.grown hv hb hlt hm hok).closed hr ha (fun _ => (hf hv).2) hw)

/-- What an object does keeps the terminators of the others over its buffer. -/
theorem Done.ends_shared (ho : Done w k f a o) (hw : Whole w) (hs : ¬LosesNul w a)
    (hf : w.live? k = some f) (hg : w.live? j = some g) (hj : j ≠ k) (hgv : g.valid_ = true)
    (hb : f.buf_ ≠ none) (hsame : g.buf_ = f.buf_) : Ends g o.heap.memory := by
  have hends := hw.ends j g hg
  have hreleases (hm : f.managed_ = true) : ¬Releases reserves w k f a := fun hr =>
    hs (.frees ⟨hf,hm,hb,hg,hj,hgv,hsame⟩ hr)
  have hover {v : Cell} (hp : Writes w k f v a) (hv : v ≠ nul) : g.length_ ≠ f.length_ :=
    fun hl => hs (.overwrites hp hv hg hj hgv hsame hl)
  have hgrows (ha : AppendsTo w k a) (hv : f.valid_ = true) (hm : f.MustGrow) : a.ok = false := by
    by_contra hok
    exact hreleases hm.1 (.grows ha hv hm (by simpa using hok))
  cases ho with
  | assign _ hne ho =>
    cases hm : f.managed_ with
    | true => exact absurd (.assign hne) (hreleases hm)
    | false =>
      have hnone : releases w.heap k f = w.heap := if_neg (by simp [hm])
      rw [hnone] at ho
      refine hends.of_cells ((hw.sound.placed hg).cells_eq ?_ fun _ => rfl)
      exact ho.confined reaches_next within_none
  | reserve _ ho =>
    cases ho with
    | precondition | enough | refused => exact hends
    | grown hv hm hbound hcap hok =>
      subst hok
      exact absurd (.reserve ⟨hv,hm,hbound,hcap⟩) (hreleases hm)
  | clear =>
    rw [clear_of_ne hb]
    exact hends.write_nul
  | append hx ho =>
    exact ho.ends_other hends (hgrows .append) fun hp => hover (.append hf hp hx rfl)
  | next hc hsource hi ho =>
    exact ho.ends_other hends (hgrows (.next hc hsource hi)) fun hp =>
      hover (.next hf hp hc hsource hi rfl)

/-- What an object does keeps the terminators of the others. -/
theorem Done.ends_other (ho : Done w k f a o) (hw : Whole w) (hs : ¬LosesNul w a)
    (hf : w.live? k = some f) (hg : w.live? j = some g) (hj : j ≠ k) :
    Ends g o.heap.memory := by
  cases hgv : g.valid_ with
  | false => exact ends_of_invalid hgv
  | true =>
    by_cases hshared : f.buf_ ≠ none ∧ g.buf_ = f.buf_
    · exact ho.ends_shared hw hs hf hg hj hgv hshared.1 hshared.2
    · refine (hw.ends j g hg).of_cells ((hw.sound.placed hg).cells_eq
        (ho.confined reaches_next within_reaches) fun hb => ?_)
      exact by_contra fun hne => hshared ⟨hne,hb⟩

/-- What an object does leaves it terminated. -/
theorem Done.ends_self (ho : Done w k f a o) (hw : Whole w) (hs : ¬LosesNul w a)
    (hf : w.live? k = some f) (hr' : Rep k o.fields o.heap.memory) :
    Ends o.fields o.heap.memory := by
  have hends := hw.ends k f hf
  have hr := (hw.roomy k f hf).1.1
  have ha := hw.sound.placed hf
  by_cases hwraps : Wraps w a
  · have hok : a.ok = false := by
      by_contra hok
      exact hs (.wraps hwraps (by simpa using hok))
    obtain ⟨hmemory,hfields,-⟩ := ho.of_refused hf hwraps hok
    rw [hmemory,hfields]
    exact hends
  have hroom {v : Cell} (hp : Writes w k f v a) :
      f.length_+1 < (w.heap.memory.cells f.buf_).length :=
    Nat.lt_of_not_le fun hl => hs (.noRoom hp hl)
  cases ho with
  | assign hg hne ho =>
    have hplaced : Placed _ (releases w.heap k f).memory :=
      (hw.sound.placed hg).of_keeps (confined_releases within_reaches).keeps
    have hclosed := ho.closed rfl hplaced
      (length_lt_of_assign hwraps hne hg (hw.roomy _ _ hg).1.1.length_lt)
    refine ends_of_closed hr' ?_ hclosed
    cases ho <;> rfl
  | reserve hn ho =>
    cases ho with
    | precondition | enough | refused => exact hends
    | grown hv hm hb hcap hok =>
      refine ends_of_closed hr' hm fun _ _ => ?_
      exact (content_allocated ha (fun hb => (hr.empty hm hb).1) ((hr.length_le hm).trans hcap.le)
        (capacity_lt_of_reserve hwraps hf hv hm hb hcap hn hok)).2
  | clear => exact ends_clear hends
  | append hx ho =>
    exact ho.ends_self hr ha hends (doubles_of_append hwraps hf) hr' fun hp =>
      hroom (.append hf hp hx rfl)
  | next hc hsource hi ho =>
    exact ho.ends_self hr ha hends (doubles_of_next hwraps hc hf hsource hi) hr' fun hp =>
      hroom (.next hf hp hc hsource hi rfl)

/-- A constructor makes an unmanaged object only of memory with a terminator. -/
theorem Made.ends (ho : Made true w a o) (hw : Whole w) (hs : ¬LosesNul w a) (hn : ¬Wraps w a)
    (hr' : Rep w.objects.length o.fields o.heap.memory) : Ends o.fields o.heap.memory := by
  cases hm : o.fields.managed_ with
  | true =>
    have hclosed := ho.closed hw.sound hn fun k f hf => (hw.roomy k f hf).1.1
    exact ends_of_closed hr' hm hclosed
  | false =>
    cases ho with
    | copy _ ho =>
      cases ho with
      | invalid | refused => simp [Fields.initial] at hm
      | filled => simp [copied,fill,allocated,Fields.initial] at hm
    | construct ha ho =>
      cases ho with
      | default | bounded | noBound | nullString | noMemory =>
        simp [String.default,Fields.initial] at hm
      | filled => simp [copied,fill,allocated,Fields.initial] at hm
      | wrapNull | refused => exact ends_of_invalid rfl
      | @wrap b ok =>
        have hlt : (chars w.heap.memory (some b)).length < 2^32 :=
          Nat.lt_of_not_le fun hl => hs (.wrap hl)
        exact fun _ => ⟨by simp,fun _ => read_strlen_eq_nul ha hlt⟩
      | @unmanaged b length bound ok hl hz hsentinel =>
        refine fun _ => ⟨by simp,fun _ => ?_⟩
        by_contra hr
        exact hs (.unmanaged hl hz hsentinel hr)

/-- A step that loses no terminator. -/
theorem ends_of_step (h : w.Step lending a w') (hw : Whole w) (hs : ¬LosesNul w a)
    (hr' : ∀ k f, w'.live? k = some f → Rep k f w'.heap.memory) (hg : w'.live? j = some g) :
    Ends g w'.heap.memory := by
  have hdoes {k : ℕ} {f : Fields} {o : Outcome Cell} (hf : w.live? k = some f)
      (hd : Does lending w k f a o)
      (hr' : ∀ j g, (w.put k o).live? j = some g → Rep j g o.heap.memory)
      (hg : (w.put k o).live? j = some g) : Ends g o.heap.memory := by
    by_cases hj : j = k
    · subst j
      have hself := live?_put_self o hf
      obtain rfl := Option.some.inj (hself.symm.trans hg)
      exact (does_cases hd).ends_self hw hs hf (hr' k _ hself)
    · rw [live?_put_of_ne o hj] at hg
      exact (does_cases hd).ends_other hw hs hf hg hj
  -- what is not released is still there
  have hkept {m' : Memory (Option ℕ) Cell} {p : Option ℕ} (hg : w.live? j = some g)
      (hc : Confined (Reaches w.heap.memory p) w.heap.memory m') (hne : g.buf_ = p → p = none) :
      Ends g m' := (hw.ends j g hg).of_cells ((hw.sound.placed hg).cells_eq hc hne)
  cases h with
  | caller => exact hkept hg (.add reaches_next _) fun _ => rfl
  | @makes _ o _ hmakes =>
    by_cases hj : j = w.objects.length
    · subst j
      have hself := live?_push_self (w:=w) o
      obtain rfl := Option.some.inj (hself.symm.trans hg)
      exact (makes_cases hmakes).ends hw hs (not_wraps_of_makes hs hmakes) (hr' _ _ hself)
    · rw [live?_push_of_ne o hj] at hg
      exact hkept hg ((makes_cases hmakes).confined reaches_next) fun _ => rfl
  | does _ hf hd | iterates _ hf hd | stops _ hf hd => exact hdoes hf hd hr' hg
  | ends | assignSelf | begins | refuses => exact hw.ends j g hg
  | @destroy k f _ hf =>
    have hj : j ≠ k := by
      rintro rfl
      rw [live?_destroy_self hf] at hg
      contradiction
    rw [live?_destroy_of_ne hj] at hg
    cases hm : f.managed_ with
    | false =>
      rw [World.destroy,hm]
      exact hw.ends j g hg
    | true =>
      have hmemory : (w.destroy k f).heap.memory = w.heap.memory.free f.buf_ := by
        simp [World.destroy,hm]
      rw [hmemory]
      cases hgv : g.valid_ with
      | false => exact ends_of_invalid hgv
      | true =>
        refine hkept hg (.free within_reaches) fun hb => by_contra fun hne => ?_
        exact hs (.frees ⟨hf,hm,hne,hg,hj,hgv,hb⟩ .destroy)

end

theorem whole_run {steps : List (World Cell × Act Cell Constructor)} {w : World Cell}
    (h : Run (step lending) World.init steps w) (hn : ∀ p ∈ steps, ¬LosesNul p.1 p.2) :
    Whole w := by
  induction h with
  | refl =>
    exact ⟨World.init_sound,fun k f hf => by simp [World.live?,World.init] at hf,fun k f hf => by
      simp [World.live?,World.init] at hf⟩
  | @next steps w a w' before hs ih =>
    have hw := ih fun p hp => hn p (List.mem_append_left _ hp)
    have hrun := before.next hs
    have hroomy := (roomy_preserved.run confines hrun hn).2
    refine ⟨run_sound confines hrun hn,fun k f hf => hroomy k f hf,fun k f hf => ?_⟩
    exact ends_of_step (step_cases hs) hw (hn (w,a) (by simp)) (fun k f hf => (hroomy k f hf).1.1) hf

/-! ## The steps that lose a terminator -/

section
variable {w w' : World Cell} {j k : ℕ} {f g : Fields} {a : Act Cell Constructor} {v : Cell}
  {o : Outcome Cell}

theorem not_terminated (hf : w.live? k = some f) (hn : ¬Ends f w.heap.memory) : ¬Terminated w :=
  fun hw => hn (ends_iff.mpr (hw k f hf))

theorem read_ne_nul {m : Memory (Option ℕ) Cell} {p : Option ℕ} {i : ℕ}
    (h : (m.cells p).length ≤ i) : m.read p i ≠ nul := fun hr =>
  absurd (lt_of_read hr) (Nat.not_lt_of_le h)

/-- A write of an unmanaged object is a `put`. -/
theorem Writes.put (hp : Writes w k f v a) (h : step lending w a = some w') :
    ∃ h' x, h'.memory = w.heap.memory ∧ x.get w.heap.memory = v ∧ w.live? k = some f ∧ Puts f ∧
      (∀ l, l ≠ k → w'.live? l = w.live? l) ∧
      w'.live? k = some (String.put h' f x).fields ∧
      w'.heap.memory = (String.put h' f x).heap.memory := by
  have happend {h' : Heap Cell} {x : Elem Cell} {ok : Bool} (hputs : Puts f) :
      String.append h' k f x ok = String.put h' f x := by
    have ho := append_cases h' k f x ok
    generalize String.append h' k f x ok = o at ho
    cases ho with
    | put => rfl
    | invalid hv => simp [hputs.valid] at hv
    | full _ hb => exact absurd hb hputs.notFull
    | unmanaged _ _ hn | refused _ _ hn | grown _ _ hn =>
      exact absurd hputs.room (Nat.not_lt_of_le hn)
  cases hp with
  | @append e ok x hf hputs hx he =>
    obtain ⟨o,hd,rfl⟩ := (step_cases h).appends hf
    cases hd with
    | append hx' =>
      obtain rfl := Option.some.inj (hx.symm.trans hx')
      refine ⟨w.heap,x,rfl,he,hf,hputs,fun l hl => live?_put_of_ne _ hl,?_,?_⟩
      · rw [live?_put_self _ hf]
        exact congrArg (fun o => some o.fields) (happend hputs)
      · exact congrArg (fun o => o.heap.memory) (happend hputs)
  | @next j i g ok hf hputs hc hg hi he =>
    obtain ⟨o,hd,hlive,hheap⟩ := (step_cases h).iteration hc hf hg hi
    cases hd with
    | next hc' hg' =>
      obtain ⟨-,rfl,rfl⟩ := Call.mk.inj (Option.some.inj (hc.symm.trans hc'))
      obtain rfl := Option.some.inj (hg.symm.trans hg')
      refine ⟨w.heap.access false g i,.cell g.buf_ i,rfl,he,hf,hputs,fun l hl => ?_,?_,?_⟩
      · rw [hlive l,live?_put_of_ne _ hl]
      · rw [hlive k,live?_put_self _ hf]
        exact congrArg (fun o => some o.fields) (happend hputs)
      · rw [hheap]
        exact congrArg (fun o => o.heap.memory) (happend hputs)

theorem not_terminated_of_noRoom (hw : Whole w) (h : step lending w a = some w')
    (hp : Writes w k f v a) (hl : (w.heap.memory.cells f.buf_).length ≤ f.length_+1) :
    ¬Terminated w' := by
  obtain ⟨h',x,hmemory,-,hf,hputs,-,hlive,hafter⟩ := hp.put h
  have hcap := (hw.roomy k f hf).1.1.capacity_lt
  have hlen : (String.put h' f x).fields.length_ = f.length_+1 := Nat.mod_eq_of_lt (by
    have := hputs.room
    omega)
  refine not_terminated hlive fun hends => ?_
  obtain ⟨hnone,hsome⟩ := hends hputs.valid
  by_cases hb : f.buf_ = none
  · have hzero := hnone hb
    omega
  · refine read_ne_nul ?_ (hsome hb)
    rw [hafter,hlen,String.put,Heap.memory_store,Heap.memory_store,length_cells_write,
      length_cells_write,hmemory]
    exact hl

theorem not_terminated_of_overwrites (hw : Whole w) (h : step lending w a = some w')
    (hp : Writes w k f v a) (hv : v ≠ nul) (hg : w.live? j = some g) (hj : j ≠ k)
    (hgv : g.valid_ = true) (hb : g.buf_ = f.buf_) (hl : g.length_ = f.length_) :
    ¬Terminated w' := by
  by_cases hbuf : f.buf_ = none
  · refine not_terminated_of_noRoom hw h hp ?_
    rw [hbuf]
    exact Nat.zero_le _
  · obtain ⟨h',x,hmemory,hx,-,-,hothers,-,hafter⟩ := hp.put h
    refine not_terminated ((hothers j hj).trans hg) fun hends => ?_
    have hread := (hends hgv).2 (hb ▸ hbuf)
    have hne : f.length_ ≠ u32 (f.length_+1) := by
      rw [u32]
      omega
    have hput : (String.put h' f x).heap.memory =
        (w.heap.memory.write f.buf_ f.length_ v).write f.buf_ (u32 (f.length_+1)) nul := by
      rw [← hx,← hmemory]
      rfl
    rw [hafter,hput,hb,hl,read_write_of_ne hne] at hread
    have hlt := lt_of_read hread
    rw [length_cells_write] at hlt
    rw [read_write_self hlt] at hread
    exact hv hread

/-- A buffer that is released holds nothing any more. -/
theorem cells_of_releases (h : step lending w a = some w') (hw : w.Sound lending)
    (hf : w.live? k = some f) (hm : f.managed_ = true) (hr : Releases reserves w k f a) :
    w'.heap.memory.cells f.buf_ = [] ∧ ∀ l, l ≠ k → w'.live? l = w.live? l := by
  have hput {s : Heap Cell} {x : Elem Cell} {o : Outcome Cell}
      (hmemory : s.memory = w.heap.memory) (hv : f.valid_ = true) (hgrow : f.MustGrow)
      (ho : Appends s k f x true o) : o.heap.memory.cells f.buf_ = [] := by
    cases ho with
    | invalid hv' => simp [hv] at hv'
    | full _ hb => exact absurd hb hgrow.2.1
    | put _ _ hn => exact absurd hn (Nat.not_lt_of_le hgrow.2.2)
    | unmanaged _ _ _ hm' => simp [hm] at hm'
    | refused _ _ _ _ hok => simp at hok
    | grown =>
      have hne : f.buf_ ≠ (allocated s k f (f.newCap 8) true).2.buf_ := by
        show f.buf_ ≠ s.memory.next
        rw [hmemory]
        exact (hw.placed hf).next_ne.symm
      rw [String.put,Heap.memory_store,Heap.memory_store,cells_write_of_ne _ _ hne,
        cells_write_of_ne _ _ hne,memory_allocated,cells_free_self]
  cases hr with
  | @assign j ok hne =>
    obtain ⟨f',o,hf',hd,rfl⟩ := (step_cases h).assigns hne
    obtain rfl := Option.some.inj (hf.symm.trans hf')
    refine ⟨?_,fun l hl => live?_put_of_ne o hl⟩
    cases does_cases hd with
    | assign _ _ ho =>
      have hreleased : (releases w.heap k f).memory = w.heap.memory.free f.buf_ := by
        rw [releases,if_pos hm,Heap.memory_delete]
      have hplaced : Placed f (releases w.heap k f).memory :=
        (hw.placed hf).of_keeps (confined_releases within_reaches).keeps
      have hcells := hplaced.cells_eq (ho.confined reaches_next within_none) fun _ => rfl
      exact hcells.trans (by rw [hreleased,cells_free_self])
  | destroy =>
    cases step_cases h with
    | makes _ hmakes => cases hmakes
    | does _ _ hd => cases hd
    | destroy _ hf' =>
      obtain rfl := Option.some.inj (hf.symm.trans hf')
      refine ⟨?_,fun l hl => live?_destroy_of_ne hl⟩
      simp [World.destroy,hm,cells_free_self]
  | @reserve n hreserves =>
    obtain ⟨hv,-,hb,hcap⟩ := hreserves
    obtain ⟨o,hd,rfl⟩ := (step_cases h).reserves hf
    refine ⟨?_,fun l hl => live?_put_of_ne o hl⟩
    cases does_cases hd with
    | reserve _ ho =>
      cases ho with
      | precondition hp => simp [hv,hm,hb] at hp
      | enough _ _ _ hle => exact absurd hcap (Nat.not_lt_of_le hle)
      | refused _ _ _ _ hok => simp at hok
      | grown => exact (congrArg (cells · f.buf_) (memory_allocated _ _ _ _ _)).trans cells_free_self
  | grows ha hv hgrow hok =>
    cases ha with
    | append =>
      obtain rfl : _ = true := hok
      obtain ⟨o,hd,rfl⟩ := (step_cases h).appends hf
      refine ⟨?_,fun l hl => live?_put_of_ne o hl⟩
      cases does_cases hd with
      | append _ ho => exact hput rfl hv hgrow ho
    | next hc hg hi =>
      obtain rfl : _ = true := hok
      obtain ⟨o,hd,hlive,hheap⟩ := (step_cases h).iteration hc hf hg hi
      refine ⟨?_,fun l hl => (hlive l).trans (live?_put_of_ne o hl)⟩
      rw [hheap]
      cases does_cases hd with
      | next _ _ _ ho => exact hput (s:=w.heap.access false _ _) rfl hv hgrow ho

theorem not_terminated_of_frees (hw : Whole w) (h : step lending w a = some w')
    (hv : Views w k f j g) (hr : Releases reserves w k f a) : ¬Terminated w' := by
  obtain ⟨hcells,hothers⟩ := cells_of_releases h hw.sound hv.target hv.managed hr
  refine not_terminated ((hothers j hv.other).trans hv.view) fun hends => ?_
  refine read_ne_nul ?_ ((hends hv.valid).2 (hv.same ▸ hv.buffer))
  rw [hv.same,hcells]
  exact Nat.zero_le _

theorem not_terminated_of_hollow (hf : w.live? k = some f) (hh : Hollow f w.heap.memory) :
    ¬Terminated w := by
  refine not_terminated hf fun hends => read_ne_nul ?_ ((hends hh.valid).2 hh.buffer)
  rw [hh.size]
  exact Nat.zero_le _

/-- A growth from a capacity that does not double. -/
theorem Appends.not_ends {h : Heap Cell} {x : Elem Cell} {ok : Bool} (ho : Appends h k f x ok o)
    (ha : Placed f h.memory) (hv : f.valid_ = true) (hm : f.managed_ = true) (hb : ¬f.Full)
    (hn : f.capacity_ ≤ f.length_) (hle : f.length_ ≤ f.capacity_) (hlt : f.capacity_+1 < 2^32)
    (hcap : 2^31 ≤ f.capacity_) (hok : ok = true) : ¬Ends o.fields o.heap.memory := by
  cases ho with
  | invalid hv' => simp [hv] at hv'
  | full _ hb' => exact absurd hb' hb
  | put _ _ hn' => exact absurd hn' (Nat.not_lt_of_le hn)
  | unmanaged _ _ _ hm' => simp [hm] at hm'
  | refused _ _ _ _ hok' => simp [hok] at hok'
  | grown =>
    intro hends
    have hsmall := Fields.newCap_lt 8 hcap (by omega : f.capacity_ < 2^32)
    have hread := (hends hv).2 (by simp [String.put,allocated,Memory.next])
    refine read_ne_nul ?_ hread
    have hlen : (String.put (allocated h k f (f.newCap 8) true).1
        (allocated h k f (f.newCap 8) true).2 x).fields.length_ = f.length_+1 :=
      Nat.mod_eq_of_lt (by
        show f.length_+1 < _
        omega)
    have hcells : ((allocated h k f (f.newCap 8) true).1.memory.cells h.memory.next).length =
        f.newCap 8+1 := (length_allocated ha).trans (Nat.mod_eq_of_lt (by omega))
    rw [hlen,String.put,Heap.memory_store,Heap.memory_store,length_cells_write,length_cells_write]
    show (cells _ h.memory.next).length ≤ _
    omega

theorem not_terminated_of_wraps (hw : Whole w) (h : step lending w a = some w') (hs : Wraps w a)
    (hok : a.ok = true) : ¬Terminated w' := by
  rcases hs.grows_or_hollow hw.sound h with ⟨f,hg,hc⟩ | ⟨k,f,hf,hhollow⟩
  · have hnot {k : ℕ} {o : Outcome Cell} {x : Elem Cell} (h' : Heap Cell)
        (hf : w.live? k = some f) (hmemory : h'.memory = w.heap.memory)
        (ho : Appends h' k f x true o) (hv : f.valid_ = true) (hm : f.managed_ = true)
        (hb : ¬f.Full) (hn : f.capacity_ ≤ f.length_) : ¬Ends o.fields o.heap.memory :=
      ho.not_ends (hmemory ▸ hw.sound.placed hf) hv hm hb hn
        ((hw.roomy k f hf).1.1.length_le hm) ((hw.roomy k f hf).2 hm) hc rfl
    cases hg with
    | append hf hv hm hb hn =>
      obtain rfl : _ = true := hok
      obtain ⟨o,hd,rfl⟩ := (step_cases h).appends hf
      cases does_cases hd with
      | append _ ho =>
        exact not_terminated (live?_put_self _ hf) (hnot _ hf rfl ho hv hm hb hn)
    | next hcall hf hg hi hv hm hb hn =>
      obtain rfl : _ = true := hok
      obtain ⟨o,hd,hlive,hheap⟩ := (step_cases h).iteration hcall hf hg hi
      cases does_cases hd with
      | next _ _ _ ho =>
        refine not_terminated ((hlive _).trans (live?_put_self _ hf)) ?_
        rw [hheap]
        exact hnot (w.heap.access false _ _) hf rfl ho hv hm hb hn
  · exact not_terminated_of_hollow hf hhollow

/-- The step of such a constructor makes the object that it describes. -/
theorem not_terminated_of_unmanaged {b n bound : ℕ} (hpush : w'.live? k =
    some ⟨some b,n,bound,bound,false,true⟩) (hr : w'.heap.memory.read (some b) n ≠ nul) :
    ¬Terminated w' := not_terminated hpush fun hends => hr ((hends rfl).2 (by simp))

theorem not_terminated_of_losesNul (hw : Whole w) (h : step lending w a = some w')
    (hs : LosesNul w a) : ¬Terminated w' := by
  cases hs with
  | noRoom hp hl => exact not_terminated_of_noRoom hw h hp hl
  | overwrites hp hv hg hj hgv hb hl =>
    exact not_terminated_of_overwrites hw h hp hv hg hj hgv hb hl
  | frees hv hr => exact not_terminated_of_frees hw h hv hr
  | wraps hs hok => exact not_terminated_of_wraps hw h hs hok
  | unmanaged hl hz hsentinel hr =>
    obtain ⟨o,hm,rfl⟩ := (step_cases h).constructs
    cases makes_cases hm with
    | construct _ ho =>
      cases ho with
      | refused hrefused =>
        exfalso
        simp [hz,hsentinel,Nat.not_lt_of_le hl] at hrefused
      | unmanaged => exact not_terminated_of_unmanaged (live?_push_self _) hr
  | @wrap b ok hl =>
    obtain ⟨o,hm,rfl⟩ := (step_cases h).constructs
    cases makes_cases hm with
    | construct _ ho =>
      cases ho with
      | wrap =>
        refine not_terminated_of_unmanaged (live?_push_self _) ?_
        exact read_ne_nul_of_chars ((Nat.mod_lt _ (by omega)).trans_le hl)

end

/-- Every valid string is terminated in all states of a run if and only if no step of the run loses
a terminator. -/
theorem terminated_iff (e : Execution (step lending) World.init) :
    (∀ w ∈ e.visited, Terminated w) ↔ ∀ p ∈ e.steps, ¬LosesNul p.1 p.2 := by
  refine e.forall_visited_iff (fun steps w hr hn => ?_) fun steps w a w' hr hn hstep hs => ?_
  · exact fun k f hf => ends_iff.mp ((whole_run hr hn).ends k f hf)
  · exact not_terminated_of_losesNul (whole_run hr hn) hstep hs

/-- An array of two characters without a NUL is wrapped with a length of one. -/
def noNul : Execution (step lending) World.init :=
  .ofLabels [.caller [some 65,some 66],.construct (.unmanaged (some 0) 1 2) true] (by decide)

theorem noNul_not_terminated : ¬∀ w ∈ noNul.visited, Terminated w := by
  intro h
  have hread := (h _ noNul.final_mem_visited 0 ⟨some 0,1,2,2,false,true⟩ (by decide) rfl).2
  exact absurd hread (by decide)

/-- A string over the buffer of another one, which is appended to. -/
def sharedEnd : Execution (step lending) World.init :=
  .ofLabels [.construct (.bounded 8) true,.append 0 (.value (some 97)) true,
    .construct (.wrap (some 0)) true,.append 0 (.value (some 98)) true] (by decide)

example : ¬∀ w ∈ sharedEnd.visited, Terminated w := by
  intro h
  have hread := (h _ sharedEnd.final_mem_visited 1 ⟨some 0,1,1,1,false,true⟩ (by decide) rfl).2
  exact absurd hread (by decide)

end Blush.Storage.String
