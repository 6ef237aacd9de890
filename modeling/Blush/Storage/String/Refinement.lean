import Blush.Storage.Refinement
import Blush.Storage.String.Arithmetic

/-! Strings refine bounded lists of characters, as long as nothing reaches `2^31`. -/
namespace Blush.Storage.String
open Memory Transition World

/-- The list that a constructor makes. -/
def made (m : Memory (Option ℕ) Cell) : Constructor → Bool → Option (BoundedList Cell)
  | .default,_ => some (.empty unboundedSentinel)
  | .bounded bound,_ =>
    if bound = 0 ∨ bound = unboundedSentinel then none else some (.empty bound)
  | .wrap none,_ | .cString none,_ | .unmanaged none _ _,_ => none
  | .wrap (some b),_ => some (.exact (chars m (some b)))
  | .cString (some b),ok => if ok then some (.exact (chars m (some b))) else none
  | .unmanaged (some b) length bound,_ =>
    if bound = 0 ∨ bound = unboundedSentinel then none
    else BoundedList.ofList? bound (m.reads (some b) length)

/-- A C string is shorter than `2^31`. -/
def admits (m : Memory (Option ℕ) Cell) : Constructor → Prop
  | .wrap str | .cString str => (chars m str).length < 2^31
  | _ => True

instance (m : Memory (Option ℕ) Cell) (make : Constructor) : Decidable (admits m make) :=
  match make with
  | .wrap str | .cString str => inferInstanceAs (Decidable ((chars m str).length < 2^31))
  | .default | .bounded _ | .unmanaged _ _ _ => inferInstanceAs (Decidable True)

/-! ## The contents -/

theorem strlen_eq {m : Memory (Option ℕ) Cell} {str : Option ℕ}
    (hl : (chars m str).length < 2^31) : strlen m str = (chars m str).length :=
  Nat.mod_eq_of_lt (by omega)

theorem reads_strlen {m : Memory (Option ℕ) Cell} {str : Option ℕ}
    (hl : (chars m str).length < 2^31) : m.reads str (strlen m str) = chars m str := by
  have hbefore : chars m str <+: m.cells str := List.takeWhile_prefix _
  rw [strlen_eq hl,reads_eq_take hbefore.length_le]
  exact (List.prefix_iff_eq_take.mp hbefore).symm

section
variable {h : Heap Cell} {k n : ℕ} {f str : Fields} {x : Elem Cell}

/-- The new block when the content is kept. -/
theorem reads_prepared (ha : Placed f h.memory) (hbuf : f.buf_ = none → f.length_ = 0)
    (hn : f.length_ ≤ n) (hlt : n+1 < 2^32) :
    (prepared h k n f true).reads h.memory.next f.length_ = f.content h.memory ∧
      (prepared h k n f true).read h.memory.next f.length_ = nul := by
  have hsize : u32 (n+1) = n+1 := Nat.mod_eq_of_lt hlt
  cases hb : f.buf_ with
  | none =>
    have hl := hbuf hb
    rw [prepared,if_neg (by simp [hb]),hl]
    refine ⟨?_,read_write_self ?_ _⟩
    · rw [Fields.content,hl]
      rfl
    · rw [cells_add_next,List.length_replicate,hsize]
      exact Nat.succ_pos n
  | some b =>
    rw [prepared,if_pos (by simp [hb])]
    refine ⟨?_,read_write_self ?_ _⟩
    · rw [reads_write le_rfl]
      exact reads_fresh ha.next_ne (by simp [hsize]; omega)
    · rw [length_cells_copy,cells_add_next,List.length_replicate,hsize]
      omega

/-- An object that has grown holds what it held, and the terminator. -/
theorem content_allocated (ha : Placed f h.memory) (hbuf : f.buf_ = none → f.length_ = 0)
    (hn : f.length_ ≤ n) (hlt : n+1 < 2^32) :
    (allocated h k f n true).2.content (allocated h k f n true).1.memory = f.content h.memory ∧
      (allocated h k f n true).1.memory.read h.memory.next f.length_ = nul := by
  obtain ⟨hreads,hread⟩ := reads_prepared ha hbuf hn hlt
  have hcells : (allocated h k f n true).1.memory.cells h.memory.next =
      (prepared h k n f true).cells h.memory.next := by
    rw [memory_allocated,cells_free_of_ne ha.next_ne]
  exact ⟨(reads_of_cells hcells _).trans hreads,(read_of_ne hcells _).trans hread⟩

/-- A copy holds what the source holds, and the terminator. -/
theorem content_copied (ha : Placed str h.memory) (hbuf : f.buf_ = none)
    (hlt : str.length_+1 < 2^32) :
    (copied h k f str).2.content (copied h k f str).1.memory = str.content h.memory ∧
      (copied h k f str).1.memory.read h.memory.next str.length_ = nul := by
  have hsize : ((allocated h k f str.length_ false).1.memory.cells h.memory.next).length =
      str.length_+1 := (length_allocated (.inl hbuf)).trans (Nat.mod_eq_of_lt hlt)
  have hsource : (allocated h k f str.length_ false).1.memory.cells str.buf_ =
      h.memory.cells str.buf_ :=
    ha.cells_eq (confined_allocated reaches_next (hbuf ▸ within_reaches)) fun _ => rfl
  have hmemory : (copied h k f str).1.memory =
      ((allocated h k f str.length_ false).1.memory.copy h.memory.next str.buf_
        str.length_).write h.memory.next str.length_ nul := by
    simp only [copied,fill,Heap.memory_store,Heap.memory_copy]
    rfl
  rw [hmemory]
  refine ⟨?_,read_write_self ?_ _⟩
  · show reads _ h.memory.next str.length_ = _
    rw [reads_write le_rfl,reads_copy ha.next_ne.symm (by omega)]
    exact reads_of_cells hsource _
  · rw [length_cells_copy]
    omega

/-- One more character; the terminator may be outside the block. -/
theorem content_put_of_lt (hn : f.length_ < (h.memory.cells f.buf_).length)
    (hl : f.length_+1 < 2^32) : (put h f x).fields.content (put h f x).heap.memory =
      f.content h.memory ++ [x.get h.memory] := by
  have hlen : u32 (f.length_+1) = f.length_+1 := Nat.mod_eq_of_lt hl
  have hfields : (put h f x).fields = { f with length_ := f.length_+1 } := by rw [put,hlen]
  have hmemory : (put h f x).heap.memory =
      (h.memory.write f.buf_ f.length_ (x.get h.memory)).write f.buf_ (f.length_+1) nul := by
    rw [put,hlen]
    rfl
  rw [hfields,hmemory]
  show reads _ f.buf_ (f.length_+1) = _
  rw [reads_write le_rfl,reads_succ,read_write_self hn,reads_write le_rfl]
  rfl

/-- One more character, and the terminator behind it. -/
theorem content_put (hn : f.length_+1 < (h.memory.cells f.buf_).length) (hl : f.length_+1 < 2^32) :
    (put h f x).fields.content (put h f x).heap.memory = f.content h.memory ++ [x.get h.memory] ∧
      (put h f x).heap.memory.read f.buf_ (put h f x).fields.length_ = nul := by
  refine ⟨content_put_of_lt (by omega) hl,read_write_self ?_ _⟩
  rw [Heap.memory_store,length_cells_write]
  exact (Nat.mod_eq_of_lt hl).trans_lt hn

end

/-! ## Sizes -/

/-- A valid object has its sizes in order. -/
def Ordered (f : Fields) : Prop :=
  f.valid_ = true → f.length_ ≤ f.capacity_ ∧ f.capacity_ ≤ f.bound_

theorem Ordered.le_bound {f : Fields} (hs : Ordered f) (hv : f.valid_ = true) :
    f.length_ ≤ f.bound_ := (hs hv).1.trans (hs hv).2

theorem le_unbounded {n bound : ℕ} (hn : n < 2^32) (hb : bound = unboundedSentinel) :
    n ≤ bound := by
  rw [hb,unboundedSentinel]
  omega

theorem ordered_of_invalid {f : Fields} (hv : f.valid_ = false) : Ordered f := fun h => by
  simp [hv] at h

section
variable {h : Heap Cell} {k n : ℕ} {f str : Fields} {ok : Bool} {x : Elem Cell}
  {o : Outcome Cell}

theorem CopiesFrom.ordered (ho : CopiesFrom h k f str ok o) (hv : f.valid_ = false)
    (hb : f.bound_ = str.bound_) (hstr : str.valid_ = true → str.length_ ≤ str.bound_) :
    Ordered o.fields := by
  cases ho with
  | invalid | refused => exact ordered_of_invalid hv
  | filled hsv => exact fun _ => ⟨le_rfl,(hstr hsv).trans_eq hb.symm⟩

/-- The buffer of a managed object has a place for one more character than its capacity. -/
theorem Rep.lt_cells {m : Memory (Option ℕ) Cell} (hr : Rep k f m) (hm : f.managed_ = true)
    (hn : n < f.capacity_) : n+1 < (m.cells f.buf_).length := by
  have hbuf : f.buf_ ≠ none := fun hb => by
    have := (hr.empty hm hb).2
    omega
  rw [(hr.block hm hbuf).2.1]
  omega

/-- The buffers of two managed objects are different. -/
theorem Rep.buffer_ne {m : Memory (Option ℕ) Cell} {j : ℕ} {g : Fields} (hf : Rep k f m)
    (hfm : f.managed_ = true) (hg : Rep j g m) (hgm : g.managed_ = true) (hj : j ≠ k)
    (hs : g.buf_ = f.buf_) : f.buf_ = none := by
  by_contra hb
  have howner := (hg.block hgm (hs ▸ hb)).1
  rw [hs,(hf.block hfm hb).1] at howner
  simp [hj.symm] at howner

theorem ordered_put (hc : f.capacity_ < 2^32) (hs : Ordered f) (hn : f.length_ < f.capacity_) :
    Ordered (put h f x).fields := fun hv =>
  ⟨(Nat.mod_eq_of_lt (by omega)).trans_le hn,(hs hv).2⟩

/-- A growing append stays within the bound. -/
theorem newCap_le_bound (hb : f.bound_ < 2^32) (hc : f.capacity_ < 2^31) :
    f.newCap 8 ≤ f.bound_ := by
  by_cases hs : f.bound_ = unboundedSentinel
  · have hlt := newCap_lt_sentinel hb hc
    rw [hs,unboundedSentinel]
    omega
  · exact f.newCap_le 8 hs

theorem Appends.ordered (ho : Appends h k f x ok o) (hr : Rep k f h.memory) (hs : Ordered f)
    (hw : Doubles f) : Ordered o.fields := by
  cases ho with
  | invalid | full | unmanaged | refused => exact hs
  | put hv hb hn => exact ordered_put hr.capacity_lt hs hn
  | grown hv hb hn hm =>
    have hcap := hw hv hm hb hn
    have hlt := Fields.lt_newCap 8 (by omega) hb hn hcap
    have hsmall := newCap_lt_sentinel hr.bound_lt hcap
    have hle := hr.length_le hm
    refine ordered_put (f:=(allocated h k f (f.newCap 8) true).2) ?_ (fun _ => ⟨?_,?_⟩) ?_
    · exact (Nat.lt_succ_self _).trans hsmall
    · exact hle.trans hlt.le
    · exact newCap_le_bound hr.bound_lt hcap
    · exact hle.trans_lt hlt

end

/-- What is known of every object. -/
def Kept (k : ℕ) (f : Fields) (m : Memory (Option ℕ) Cell) : Prop := Rep k f m ∧ Ordered f

section
variable {lends : Bool} {w : World Cell} {k : ℕ} {f : Fields} {a : Act Cell Constructor}
  {o : Outcome Cell}

theorem Made.ordered (ho : Made lends w a o) (hk : ∀ k f, w.live? k = some f → Ordered f) :
    Ordered o.fields := by
  cases ho with
  | construct ha ho =>
    cases ho with
    | default | bounded => exact fun _ => ⟨le_rfl,Nat.zero_le _⟩
    | noBound | wrapNull | nullString | noMemory | refused => exact ordered_of_invalid rfl
    | wrap => exact fun _ => ⟨le_rfl,le_rfl⟩
    | unmanaged hl => exact fun _ => ⟨hl,le_rfl⟩
    | @filled b len hl =>
      subst hl
      exact fun _ => ⟨le_rfl,le_rfl⟩
  | copy hg ho => exact ho.ordered rfl rfl (hk _ _ hg).le_bound

theorem Done.ordered (ho : Done w k f a o) (hf : w.live? k = some f) (hs : ¬Wraps w a)
    (hk : ∀ k f, w.live? k = some f → Kept k f w.heap.memory) : Ordered o.fields := by
  obtain ⟨hr,hsf⟩ := hk k f hf
  cases ho with
  | assign hg hne ho => exact ho.ordered rfl rfl (hk _ _ hg).2.le_bound
  | reserve hn ho =>
    cases ho with
    | precondition | enough | refused => exact hsf
    | grown hv hm hb hcap hok =>
      refine fun _ => ⟨(hr.length_le hm).trans hcap.le,le_unbounded ?_ hb⟩
      exact hn
  | clear => exact fun hv => ⟨Nat.zero_le _,(hsf hv).2⟩
  | append hx ho => exact ho.ordered hr hsf (doubles_of_append hs hf)
  | next hcall hg hi ho => exact ho.ordered hr hsf (doubles_of_next hs hcall hf hg hi)

end

theorem kept_preserved {lends : Bool} : Preserved (given lends) Wraps (fun h => h.Checked Inside)
    fun k f m => ∀ g ∈ f, Kept k g m where
  start := by simp [Heap.Checked]
  caller hc := hc
  unborn _ := by simp
  stable hc hS hk := fun g hg => ⟨(hk g hg).1.of_spares hc hS,(hk g hg).2⟩
  makes hsound hw hs hm := by
    have hk := fun k f hf => hw.2 k f hf
    obtain ⟨hc,hr⟩ := (makes_cases hm).rep hs hw.1 fun k f hf => (hk k f hf).1
    have hordered := (makes_cases hm).ordered fun k f hf => (hk k f hf).2
    exact ⟨hc,fun g hg => Option.some.inj hg ▸ ⟨hr,hordered⟩⟩
  does hsound hw hs hf hd := by
    have hk := fun k f hf => hw.2 k f hf
    obtain ⟨hc,hr⟩ := (does_cases hd).rep (hsound.placed hf) hf hs hw.1 fun k f hf => (hk k f hf).1
    have hordered := (does_cases hd).ordered hf hs hk
    exact ⟨hc,fun g hg => Option.some.inj hg ▸ ⟨hr,hordered⟩⟩
  destroy hsound hw hs hf := by
    have hr := rep_preserved.destroy hsound ⟨hw.1,fun k g hg => (hw.2 k g hg).1⟩ hs hf
    exact ⟨hr.1,by simp⟩

/-! ## Terminators -/

/-- A managed object has the terminator behind its content, when it has a buffer. -/
def Closed (f : Fields) (m : Memory (Option ℕ) Cell) : Prop :=
  f.managed_ = true → f.buf_ ≠ none → m.read f.buf_ f.length_ = nul

section
variable {lends : Bool} {w : World Cell} {h : Heap Cell} {k : ℕ} {f str : Fields} {ok : Bool}
  {x : Elem Cell} {a : Act Cell Constructor} {o : Outcome Cell}

theorem closed_of_none {m : Memory (Option ℕ) Cell} (hb : f.buf_ = none) : Closed f m :=
  fun _ h => absurd hb h

theorem closed_of_unmanaged {m : Memory (Option ℕ) Cell} (hm : f.managed_ = false) :
    Closed f m := fun h => by simp [hm] at h

theorem CopiesFrom.closed (ho : CopiesFrom h k f str ok o) (hbuf : f.buf_ = none)
    (ha : Placed str h.memory) (hlt : ok = true → str.valid_ = true → str.length_+1 < 2^32) :
    Closed o.fields o.heap.memory := by
  cases ho with
  | invalid | refused => exact closed_of_none hbuf
  | filled hsv hok => exact fun _ _ => (content_copied ha hbuf (hlt hok hsv)).2

theorem closed_put (hr : Rep k f h.memory) (hn : f.length_ < f.capacity_) :
    Closed (put h f x).fields (put h f x).heap.memory := by
  have hcap := hr.capacity_lt
  exact fun hm _ => (content_put (hr.lt_cells hm hn) (by omega)).2

theorem Appends.closed (ho : Appends h k f x ok o) (hr : Rep k f h.memory)
    (ha : Placed f h.memory) (hs : Closed f h.memory) (hw : Doubles f) :
    Closed o.fields o.heap.memory := by
  cases ho with
  | invalid | full | unmanaged | refused => exact hs
  | put hv hb hn => exact closed_put hr hn
  | grown hv hb hn hm =>
    have hcap := hw hv hm hb hn
    have hlt := Fields.lt_newCap 8 (by omega) hb hn hcap
    have hle : f.length_ ≤ f.newCap 8 := (hr.length_le hm).trans hlt.le
    exact closed_put (rep_allocated ha (newCap_lt_sentinel hr.bound_lt hcap) hle hr.bound_lt)
      (lt_of_le_of_lt (hr.length_le hm) hlt)

theorem Made.closed (ho : Made lends w a o) (hw : w.Sound (given lends)) (hs : ¬Wraps w a)
    (hk : ∀ k f, w.live? k = some f → Rep k f w.heap.memory) : Closed o.fields o.heap.memory := by
  cases ho with
  | construct ha ho =>
    cases ho with
    | default | bounded | noBound | wrapNull | nullString | noMemory => exact closed_of_none rfl
    | wrap | refused | unmanaged => exact closed_of_unmanaged rfl
    | @filled b len hl =>
      subst hl
      obtain ⟨o,ho,-⟩ := owner?_of_usable (admissible_usable ha rfl)
      exact fun _ _ => (content_copied (.inr ⟨o,ho⟩) rfl (strlen_lt hs)).2
  | copy hg ho =>
    exact ho.closed rfl (hw.placed hg) (length_lt_of_copy hs hg (hk _ _ hg).length_lt)

theorem Done.closed (ho : Done w k f a o) (hw : w.Sound (given lends)) (hf : w.live? k = some f)
    (hs : ¬Wraps w a) (hk : ∀ k f, w.live? k = some f → Rep k f w.heap.memory)
    (hc : Closed f w.heap.memory) : Closed o.fields o.heap.memory := by
  have hr := hk k f hf
  have ha := hw.placed hf
  cases ho with
  | @assign j g ok o hg hne ho =>
    have hplaced : Placed g (releases w.heap k f).memory :=
      (hw.placed hg).of_keeps (confined_releases within_reaches).keeps
    exact ho.closed rfl hplaced (length_lt_of_assign hs hne hg (hk j g hg).length_lt)
  | @reserve n ok o hn ho =>
    cases ho with
    | precondition | enough | refused => exact hc
    | grown hv hm hb hcap hok =>
      exact fun _ _ => (content_allocated ha (fun hb => (hr.empty hm hb).1)
        ((hr.length_le hm).trans hcap.le)
        (capacity_lt_of_reserve hs hf hv hm hb hcap hn hok)).2
  | clear =>
    by_cases hb : f.buf_ = none
    · rw [clear_of_none hb]
      exact closed_of_none hb
    · rw [clear_of_ne hb]
      refine fun hm _ => read_write_self ?_ _
      have hm : f.managed_ = true := hm
      rw [(hr.block hm hb).2.1]
      exact Nat.succ_pos _
  | append hx ho => exact ho.closed hr ha hc (doubles_of_append hs hf)
  | next hcall hg hi ho => exact ho.closed hr ha hc (doubles_of_next hs hcall hf hg hi)

end

/-! ## The operations -/

section
variable {lends : Bool} {h : Heap Cell} {k n : ℕ} {f str : Fields} {ok : Bool} {x : Elem Cell}
  {o : Outcome Cell}

/-- The copy constructor and the assignment operator. -/
theorem CopiesFrom.abs_copied (ho : CopiesFrom h k f str ok o) (hv : f.valid_ = false)
    (hbuf : f.buf_ = none) (hb : f.bound_ = str.bound_) (ha : Placed str h.memory)
    (hlt : str.valid_ = true → str.length_ < 2^31) :
    Copied (ok = false) (str.abs h.memory) o.abs := by
  cases ho with
  | invalid hsv =>
    refine .inl ?_
    rw [Outcome.abs,Fields.abs_of_invalid hv,Fields.abs_of_invalid hsv]
  | refused _ hok => exact .inr ⟨hok,Fields.abs_of_invalid hv⟩
  | filled hsv =>
    have hlen := hlt hsv
    exact .inl (Fields.abs_congr hsv.symm hb (content_copied ha hbuf (by omega)).1)

theorem Constructs.abs_eq {make : Constructor} (ho : Constructs h k make ok o)
    (ha : admissible lends h.memory make = true) (hm : admits h.memory make) :
    o.abs = made h.memory make ok := by
  cases ho with
  | default => exact Fields.abs_of_empty rfl rfl
  | noBound hb => exact (if_pos hb).symm
  | bounded hz hs =>
    rw [made,if_neg (not_or.mpr ⟨hz,hs⟩)]
    exact Fields.abs_of_empty rfl rfl
  | wrapNull | nullString | noMemory => rfl
  | wrap =>
    rw [Outcome.abs,Fields.abs_of_valid rfl,Fields.content,reads_strlen hm]
    exact BoundedList.ofList?_eq_some.mpr ⟨rfl,(strlen_eq hm).symm⟩
  | @filled b len hl =>
    subst hl
    have hlt : strlen h.memory (some b)+1 < 2^32 := by
      rw [strlen_eq hm]
      have hm : (chars h.memory (some b)).length < 2^31 := hm
      omega
    generalize hlen : strlen h.memory (some b) = len at hlt
    obtain ⟨o,ho,-⟩ := owner?_of_usable (admissible_usable ha rfl)
    have hcontent : (copied h k (.initial len) (view (some b) len)).2.content
        (copied h k (.initial len) (view (some b) len)).1.memory =
          (view (some b) len).content h.memory := (content_copied (.inr ⟨o,ho⟩) rfl hlt).1
    subst hlen
    rw [Outcome.abs,Fields.abs_of_valid rfl,hcontent,Fields.content,made,if_pos rfl]
    refine BoundedList.ofList?_eq_some.mpr ⟨(reads_strlen hm).symm,(strlen_eq hm).symm⟩
  | @refused str length bound ok hr =>
    have hnone : made h.memory (.unmanaged str length bound) ok = none := by
      cases str with
      | none => rfl
      | some b =>
        rw [made]
        by_cases hb : bound = 0 ∨ bound = unboundedSentinel
        · exact if_pos hb
        · rw [if_neg hb,BoundedList.ofList?_eq_none,length_reads]
          exact (hr.resolve_left (by simp)).resolve_right hb
    exact hnone.symm
  | unmanaged hl hz hs =>
    rw [made,if_neg (not_or.mpr ⟨hz,hs⟩)]
    rfl

theorem Reserves.abs_eq (ho : Reserves h k f n ok o) (hr : Rep k f h.memory)
    (ha : Placed f h.memory) (hn : n < 2^31) : o.abs = f.abs h.memory := by
  cases ho with
  | precondition | enough | refused => rfl
  | grown _ hm _ hcap =>
    exact Fields.abs_congr rfl rfl (content_allocated ha (fun hb => (hr.empty hm hb).1)
      ((hr.length_le hm).trans hcap.le) (by omega)).1

/-- `append(elem)` of a managed object. -/
theorem Appends.appended (ho : Appends h k f x ok o) (hk : Kept k f h.memory)
    (ha : Placed f h.memory) (hm : f.managed_ = true)
    (hs : f.valid_ = true → f.length_ < 2^31 ∧ f.capacity_ < 2^31)
    (hx : f.valid_ = true → f.MustGrow → ok = true →
      ∀ m', Confined (Reaches h.memory f.buf_) h.memory m' → x.get m' = x.get h.memory) :
    ∃ r, o.returned = some r ∧ Appended (x.get h.memory) ok (f.abs h.memory) r o.abs ∧
      (r ≠ .noError → o.fields = f ∧ o.heap.memory = h.memory) := by
  obtain ⟨hr,hsf⟩ := hk
  cases ho with
  | invalid hv => exact ⟨_,rfl,appended_of_invalid hv,fun _ => ⟨rfl,rfl⟩⟩
  | full hv hfull =>
    exact ⟨_,rfl,appended_of_full hv (hsf.le_bound hv) (hs hv).1 hfull,fun _ => ⟨rfl,rfl⟩⟩
  | put hv hfull hn =>
    have hl := (hs hv).1
    exact ⟨_,rfl,appended_of_put hv (hsf.le_bound hv) hl hfull hv rfl
      (content_put (hr.lt_cells hm hn) (by omega)).1,fun h => absurd rfl h⟩
  | unmanaged _ _ _ hm' => simp [hm] at hm'
  | refused hv hfull _ _ hok =>
    exact ⟨_,rfl,appended_of_refused hv (hsf.le_bound hv) (hs hv).1 hfull hok,fun _ => ⟨rfl,rfl⟩⟩
  | grown hv hfull hn _ hok =>
    refine ⟨_,rfl,appended_of_put hv (hsf.le_bound hv) (hs hv).1 hfull hv rfl ?_,
      fun h => absurd rfl h⟩
    have hl := (hs hv).1
    have hlt := Fields.lt_newCap 8 (by omega) hfull hn (hs hv).2
    have hcap : f.length_ ≤ f.newCap 8 := (hr.length_le hm).trans hlt.le
    have hsmall := newCap_lt_sentinel hr.bound_lt (hs hv).2
    have hgrown : Rep k (allocated h k f (f.newCap 8) true).2
      (allocated h k f (f.newCap 8) true).1.memory := rep_allocated ha hsmall hcap hr.bound_lt
    have hput := (content_put (f:=(allocated h k f (f.newCap 8) true).2) (x:=x)
      (hgrown.lt_cells hm (lt_of_le_of_lt (hr.length_le hm) hlt)) (by
        show f.length_+1 < _
        omega)).1
    rw [hput,hx hv ⟨hm,hfull,hn⟩ hok _ (confined_allocated reaches_next within_reaches),
      (content_allocated ha (fun hb => (hr.empty hm hb).1) hcap hsmall).1]

end

/-! ## Strings over the same buffer -/

/-- When `reserve` of a valid managed object releases its buffer. -/
def reserves (f : Fields) (n : ℕ) : Prop :=
  f.valid_ = true ∧ f.managed_ = true ∧ f.bound_ = unboundedSentinel ∧ f.capacity_ < n

/-- A step of a program over strings that changes the characters of another string. -/
def DisturbsString (w : World Cell) (a : Act Cell Constructor) : Prop :=
  Disturbs lending reserves True w a

section
variable {w : World Cell} {j k : ℕ} {f g : Fields} {a : Act Cell Constructor} {o : Outcome Cell}

/-- What is put behind the end of another string. -/
theorem content_of_put {h : Heap Cell} {x : Elem Cell} (hl : g.length_ ≤ f.length_)
    (hlt : f.length_+1 < 2^32) : g.content (put h f x).heap.memory = g.content h.memory := by
  have hlen : u32 (f.length_+1) = f.length_+1 := Nat.mod_eq_of_lt hlt
  rw [put,Heap.memory_store,Heap.memory_store,hlen,Fields.content,reads_write (by omega),
    reads_write hl]
  rfl

theorem Appends.keeps {h : Heap Cell} {x : Elem Cell} {ok : Bool} (ho : Appends h k f x ok o)
    (hm : h.memory = w.heap.memory) (hv : Views w k f j g) (hn : ¬DisturbsString w a)
    (hlt : f.capacity_ < 2^32) (ha : AppendsTo w k a) (hok : a.ok = ok) (hl : 0 < g.length_) :
    g.content o.heap.memory = g.content w.heap.memory := by
  rw [← hm]
  cases ho with
  | invalid | full | unmanaged | refused => rfl
  | put hfv hb hroom =>
    refine content_of_put (Nat.le_of_not_lt fun hlen => ?_) (by omega)
    exact hn (.appends hv ha hfv hb hroom hlen)
  | grown hfv hb hcap hm' hok' =>
    exact absurd (.releases hv hl (.grows ha hfv ⟨hm',hb,hcap⟩ (hok.trans hok'))) hn

theorem Done.keeps (ho : Done w k f a o) (hv : Views w k f j g) (hn : ¬DisturbsString w a)
    (hlt : f.capacity_ < 2^32) : g.content o.heap.memory = g.content w.heap.memory := by
  by_cases hl : 0 < g.length_
  · cases ho with
    | assign _ hne => exact absurd (.releases hv hl (.assign hne)) hn
    | reserve _ ho =>
      cases ho with
      | precondition | enough | refused => rfl
      | grown hfv hm hb hcap hok =>
        subst hok
        exact absurd (.releases hv hl (.reserve ⟨hfv,hm,hb,hcap⟩)) hn
    | clear => exact absurd (.clears trivial hv hl) hn
    | append _ ho => exact ho.keeps rfl hv hn hlt .append rfl hl
    | next hc hg hi ho => exact ho.keeps rfl hv hn hlt (.next hc hg hi) rfl hl
  · rw [Fields.content,Fields.content,Nat.eq_zero_of_not_pos hl]
    rfl

end

/-! ## The runs -/

/-- The invariant of the programs. -/
structure Tidy (w : World Cell) : Prop where
  sound : w.Sound lending
  kept : ∀ k f, w.live? k = some f → Kept k f w.heap.memory
  closed : ∀ k f, w.live? k = some f → Closed f w.heap.memory
  small : Small w

theorem Grows.valid {w : World Cell} {f : Fields} {a : Act Cell Constructor} (hg : Grows w f a) :
    ∃ k, w.live? k = some f ∧ f.valid_ = true := by
  cases hg with
  | append hf hv | next _ hf _ _ hv => exact ⟨_,hf,hv⟩

theorem not_wraps {w : World Cell} {a : Act Cell Constructor} (ha : Admitted admits w a)
    (hw : Small w) : ¬Wraps w a := by
  intro hs
  cases hs with
  | reserve =>
    have hn : 2^32-1 < 2^31 := ha.2
    omega
  | copy hg hv hl | assign _ hg hv hl =>
    have hlt := (hw.of_valid hg hv).1
    omega
  | @cString b hl =>
    have hlt : (chars w.heap.memory (some b)).length < 2^31 := ha.2
    rw [strlen_eq hlt] at hl
    omega
  | grow hg hc =>
    obtain ⟨k,hf,hv⟩ := hg.valid
    exact absurd (hw.of_valid hf hv).2 (Nat.not_lt_of_le hc)

/-- A step of such a program on managed objects keeps their terminators. -/
theorem closed_of_step {w w' : World Cell} {a : Act Cell Constructor} (h : w.Step lending a w')
    (hs : w.Sound lending) (hk : ∀ k f, w.live? k = some f → Kept k f w.heap.memory)
    (hc : ∀ k f, w.live? k = some f → Closed f w.heap.memory) (ha : Admitted admits w a)
    (hn : ¬Wraps w a) : ∀ k f, w'.live? k = some f → Closed f w'.heap.memory := by
  have hr := fun k f hf => (hk k f hf).1
  -- the buffer of another managed object is another one
  have hother {m' : Memory (Option ℕ) Cell} {k j : ℕ} {f g : Fields} (hf : w.live? k = some f)
      (hm : f.managed_ = true) (hg : w.live? j = some g) (hj : j ≠ k)
      (hconf : Confined (Reaches w.heap.memory f.buf_) w.heap.memory m') : Closed g m' := by
    intro hgm hb
    rw [read_of_ne ((hs.placed hg).cells_eq hconf ((hr k f hf).buffer_ne hm (hr j g hg) hgm hj))]
    exact hc j g hg hgm hb
  have hnew {m' : Memory (Option ℕ) Cell} {j : ℕ} {g : Fields} (hg : w.live? j = some g)
      (hconf : Confined (Reaches w.heap.memory none) w.heap.memory m') : Closed g m' := by
    intro hgm hb
    rw [read_of_ne ((hs.placed hg).cells_eq hconf fun _ => rfl)]
    exact hc j g hg hgm hb
  have hdoes {k : ℕ} {f : Fields} {o : Outcome Cell} (hf : w.live? k = some f)
      (hm : f.managed_ = true) (hd : Does lending w k f a o) (j : ℕ) (g : Fields)
      (hg : (w.put k o).live? j = some g) : Closed g o.heap.memory := by
    by_cases hj : j = k
    · subst j
      obtain rfl := Option.some.inj ((live?_put_self o hf).symm.trans hg)
      exact (does_cases hd).closed hs hf hn hr (hc k f hf)
    · rw [live?_put_of_ne o hj] at hg
      exact hother hf hm hg hj ((does_cases hd).confined reaches_next within_reaches)
  intro j g hg
  cases h with
  | caller => exact hnew hg (.add reaches_next _)
  | @makes _ o _ hm =>
    by_cases hj : j = w.objects.length
    · subst j
      obtain rfl := Option.some.inj ((live?_push_self o).symm.trans hg)
      exact (makes_cases hm).closed hs hn hr
    · rw [live?_push_of_ne o hj] at hg
      exact hnew hg ((makes_cases hm).confined reaches_next)
  | @does k f _ _ _ hf hd =>
    refine hdoes hf (ha.1 k ?_ f hf) hd j g hg
    cases hd <;> simp_all [target?]
  | @iterates k _ _ f _ _ hcall hf hd | @stops k _ _ f _ _ hcall hf hd =>
    exact hdoes hf (ha.1 k (by simp [target?,hcall]) f hf) hd j g hg
  | ends | assignSelf | begins | refuses => exact hc j g hg
  | @destroy k f _ hf =>
    have hj : j ≠ k := by
      rintro rfl
      rw [live?_destroy_self hf] at hg
      contradiction
    rw [live?_destroy_of_ne hj] at hg
    cases hm : f.managed_ with
    | false =>
      rw [World.destroy,hm]
      exact hc j g hg
    | true =>
      have hmemory : (w.destroy k f).heap.memory = w.heap.memory.free f.buf_ := by
        simp [World.destroy,hm]
      rw [hmemory]
      exact hother hf hm hg hj (.free within_reaches)

theorem tidy {e : Execution (step lending) World.init} (he : InScope admits e) :
    ∀ w ∈ e.visited, Tidy w := by
  have hwraps : ∀ p ∈ e.steps, ¬Wraps p.1 p.2 := fun p hp =>
    not_wraps (he.steps p hp) (he.small _ (e.source_mem_visited hp))
  have hkept {steps : List (World Cell × Act Cell Constructor)} {w : World Cell}
      (hr : Run (step lending) World.init steps w) (hb : steps ⊆ e.steps) :
      w.Sound lending ∧ ∀ k f, w.live? k = some f → Kept k f w.heap.memory := by
    have hn := fun p hp => hwraps p (hb hp)
    exact ⟨run_sound confines hr hn,fun k f hf => (kept_preserved.run confines hr hn).2 k f hf⟩
  have hclosed {steps : List (World Cell × Act Cell Constructor)} {w : World Cell}
      (hr : Run (step lending) World.init steps w) (hb : steps ⊆ e.steps) :
      ∀ k f, w.live? k = some f → Closed f w.heap.memory := by
    induction hr with
    | refl => exact fun k f hf => by simp [World.live?,World.init] at hf
    | @next steps w a w' before hstep ih =>
      have hbefore : steps ⊆ e.steps := fun p hp => hb (List.mem_append_left _ hp)
      have hp : (w,a) ∈ e.steps := hb (by simp)
      obtain ⟨hs,hk⟩ := hkept before hbefore
      exact closed_of_step (step_cases hstep) hs hk (ih hbefore) (he.steps _ hp) (hwraps _ hp)
  intro w hw
  obtain ⟨steps,hbefore,hr⟩ := e.run.prefix_of_visited hw
  obtain ⟨hs,hk⟩ := hkept hr hbefore.subset
  exact ⟨hs,hk,hclosed hr hbefore.subset,he.small w hw⟩

theorem implements : Implements lending made admits reserves True Tidy where
  invariant he := tidy he
  sound hw := hw.sound
  sizes hw hf hv := (hw.kept _ _ hf).2 hv
  makes hm := (makes_cases hm).confined reaches_next
  does hd := (does_cases hd).confined reaches_next within_reaches
  keeps hw hv hn hd := (does_cases hd).keeps hv hn (hw.kept _ _ hv.target).1.capacity_lt
  construct _ hadm hm := (construct_cases _ _ _ _).abs_eq hadm hm
  copy hw hg := (copyFrom_cases _ _ _ _ _).abs_copied rfl rfl rfl (hw.sound.placed hg)
    fun hv => (hw.small.of_valid hg hv).1
  assign {w k j f g ok} hw hf hm hg hfree := by
    have hmemory : (releases w.heap k f).memory = w.heap.memory.free f.buf_ := by
      rw [releases,if_pos hm,Heap.memory_delete]
    rw [← hfree,← hmemory]
    refine (copyFrom_cases _ _ _ _ _).abs_copied rfl rfl rfl ?_ fun hv =>
      (hw.small.of_valid hg hv).1
    exact (hw.sound.placed hg).of_keeps (confined_releases within_reaches).keeps
  reserve hw hf _ hn :=
    (reserve_cases _ _ _ _ _).abs_eq (hw.kept _ _ hf).1 (hw.sound.placed hf) hn
  clear hw hf _ := Fields.abs_clear rfl rfl rfl (hw.kept _ _ hf).2.le_bound
  append _ hw hf hm hmem hx := by
    rw [← hmem]
    refine (append_cases _ _ _ _ _).appended ?_ ?_ hm (hw.small.of_valid hf) ?_
    · exact hmem ▸ hw.kept _ _ hf
    · exact hmem ▸ hw.sound.placed hf
    · exact hmem ▸ hx
  index {g i} := by
    by_cases hv : !g.valid_ ∨ g.length_ ≤ i
    · exact .inl ⟨nul,if_pos hv⟩
    · exact .inr (if_neg hv)

/-- What is read through a pointer that `buffer` returned. -/
def shown (m : Memory (Option ℕ) Cell) : Pointer → List Cell
  | .null => []
  | .block b => m.cells (some b)
  | .literal => [nul]

/-- The buffer of a managed object shows its list and the terminator. -/
def ShowsLists (w : World Cell) : Prop :=
  ∀ k f b, w.live? k = some f → f.managed_ = true → w.abs k = some b →
    b.list ++ [nul] <+: shown w.heap.memory (lending.buffer f)

theorem Tidy.showsLists {w : World Cell} (hw : Tidy w) : ShowsLists w := by
  intro k f b hf hm hb
  obtain ⟨hr,hs⟩ := hw.kept k f hf
  obtain ⟨hv,hlist,-⟩ := Fields.abs_eq_some.mp ((abs_of_live hf).symm.trans hb)
  rw [hlist]
  cases hbuf : f.buf_ with
  | none =>
    have hbuffer : lending.buffer f = .literal := by
      simp [lending,given,String.buffer,hv,hbuf]
    rw [hbuffer,Fields.content,(hr.empty hm hbuf).1]
    exact List.prefix_refl _
  | some p =>
    have hbuffer : lending.buffer f = .block p := by
      simp [lending,given,String.buffer,hv,hbuf]
    have hne : f.buf_ ≠ none := by simp [hbuf]
    obtain ⟨-,hcells,hle⟩ := hr.block hm hne
    rw [hbuffer,Fields.content,← hw.closed k f hf hm hne,← reads_succ,reads_eq_take (by omega),hbuf]
    exact List.take_prefix _ _

/-- Strings made in several ways are appended and assigned, one of them from a string over the
buffer of another one. -/
def appendedStrings : Execution (step lending) World.init :=
  .ofLabels [.caller [some 72,some 105,some 0],.construct (.cString (some 0)) true,
    .construct (.bounded 3) true,.append 1 (.value (some 79)) true,.appendAll 1 0,.next true,
    .next true,.next true,.append 1 (.element 0 1) true,.copy 1 false,
    .construct (.wrap (some 1)) true,.assign 2 3 true,.construct .default true,.reserve 4 20 true,
    .appendAll 4 2,.next true,.next true,.next true,.clear 1,.destroy 3] (by decide)

/-- A string is assigned one over its own buffer. -/
def stringView : Execution (step lending) World.init :=
  .ofLabels [.construct .default true,.append 0 (.value (some 97)) true,
    .construct (.wrap (some 0)) true,.assign 0 1 true] (by decide)

end Blush.Storage.String
