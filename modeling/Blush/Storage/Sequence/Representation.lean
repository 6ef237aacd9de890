import Blush.Storage.Sequence.Step

/-! The header of `Sequence` promises `length <= capacity <= bound`. Two steps break it: the
unmanaged constructor with a length above the bound, and the doubling of a capacity of `2^31` or
more. -/
namespace Blush.Storage.Sequence
open Memory Transition
variable {α : Type}

/-- An access through the buffer of a valid object, or of one under construction, is in bounds. -/
def InHeld (x : Access) : Prop := x.valid = true ∨ x.managed = true → x.index < x.held

/-- What the class promises in a state. -/
structure Represented (w : World α) : Prop where
  valid : ∀ k f, w.live? k = some f → f.isValid = true →
    f.length ≤ f.capacity ∧ f.capacity ≤ f.bound ∧ f.capacity ≤ w.heap.held f
  accesses : w.heap.Checked InHeld

/-- `append(elem)` has to grow a capacity that does not double in 32 bits. -/
def Wraps (f : Fields) : Prop :=
  f.valid_ = true ∧ f.managed_ = true ∧ ¬f.Full ∧ f.capacity_ ≤ f.length_ ∧ 2^31 ≤ f.capacity_

/-- The steps that break the promise. -/
inductive Slip (w : World α) : Act α Constructor → Prop
  | unmanaged {b length bound ok} (h : bound < length) :
      Slip w (.construct (.unmanaged (some b) length bound) ok)
  | append {k e ok f} (hf : w.live? k = some f) (hw : Wraps f) : Slip w (.append k e ok)
  | next {k j i ok f g} (hc : w.call = some ⟨k,j,i⟩) (hf : w.live? k = some f)
      (hg : w.live? j = some g) (hi : i < g.length_) (hw : Wraps f) : Slip w (.next ok)

/-- The invariant of an object. A managed object of capacity zero may keep a foreign pointer. -/
structure Rep (k : ℕ) (f : Fields) (m : Memory (Option ℕ) α) : Prop where
  valid : f.valid_ = true → f.length_ ≤ f.capacity_ ∧ f.capacity_ ≤ f.bound_
  managed : f.managed_ = true → f.length_ ≤ f.capacity_ ∧
    (f.capacity_ = 0 ∨ m.owner? f.buf_ = some (some k) ∧ (m.cells f.buf_).length = f.capacity_)
  unmanaged : f.managed_ = false → f.capacity_ = f.bound_
  capacity_lt : f.capacity_ < 2^32
  bound_lt : f.bound_ < 2^32

namespace Rep
variable {h : Heap α} {k i : ℕ} {f : Fields} {m m' : Memory (Option ℕ) α}

/-- Nothing but the size of the object's own block matters. -/
theorem of_spares {S : Option ℕ → Option ℕ → Prop} (hr : Rep k f m) (hc : Spares S m m')
    (hk : ∀ p, ¬S p (some k)) : Rep k f m' where
  valid := hr.valid
  managed hm := (hr.managed hm).imp_right fun hb => hb.imp_right fun ⟨ho,hl⟩ =>
    ⟨hc.keeps _ _ ho,(hc.frame _ _ ho (hk _)).2.trans hl⟩
  unmanaged := hr.unmanaged
  capacity_lt := hr.capacity_lt
  bound_lt := hr.bound_lt

theorem le_bound (hr : Rep k f m) (hv : f.valid_ = true) : f.length_ ≤ f.bound_ :=
  (hr.valid hv).1.trans (hr.valid hv).2

theorem le_held (hr : Rep k f h.memory) : f.capacity_ ≤ h.held f := by
  cases hm : f.managed_ with
  | true =>
    have hb := (hr.managed hm).2
    rw [Heap.held,if_pos hm]
    omega
  | false =>
    rw [Heap.held,if_neg (by simp [hm])]
    exact le_of_eq (hr.unmanaged hm)

/-- An index below the length is in bounds. -/
theorem inHeld (hr : Rep k f h.memory) (write : Bool) (hi : i < f.length_) :
    InHeld (h.entry write f i) := by
  intro hv
  have hle : f.length_ ≤ f.capacity_ := hv.elim (fun hv => (hr.valid hv).1) fun hm =>
    (hr.managed hm).1
  exact (hi.trans_le hle).trans_le hr.le_held

/-- An index below the capacity is in bounds. -/
theorem inHeld_capacity (hr : Rep k f h.memory) (write : Bool) (hi : i < f.capacity_) :
    InHeld (h.entry write f i) := fun _ => hi.trans_le hr.le_held

end Rep

theorem represented_of_holds {w : World α}
    (hw : w.Holds (fun h => h.Checked InHeld) fun k f m => ∀ g ∈ f, Rep k g m) :
    Represented w where
  valid k f hf hv := by
    have hr := hw.2 k f hf
    have hv : f.valid_ = true := hv
    simp only [Fields.length,Fields.capacity,Fields.bound,hv,if_true]
    exact ⟨(hr.valid hv).1,(hr.valid hv).2,hr.le_held⟩
  accesses := hw.1

/-! ## The operations -/

variable [Inhabited α] {h : Heap α} {k n : ℕ} {f seq : Fields} {ok : Bool} {x : Elem α}
  {o : Outcome α}

/-- A buffer that exists is not the next block. -/
theorem entry_alloc (hf : f.managed_ = false ∨ ∃ o, h.memory.owner? f.buf_ = some o)
    (write : Bool) (i : ℕ) : (h.alloc k n).entry write f i = h.entry write f i := by
  have hheld : (h.alloc k n).held f = h.held f := by
    rw [Heap.held,Heap.held,Heap.memory_alloc]
    rcases hf with hm | ⟨o,ho⟩
    · simp [hm]
    · rw [cells_add_of_ne _ (ne_next ho)]
  rw [Heap.entry,Heap.entry,hheld]

/-- The new block holds as many elements as were asked for. -/
theorem inHeld_alloc {i : ℕ} (hm : f.managed_ = true) (hf : f.buf_ = h.memory.next) (hi : i < n) :
    InHeld ((h.alloc k n).entry true f i) := by
  intro _
  have hheld : (h.alloc k n).held f = n := by
    rw [Heap.held,if_pos hm,Heap.memory_alloc,hf,cells_add_next,List.length_replicate]
  exact hi.trans_eq hheld.symm

theorem checked_fill (hc : h.Checked InHeld) (hm : f.managed_ = true)
    (hseq : seq.managed_ = false ∨ ∃ o, h.memory.owner? seq.buf_ = some o)
    (hr : ∀ i < seq.length_, InHeld (h.entry false seq i)) :
    (fill h k f seq).1.Checked InHeld := by
  refine (hc.alloc _ _).copy (fun i hi => ?_) fun i hi => inHeld_alloc hm rfl hi
  rw [entry_alloc hseq]
  exact hr i hi

theorem rep_fill (hm : f.managed_ = true) (hb : seq.length_ ≤ f.bound_) (hlt : f.bound_ < 2^32) :
    Rep k (fill h k f seq).2 (fill h k f seq).1.memory where
  valid _ := ⟨le_rfl,hb⟩
  managed _ := by
    refine ⟨le_rfl,.inr ?_⟩
    rw [memory_fill]
    refine ⟨owner?_fresh _ _ _ _ _,?_⟩
    show (cells _ h.memory.next).length = _
    rw [length_cells_copy,cells_add_next,List.length_replicate]
    rfl
  unmanaged h := absurd (hm.symm.trans h) (by simp)
  capacity_lt := lt_of_le_of_lt hb hlt
  bound_lt := hlt

omit [Inhabited α] in
/-- A buffer with elements exists. -/
theorem Rep.source (hr : Rep k seq h.memory) (hl : 0 < seq.length_) :
    seq.managed_ = false ∨ ∃ o, h.memory.owner? seq.buf_ = some o := by
  cases hm : seq.managed_ with
  | false => exact .inl rfl
  | true =>
    obtain ⟨hle,hz | ⟨ho,-⟩⟩ := hr.managed hm
    · omega
    · exact .inr ⟨_,ho⟩

/-- The copy constructor and the assignment operator, when they have reset the fields. -/
theorem CopiesFrom.rep {j : ℕ} (ho : CopiesFrom h k f seq ok o) (hc : h.Checked InHeld)
    (hm : f.managed_ = true) (hcap : f.capacity_ = 0) (hlen : f.length_ = 0)
    (hv : f.valid_ = false) (hb : f.bound_ = seq.bound_) (hseq : Rep j seq h.memory) :
    o.heap.Checked InHeld ∧ Rep k o.fields o.heap.memory := by
  have hlt := hseq.bound_lt
  cases ho with
  | invalid | refused =>
    exact ⟨hc,by simp [hv],fun _ => ⟨by simp [hcap,hlen],.inl hcap⟩,by simp [hm],by simp [hcap],
      hb ▸ hlt⟩
  | filled hsv hl =>
    have hle := hseq.valid hsv
    exact ⟨checked_fill hc hm (hseq.source hl) fun i hi => hseq.inHeld false hi,
      rep_fill hm (by omega) (hb ▸ hlt)⟩
  | empty =>
    exact ⟨hc,fun _ => ⟨Nat.zero_le _,by simp [hcap]⟩,fun _ => ⟨Nat.zero_le _,.inl hcap⟩,
      by simp [hm],by simp [hcap],hb ▸ hlt⟩

theorem checked_grow (hc : h.Checked InHeld) (hr : Rep k f h.memory) (hm : f.managed_ = true)
    (hn : f.capacity_ < n) : (grow h k f n).1.Checked InHeld := by
  have hle := (hr.managed hm).1
  refine ((hc.alloc _ _).copy (fun i hi => ?_) fun i hi => ?_).delete _ _
  · rw [entry_alloc (hr.source (by omega))]
    exact hr.inHeld false hi
  · exact inHeld_alloc hm rfl (by omega)

theorem length_grow (ha : Placed f h.memory) :
    ((grow h k f n).1.memory.cells (grow h k f n).2.buf_).length = n := by
  show ((grow h k f n).1.memory.cells h.memory.next).length = n
  rw [memory_grow,cells_free_of_ne ha.next_ne,length_cells_copy,cells_add_next,
    List.length_replicate]

theorem rep_grow (hr : Rep k f h.memory) (ha : Placed f h.memory) (hm : f.managed_ = true)
    (hn : f.capacity_ < n) (hlt : n < 2^32) (hb : ¬Exceeds f n) :
    Rep k (grow h k f n).2 (grow h k f n).1.memory where
  valid _ := by
    have hle := (hr.managed hm).1
    refine ⟨hle.trans hn.le,?_⟩
    by_cases hs : f.bound_ = unboundedSentinel
    · show n ≤ f.bound_
      rw [hs,unboundedSentinel]
      omega
    · exact Nat.le_of_not_lt fun h => hb ⟨hs,h⟩
  managed _ := by
    refine ⟨(hr.managed hm).1.trans hn.le,.inr ?_⟩
    refine ⟨?_,length_grow ha⟩
    rw [memory_grow]
    exact owner?_free.trans (owner?_fresh _ _ _ _ _)
  unmanaged h := absurd (hm.symm.trans h) (by simp)
  capacity_lt := hlt
  bound_lt := hr.bound_lt

theorem checked_put (hc : h.Checked InHeld) (hr : Rep k f h.memory) (hn : f.length_ < f.capacity_) :
    (put h f x).heap.Checked InHeld := hc.store (hr.inHeld_capacity true hn) _

theorem rep_put (hr : Rep k f h.memory) (hn : f.length_ < f.capacity_) :
    Rep k (put h f x).fields (put h f x).heap.memory := by
  have hlen : u32 (f.length_+1) = f.length_+1 :=
    Nat.mod_eq_of_lt (by have := hr.capacity_lt; omega)
  refine ⟨fun hv => ⟨?_,(hr.valid hv).2⟩,fun hm => ⟨?_,(hr.managed hm).2.imp_right ?_⟩,
    hr.unmanaged,hr.capacity_lt,hr.bound_lt⟩
  · exact hlen.trans_le hn
  · exact hlen.trans_le hn
  · rintro ⟨ho,hl⟩
    exact ⟨(owner?_write _ _).trans ho,(length_cells_write _ _).trans hl⟩

theorem Appends.rep (ho : Appends h k f x ok o) (hc : h.Checked InHeld) (hr : Rep k f h.memory)
    (ha : Placed f h.memory) (hs : ¬Wraps f) :
    o.heap.Checked InHeld ∧ Rep k o.fields o.heap.memory := by
  cases ho with
  | invalid | full | unmanaged | refused => exact ⟨hc,hr⟩
  | put hv hb hn => exact ⟨checked_put hc hr hn,rep_put hr hn⟩
  | wrapped hv hb hn hm hcap =>
    have hlt : f.capacity_ < 2^31 := Nat.lt_of_not_le fun h => hs ⟨hv,hm,hb,hn,h⟩
    exact absurd hcap (Nat.not_le_of_lt (Fields.lt_newCap 4 (by omega) hb hn hlt))
  | grown hv hb hn hm hcap =>
    have hlt : f.newCap 4 < 2^32 := Fields.newCap_small 4 (by omega) hr.bound_lt
    have hg := rep_grow hr ha hm hcap hlt fun he =>
      absurd he.2 (Nat.not_lt_of_le (f.newCap_le 4 he.1))
    have hle := (hr.managed hm).1
    have hlen : (grow h k f (f.newCap 4)).2.length_ < (grow h k f (f.newCap 4)).2.capacity_ :=
      lt_of_le_of_lt hle hcap
    exact ⟨checked_put (checked_grow hc hr hm hcap) hg hlen,rep_put hg hlen⟩

/-- A constructor, unless it is given a length above the bound. -/
theorem Made.rep {lends : Bool} {w : World α} {a : Act α Constructor} (ho : Made lends w a o)
    (hs : ¬Slip w a) (hc : w.heap.Checked InHeld)
    (hr : ∀ k f, w.live? k = some f → Rep k f w.heap.memory) :
    o.heap.Checked InHeld ∧ Rep w.objects.length o.fields o.heap.memory := by
  have hinit {bound : ℕ} {valid : Bool} (hb : bound < 2^32) :
      Rep w.objects.length { Fields.initial bound with valid_ := valid } w.heap.memory :=
    ⟨fun _ => ⟨le_rfl,Nat.zero_le _⟩,fun _ => ⟨le_rfl,.inl rfl⟩,by simp [Fields.initial],by
      simp [Fields.initial],hb⟩
  cases ho with
  | construct ha ho =>
    cases ho with
    | default => exact ⟨hc,hinit (by simp [unboundedSentinel])⟩
    | bounded => exact ⟨hc,hinit (by simpa [admissible] using ha)⟩
    | nullArray | refused | emptyArray =>
      simp only [admissible,Bool.and_eq_true,decide_eq_true_eq] at ha
      exact ⟨hc,hinit ha.2⟩
    | filled =>
      simp only [admissible,Bool.and_eq_true,decide_eq_true_eq] at ha
      refine ⟨checked_fill hc rfl (.inl rfl) fun i hi => ?_,rep_fill rfl le_rfl ha.2⟩
      exact fun _ => hi
    | nullBuffer =>
      simp only [admissible,Bool.and_eq_true,decide_eq_true_eq] at ha
      exact ⟨hc,by simp,by simp,fun _ => rfl,ha.2,ha.2⟩
    | @unmanaged b length bound ok =>
      simp only [admissible,Bool.and_eq_true,decide_eq_true_eq] at ha
      have hle : length ≤ bound := Nat.le_of_not_lt fun h => hs (.unmanaged h)
      exact ⟨hc,fun _ => ⟨hle,le_rfl⟩,by simp,fun _ => rfl,ha.2,ha.2⟩
  | copy hg ho => exact ho.rep hc rfl rfl rfl rfl rfl (hr _ _ hg)

/-- An operation of an object, unless a capacity does not double. -/
theorem Done.rep {lends : Bool} {w : World α} {a : Act α Constructor} (ho : Done w k f a o)
    (ha : Apart lends k f w.heap.memory) (hf : w.live? k = some f) (hs : ¬Slip w a)
    (hc : w.heap.Checked InHeld) (hr : ∀ k f, w.live? k = some f → Rep k f w.heap.memory) :
    o.heap.Checked InHeld ∧ Rep k o.fields o.heap.memory := by
  have hrf := hr k f hf
  cases ho with
  | @assign j g ok o hg hne ho =>
    cases ho with
    | managed hm ho =>
      refine ho.rep (hc.delete _ _) rfl rfl rfl rfl rfl (j:=j) ?_
      rw [Heap.memory_delete]
      exact (hr j g hg).of_spares (Confined.free (ha.within hm)).spares (not_touches hne.symm)
    | unmanaged hm ho => exact ho.rep hc rfl rfl rfl rfl rfl (hr j g hg)
  | reserve hn ho =>
    cases ho with
    | precondition | enough | bound | refused => exact ⟨hc,hrf⟩
    | grown hv hm hcap hb =>
      exact ⟨checked_grow hc hrf hm hcap,rep_grow hrf ha.placed hm hcap hn hb⟩
  | clear =>
    exact ⟨hc,fun hv => ⟨Nat.zero_le _,(hrf.valid hv).2⟩,fun hm => ⟨Nat.zero_le _,
      (hrf.managed hm).2⟩,hrf.unmanaged,hrf.capacity_lt,hrf.bound_lt⟩
  | append hx ho => exact ho.rep hc hrf ha.placed fun hwr => hs (.append hf hwr)
  | next hcall hg hi ho =>
    exact ho.rep (hc.access ((hr _ _ hg).inHeld false hi)) hrf ha.placed fun hwr =>
      hs (.next hcall hf hg hi hwr)

theorem rep_preserved {lends : Bool} : Preserved (given (α:=α) lends) Slip
    (fun h => h.Checked InHeld) fun k f m => ∀ g ∈ f, Rep k g m where
  start := by simp [Heap.Checked]
  caller hc := hc
  unborn _ := by simp
  stable hc hS hr := fun g hg => (hr g hg).of_spares hc hS
  makes _ hw hs hm := by
    obtain ⟨hc,hr⟩ := (makes_cases hm).rep hs hw.1 fun k f hf => hw.2 k f hf
    exact ⟨hc,fun g hg => Option.some.inj hg ▸ hr⟩
  does hsound hw hs hf hd := by
    obtain ⟨hc,hr⟩ := (does_cases hd).rep (hsound.apart _ _ hf) hf hs hw.1 fun k f hf =>
      hw.2 k f hf
    exact ⟨hc,fun g hg => Option.some.inj hg ▸ hr⟩
  destroy {w k f} _ hw _ _ := by
    refine ⟨?_,by simp⟩
    cases hm : f.managed_ with
    | false => simpa [World.destroy,hm] using hw.1
    | true => simpa [World.destroy,hm] using hw.1.delete k f.buf_

/-! ## The slips -/

/-- An append whose capacity does not double writes behind the buffer. -/
theorem Appends.not_checked (ho : Appends h k f x ok o) (hr : Rep k f h.memory) (hw : Wraps f) :
    ¬o.heap.Checked InHeld := by
  obtain ⟨hv,hm,hb,hn,hcap⟩ := hw
  have hwrap := Fields.newCap_lt 4 hcap hr.capacity_lt
  have hput : o = Sequence.put h f x := by
    cases ho with
    | put | wrapped => rfl
    | invalid hv' => simp [hv] at hv'
    | full _ hb' => exact absurd hb' hb
    | unmanaged _ _ _ hm' => simp [hm] at hm'
    | refused _ _ _ _ hc | grown _ _ _ _ hc => omega
  rw [hput]
  intro hchecked
  have hlt : f.length_ < h.held f :=
    hchecked (h.entry true f f.length_) (List.mem_cons_self ..) (.inl hv)
  have hheld : h.held f = f.capacity_ := by
    rw [Heap.held,if_pos hm]
    exact ((hr.managed hm).2.resolve_left (by omega)).2
  omega

theorem not_represented_of_slip {w w' : World α} {a : Act α Constructor}
    (hr : ∀ k f, w.live? k = some f → Rep k f w.heap.memory)
    (h : step sequence w a = some w') (hs : Slip w a) : ¬Represented w' := by
  intro hw'
  cases hs with
  | @unmanaged b length bound ok hlt =>
    obtain ⟨o,hm,rfl⟩ := (step_cases h).constructs
    cases makes_cases hm with
    | construct _ ho =>
      cases ho with
      | unmanaged =>
        have hle := (hw'.valid _ _ (World.live?_push_self _) rfl).1
        exact absurd hle (Nat.not_le_of_lt hlt)
  | @append k e ok f hf hwr =>
    obtain ⟨o,hd,rfl⟩ := (step_cases h).appends hf
    cases does_cases hd with
    | append _ ho => exact ho.not_checked (hr k f hf) hwr hw'.accesses
  | @next k j i ok f g hc hf hg hi hwr =>
    obtain ⟨o,hd,-,hheap⟩ := (step_cases h).iteration hc hf hg hi
    cases does_cases hd with
    | next _ _ _ ho => exact ho.not_checked (hr k f hf) hwr (hheap ▸ hw'.accesses)

/-- The unmanaged constructor is given a length above the bound. -/
def lengthAboveBound : Execution (step (sequence (α:=ℕ))) World.init :=
  .ofLabels [.caller [1,2,3],.construct (.unmanaged (some 0) 5 3) true] (by decide)

end Blush.Storage.Sequence
