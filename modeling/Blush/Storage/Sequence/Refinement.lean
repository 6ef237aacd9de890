import Blush.Storage.Refinement
import Blush.Storage.Sequence.Representation

/-! Sequences refine bounded lists, as long as nothing reaches `2^31`. -/
namespace Blush.Storage.Sequence
open Memory Transition World
variable {α : Type} [Inhabited α]

/-- The list that a constructor makes. -/
def made (m : Memory (Option ℕ) α) : Constructor → Bool → Option (BoundedList α)
  | .default,_ => some (.empty unboundedSentinel)
  | .bounded bound,_ => some (.empty bound)
  | .cArray none _,_ => none
  | .cArray (some b) length,ok =>
    if ok || length == 0 then some (.exact (m.reads (some b) length)) else none
  | .unmanaged none _ _,_ => none
  | .unmanaged (some b) length bound,_ => BoundedList.ofList? bound (m.reads (some b) length)

/-- An unmanaged sequence is built with a length up to its bound. -/
def admits (_ : Memory (Option ℕ) α) : Constructor → Prop
  | .unmanaged _ length bound => length ≤ bound
  | _ => True

instance (m : Memory (Option ℕ) α) (make : Constructor) : Decidable (admits m make) :=
  match make with
  | .unmanaged _ length bound => inferInstanceAs (Decidable (length ≤ bound))
  | .default | .bounded _ | .cArray _ _ => inferInstanceAs (Decidable True)

/-! ## The contents -/

section
variable {h : Heap α} {k n : ℕ} {f seq : Fields} {x : Elem α}

theorem content_fill (hne : h.memory.next ≠ seq.buf_) :
    (fill h k f seq).2.content (fill h k f seq).1.memory = seq.content h.memory := by
  rw [memory_fill]
  exact reads_fresh hne (by simp)

theorem content_grow (ha : Placed f h.memory) (hn : f.length_ ≤ n) :
    (grow h k f n).2.content (grow h k f n).1.memory = f.content h.memory := by
  have hfree : (grow h k f n).1.memory.reads h.memory.next f.length_ =
      ((h.memory.add (some k) (List.replicate n default)).copy h.memory.next f.buf_
        f.length_).reads h.memory.next f.length_ := by
    rw [memory_grow]
    exact reads_of_cells (cells_free_of_ne ha.next_ne) _
  exact hfree.trans (reads_fresh ha.next_ne (by simpa using hn))

theorem content_put (hn : f.length_ < (h.memory.cells f.buf_).length)
    (hl : f.length_+1 < 2^32) : (put h f x).fields.content (put h f x).heap.memory =
      f.content h.memory ++ [x.get h.memory] := by
  have hlen : u32 (f.length_+1) = f.length_+1 := Nat.mod_eq_of_lt hl
  show reads _ f.buf_ (u32 (f.length_+1)) = _
  rw [hlen,reads_succ,put,Heap.memory_store,read_write_self hn,reads_write le_rfl]
  rfl

end

/-! ## The operations -/

section
variable {lends : Bool} {h : Heap α} {k n : ℕ} {f seq : Fields} {ok : Bool} {x : Elem α} {o : Outcome α}

/-- The copy constructor and the assignment operator. -/
theorem CopiesFrom.abs_copied (ho : CopiesFrom h k f seq ok o) (hv : f.valid_ = false)
    (hb : f.bound_ = seq.bound_) (ha : Placed seq h.memory) :
    Copied (ok = false) (seq.abs h.memory) o.abs := by
  cases ho with
  | invalid hsv =>
    refine .inl ?_
    rw [Outcome.abs,Fields.abs_of_invalid hv,Fields.abs_of_invalid hsv]
  | refused _ _ hok => exact .inr ⟨hok,Fields.abs_of_invalid hv⟩
  | filled hsv => exact .inl (Fields.abs_congr hsv.symm hb (content_fill ha.next_ne))
  | empty hsv hl =>
    refine .inl ?_
    rw [Fields.abs_of_empty hsv hl,← hb]
    exact Fields.abs_of_empty rfl rfl

theorem Reserves.abs_eq (ho : Reserves h k f n ok o) (hr : Rep k f h.memory)
    (ha : Placed f h.memory) : o.abs = f.abs h.memory := by
  cases ho with
  | precondition | enough | bound | refused => rfl
  | grown _ hm hn =>
    exact Fields.abs_congr rfl rfl (content_grow ha ((hr.managed hm).1.trans hn.le))

/-- `append(elem)` of a managed object. -/
theorem Appends.appended (ho : Appends h k f x ok o) (hr : Rep k f h.memory)
    (ha : Placed f h.memory) (hm : f.managed_ = true)
    (hs : f.valid_ = true → f.length_ < 2^31 ∧ f.capacity_ < 2^31)
    (hx : f.valid_ = true → f.MustGrow → ok = true →
      ∀ m', Confined (Reaches h.memory f.buf_) h.memory m' → x.get m' = x.get h.memory) :
    ∃ r, o.returned = some r ∧ Appended (x.get h.memory) ok (f.abs h.memory) r o.abs ∧
      (r ≠ .noError → o.fields = f ∧ o.heap.memory = h.memory) := by
  cases ho with
  | invalid hv => exact ⟨_,rfl,appended_of_invalid hv,fun _ => ⟨rfl,rfl⟩⟩
  | full hv hfull =>
    exact ⟨_,rfl,appended_of_full hv (hr.le_bound hv) (hs hv).1 hfull,fun _ => ⟨rfl,rfl⟩⟩
  | put hv hfull hn =>
    have hcells := ((hr.managed hm).2.resolve_left (by omega)).2
    exact ⟨_,rfl,appended_of_put hv (hr.le_bound hv) (hs hv).1 hfull hv rfl
      (content_put (hcells ▸ hn) (by have := (hs hv).1; omega)),fun h => absurd rfl h⟩
  | unmanaged _ _ _ hm' => simp [hm] at hm'
  | wrapped hv hfull hn _ hcap =>
    exact absurd hcap (Nat.not_le_of_lt (Fields.lt_newCap 4 (by omega) hfull hn (hs hv).2))
  | refused hv hfull _ _ _ hok =>
    exact ⟨_,rfl,appended_of_refused hv (hr.le_bound hv) (hs hv).1 hfull hok,fun _ => ⟨rfl,rfl⟩⟩
  | grown hv hfull hn _ hcap hok =>
    refine ⟨_,rfl,appended_of_put hv (hr.le_bound hv) (hs hv).1 hfull hv rfl ?_,
      fun h => absurd rfl h⟩
    have hlt : f.length_ < f.newCap 4 := lt_of_le_of_lt (hr.managed hm).1 hcap
    have hput := content_put (f:=(grow h k f (f.newCap 4)).2) (x:=x)
      (hlt.trans_eq (length_grow ha).symm) (by
        have := (hs hv).1
        show f.length_+1 < _
        omega)
    rw [hput,content_grow ha hlt.le,
      hx hv ⟨hm,hfull,hn⟩ hok _ (confined_grow reaches_next within_reaches)]

theorem Constructs.abs_eq {make : Constructor} (ho : Constructs h k make ok o)
    (ha : admissible lends h.memory make = true) : o.abs = made h.memory make ok := by
  cases ho with
  | default | bounded => exact Fields.abs_of_empty rfl rfl
  | emptyArray =>
    rw [made,if_pos (by simp)]
    exact Fields.abs_of_empty rfl rfl
  | nullArray | nullBuffer => rfl
  | refused hl =>
    have hl : _ ≠ 0 := Nat.ne_of_gt hl
    simp [made,hl,Outcome.abs,Fields.abs,Fields.initial]
  | @filled b length =>
    obtain ⟨o,howner,-⟩ := owner?_of_usable (admissible_usable ha rfl)
    have hcontent : (fill h k (.initial length) (view (some b) length)).2.content
        (fill h k (.initial length) (view (some b) length)).1.memory =
          (view (some b) length).content h.memory := content_fill (ne_next howner).symm
    rw [Outcome.abs,Fields.abs_of_valid rfl,hcontent]
    exact BoundedList.ofList?_eq_some.mpr ⟨rfl,length_reads _ _ _⟩
  | unmanaged => rfl

theorem Assigns.abs_copied (ho : Assigns h k f seq ok o) (hm : f.managed_ = true)
    (ha : Placed seq h.memory) (hfree : seq.abs (h.memory.free f.buf_) = seq.abs h.memory) :
    Copied (ok = false) (seq.abs h.memory) o.abs := by
  cases ho with
  | unmanaged hm' => simp [hm] at hm'
  | managed _ ho =>
    have hc : Confined (Reaches h.memory f.buf_) h.memory (h.delete k f.buf_).memory := by
      rw [Heap.memory_delete]
      exact .free within_reaches
    rw [← hfree,← Heap.memory_delete h k]
    exact ho.abs_copied rfl rfl (ha.of_keeps hc.keeps)

end

/-! ## Sequences over the same buffer -/

/-- When `reserve` of a valid managed object releases its buffer. -/
def reserves (f : Fields) (n : ℕ) : Prop :=
  f.valid_ = true ∧ f.managed_ = true ∧ f.capacity_ < n ∧ ¬Exceeds f n

/-- A step of a program over sequences that changes the elements of another sequence. -/
def DisturbsSequence (w : World α) (a : Act α Constructor) : Prop :=
  Disturbs lending reserves False w a

section
variable {w : World α} {j k : ℕ} {f g : Fields} {a : Act α Constructor} {o : Outcome α}

/-- What is put behind the end of another sequence. -/
theorem content_of_put {h : Heap α} {x : Elem α} (hl : g.length_ ≤ f.length_) :
    g.content (put h f x).heap.memory = g.content h.memory := reads_write hl _

theorem Appends.keeps {h : Heap α} {x : Elem α} {ok : Bool} (ho : Appends h k f x ok o)
    (hm : h.memory = w.heap.memory) (hv : Views w k f j g) (hn : ¬DisturbsSequence w a)
    (hs : f.valid_ = true → f.capacity_ < 2^31) (ha : AppendsTo w k a) (hok : a.ok = ok)
    (hl : 0 < g.length_) : g.content o.heap.memory = g.content w.heap.memory := by
  rw [← hm]
  cases ho with
  | invalid | full | unmanaged | refused => rfl
  | put hfv hb hroom =>
    refine content_of_put (Nat.le_of_not_lt fun hlen => ?_)
    exact hn (.appends hv ha hfv hb hroom hlen)
  | wrapped hfv hb hcap _ hwrap =>
    exact absurd hwrap (Nat.not_le_of_lt (Fields.lt_newCap 4 (by omega) hb hcap (hs hfv)))
  | grown hfv hb hcap hm' _ hok' =>
    exact absurd (.releases hv hl (.grows ha hfv ⟨hm',hb,hcap⟩ (hok.trans hok'))) hn

theorem Done.keeps (ho : Done w k f a o) (hv : Views w k f j g) (hn : ¬DisturbsSequence w a)
    (hs : f.valid_ = true → f.capacity_ < 2^31) :
    g.content o.heap.memory = g.content w.heap.memory := by
  by_cases hl : 0 < g.length_
  · cases ho with
    | assign _ hne => exact absurd (.releases hv hl (.assign hne)) hn
    | reserve _ ho =>
      cases ho with
      | precondition | enough | bound | refused => rfl
      | grown hfv hm hcap hb hok =>
        subst hok
        exact absurd (.releases hv hl (.reserve ⟨hfv,hm,hcap,hb⟩)) hn
    | clear => rfl
    | append _ ho => exact ho.keeps rfl hv hn hs .append rfl hl
    | next hc hg hi ho => exact ho.keeps rfl hv hn hs (.next hc hg hi) rfl hl
  · rw [Fields.content,Fields.content,Nat.eq_zero_of_not_pos hl]
    rfl

end

/-! ## The runs -/

/-- The invariant of the programs. -/
structure Tidy (w : World α) : Prop where
  sound : w.Sound lending
  rep : ∀ k f, w.live? k = some f → Rep k f w.heap.memory
  small : Small w

omit [Inhabited α] in
theorem not_slip {w : World α} {a : Act α Constructor} (ha : Admitted admits w a) (hw : Small w) :
    ¬(Slip w a ∨ KeepsPointer w a) := by
  rintro (hs | ⟨k,j,ok,f,g,rfl,-,hf,-,hm,-⟩)
  · cases hs with
    | unmanaged hlt => exact absurd ha.2 (Nat.not_le_of_lt hlt)
    | append hf hwr | next _ hf _ _ hwr =>
      exact absurd (hw.of_valid hf hwr.1).2 (Nat.not_lt_of_le hwr.2.2.2.2)
  · have hm' : f.managed_ = true := ha.1 k rfl f hf
    simp [hm] at hm'

theorem tidy {e : Execution (step (lending (α:=α))) World.init} (he : InScope admits e) :
    ∀ w ∈ e.visited, Tidy w := by
  intro w hw
  obtain ⟨steps,hbefore,hr⟩ := e.run.prefix_of_visited hw
  have hn : ∀ p ∈ steps, ¬(Slip p.1 p.2 ∨ KeepsPointer p.1 p.2) := fun p hp =>
    not_slip (he.steps p (hbefore.subset hp))
      (he.small _ (e.source_mem_visited (hbefore.subset hp)))
  have hconf : Confines (lending (α:=α)) fun w a => Slip w a ∨ KeepsPointer w a :=
    confines_given fun _ _ _ => .inr
  have hrep := (rep_preserved.mono fun _ _ => .inl).run hconf hr hn
  exact ⟨run_sound hconf hr hn,fun k f hf => hrep.2 k f hf,he.small w hw⟩

theorem implements : Implements (lending (α:=α)) made admits reserves False Tidy where
  invariant he := tidy he
  sound hw := hw.sound
  sizes hw hf hv := (hw.rep _ _ hf).valid hv
  makes hm := (makes_cases hm).confined reaches_next
  does hd := (does_cases hd).confined reaches_next within_reaches
  keeps hw hv hn hd := (does_cases hd).keeps hv hn fun hfv => (hw.small.of_valid hv.target hfv).2
  construct _ hadm _ := (construct_cases _ _ _ _).abs_eq hadm
  copy hw hg := (copyFrom_cases _ _ _ _ _).abs_copied rfl rfl (hw.sound.placed hg)
  assign hw hf hm hg hfree := (assign_cases _ _ _ _ _).abs_copied hm (hw.sound.placed hg) hfree
  reserve hw hf _ _ := (reserve_cases _ _ _ _ _).abs_eq (hw.rep _ _ hf) (hw.sound.placed hf)
  clear hw hf _ := Fields.abs_clear rfl rfl rfl (hw.rep _ _ hf).le_bound
  append _ hw hf hm hmem hx := by
    rw [← hmem]
    refine (append_cases _ _ _ _ _).appended ?_ ?_ hm (hw.small.of_valid hf) ?_
    · exact hmem ▸ hw.rep _ _ hf
    · exact hmem ▸ hw.sound.placed hf
    · exact hmem ▸ hx
  index := .inr rfl

/-- What `reserve(n)` returns for a valid managed object. -/
structure Reserved (f : Fields) (n : ℕ) (ok : Bool) (o : Fields) (r : ReturnCode) : Prop where
  enough : r = .noError → n ≤ o.capacity
  bound : r = .insufficientBound ↔ f.capacity < n ∧ f.isBounded = true ∧ f.bound < n
  memory : r = .insufficientMemory → ok = false

omit [Inhabited α] in
theorem isBounded_iff {f : Fields} (hv : f.valid_ = true) :
    f.isBounded = true ↔ f.bound_ ≠ unboundedSentinel := by simp [Fields.isBounded,hv]

theorem Reserves.reserved {h : Heap α} {k n : ℕ} {f : Fields} {ok : Bool} {o : Outcome α}
    (ho : Reserves h k f n ok o) (hv : f.valid_ = true) (hm : f.managed_ = true) :
    ∃ r, o.returned = some r ∧ Reserved f n ok o.fields r := by
  have hcap : f.capacity = f.capacity_ := if_pos hv
  have hbound : f.bound = f.bound_ := if_pos hv
  have hexceeds : f.isBounded = true ∧ f.bound < n ↔ Exceeds f n := by
    rw [isBounded_iff hv,hbound,Exceeds]
  cases ho with
  | precondition hp => simp [hv,hm] at hp
  | enough _ _ hn =>
    refine ⟨_,rfl,fun _ => hn.trans_eq hcap.symm,?_,by simp⟩
    simp [hcap,Nat.not_lt_of_le hn]
  | bound _ _ hn hb =>
    exact ⟨_,rfl,by simp,iff_of_true rfl ⟨hcap.trans_lt hn,hexceeds.mpr hb⟩,by simp⟩
  | refused _ _ _ hb hok =>
    exact ⟨_,rfl,by simp,iff_of_false (by simp) fun h => hb (hexceeds.mp h.2),fun _ => hok⟩
  | grown _ _ _ hb =>
    refine ⟨_,rfl,fun _ => ?_,iff_of_false (by simp) fun h => hb (hexceeds.mp h.2),by simp⟩
    exact le_of_eq (if_pos hv).symm

/-- Every `reserve` of a valid object in a run returns what it should. -/
def ReservesEnough (e : Execution (step (lending (α:=α))) World.init) : Prop :=
  ∀ w k n ok w' f, (w,Act.reserve k n ok) ∈ e.steps →
    step lending w (.reserve k n ok) = some w' → w.live? k = some f → f.isValid = true →
    ∃ g r, w'.live? k = some g ∧ w'.returned = some r ∧ Reserved f n ok g r

theorem reservesEnough {e : Execution (step (lending (α:=α))) World.init}
    (he : InScope admits e) : ReservesEnough e := by
  intro w k n ok w' f hp h hf hv
  have hm : f.managed_ = true := (he.steps _ hp).1 k rfl f hf
  cases step_cases h with
  | makes _ hmakes => cases hmakes
  | does _ hf' hd =>
    cases does_cases hd with
    | reserve _ ho =>
      obtain rfl := Option.some.inj (hf.symm.trans hf')
      obtain ⟨r,hr,hres⟩ := ho.reserved hv hm
      exact ⟨_,r,live?_put_self _ hf,hr,hres⟩

/-- Two sequences are appended, one of them is copied, and one over the buffer of another is
assigned. -/
def appendedSequences : Execution (step (lending (α:=ℕ))) World.init :=
  .ofLabels [.caller [1,2,3],.construct (.cArray (some 0) 2) true,
    .construct (.bounded 3) true,.append 1 (.value 7) true,.appendAll 1 0,.next true,.next true,
    .next true,.append 1 (.element 0 1) true,.copy 1 false,
    .construct (.unmanaged (some 1) 1 2) true,
    .assign 2 3 true,.reserve 2 3 true,.clear 1,.destroy 3] (by decide)

/-- A sequence is assigned one over its own buffer. -/
def sequenceView : Execution (step (lending (α:=ℕ))) World.init :=
  .ofLabels [.construct .default true,.append 0 (.value 7) true,
    .construct (.unmanaged (some 0) 1 1) true,.assign 0 1 true] (by decide)

end Blush.Storage.Sequence
