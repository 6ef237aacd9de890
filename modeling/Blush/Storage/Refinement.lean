import Mathlib.Logic.Function.Basic
import Blush.Lib.BoundedList
import Blush.Storage.Step

/-! Programs over managed objects, seen as programs over bounded lists. The abstract state gives
each valid object its list; a step updates it at one object at most. -/
namespace Blush.Storage
open Memory Transition World
variable {α κ : Type} [Inhabited α]

/-! ## The lists of the objects -/

namespace Fields

def content (f : Fields) (m : Memory (Option ℕ) α) : List α := m.reads f.buf_ f.length_

/-- What a valid object stands for. -/
def abs (f : Fields) (m : Memory (Option ℕ) α) : Option (BoundedList α) :=
  if f.valid_ then BoundedList.ofList? f.bound_ (f.content m) else none

variable {f g : Fields} {m m' : Memory (Option ℕ) α} {b : BoundedList α}

theorem abs_of_valid (hv : f.valid_ = true) :
    f.abs m = BoundedList.ofList? f.bound_ (f.content m) := if_pos hv

theorem abs_of_invalid (hv : f.valid_ = false) : f.abs m = none := if_neg (by simp [hv])

theorem abs_eq_some : f.abs m = some b ↔
    f.valid_ = true ∧ b.list = f.content m ∧ b.bound = f.bound_ := by
  rw [abs,Option.ite_none_right_eq_some,BoundedList.ofList?_eq_some]

/-- A valid object whose length is in order stands for a list. -/
theorem exists_abs (hv : f.valid_ = true) (hle : f.length_ ≤ f.bound_) :
    ∃ b, f.abs m = some b := by
  rw [abs_of_valid hv]
  refine Option.ne_none_iff_exists'.mp fun hn => ?_
  rw [BoundedList.ofList?_eq_none,content,length_reads] at hn
  exact absurd hle (Nat.not_le_of_lt hn)

theorem abs_congr (hv : g.valid_ = f.valid_) (hb : g.bound_ = f.bound_)
    (hc : g.content m' = f.content m) : g.abs m' = f.abs m := by rw [abs,abs,hv,hb,hc]

theorem abs_of_cells (h : m'.cells f.buf_ = m.cells f.buf_) : f.abs m' = f.abs m :=
  abs_congr rfl rfl (reads_of_cells h _)

/-- A valid object without elements. -/
theorem abs_of_empty (hv : f.valid_ = true) (hl : f.length_ = 0) :
    f.abs m = some (.empty f.bound_) := by
  rw [abs_of_valid hv,content,hl]
  exact BoundedList.ofList?_nil _

theorem abs_clear (hg : g.valid_ = f.valid_) (hb : g.bound_ = f.bound_) (hl : g.length_ = 0)
    (hle : f.valid_ = true → f.length_ ≤ f.bound_) :
    g.abs m' = (f.abs m).map BoundedList.clear := by
  cases hv : f.valid_ with
  | false => rw [abs_of_invalid (hg.trans hv),abs_of_invalid hv,Option.map_none]
  | true =>
    obtain ⟨b,hf⟩ := exists_abs (m:=m) hv (hle hv)
    obtain ⟨-,-,hbound⟩ := abs_eq_some.mp hf
    rw [abs_of_empty (hg.trans hv) hl,hf,Option.map_some,BoundedList.clear,hbound,hb]

end Fields

/-- The lists of all valid objects. -/
def World.abs (w : World α) (k : ℕ) : Option (BoundedList α) :=
  (w.live? k).bind fun f => f.abs w.heap.memory

theorem World.abs_of_live {w : World α} {k : ℕ} {f : Fields} (h : w.live? k = some f) :
    w.abs k = f.abs w.heap.memory := by
  rw [World.abs,h]
  rfl

/-- The object that an operation leaves. -/
def Outcome.abs (o : Outcome α) : Option (BoundedList α) := o.fields.abs o.heap.memory

/-! ## What the operations do to them -/

/-- A copy of a list, or nothing when the copy failed. -/
def Copied (failed : Prop) (source copy : Option (BoundedList α)) : Prop :=
  copy = source ∨ failed ∧ copy = none

/-- `append(elem)` with its return code. -/
inductive Appended (v : α) (ok : Bool) :
    Option (BoundedList α) → ReturnCode → Option (BoundedList α) → Prop
  | invalid : Appended v ok none .preconditionViolated none
  | appended {b b'} (h : b.append v = some b') : Appended v ok (some b) .noError (some b')
  | bound {b} (h : b.append v = none) : Appended v ok (some b) .insufficientBound (some b)
  | memory {b} (h : b.append v ≠ none) (hok : ok = false) :
      Appended v ok (some b) .insufficientMemory (some b)

omit [Inhabited α] in
theorem Appended.of_noError {v : α} {ok : Bool} {b : BoundedList α}
    {b' : Option (BoundedList α)} (h : Appended v ok (some b) .noError b') :
    ∃ b'', b.append v = some b'' ∧ b' = some b'' := by
  cases h with
  | appended h => exact ⟨_,h,rfl⟩

section
variable {v : α} {ok : Bool} {f : Fields} {m : Memory (Option ℕ) α}

theorem appended_of_invalid (hv : f.valid_ = false) :
    Appended v ok (f.abs m) .preconditionViolated (f.abs m) := by
  rw [Fields.abs_of_invalid hv]
  exact .invalid

/-- The list of a valid object is full when the object is, as long as lengths are small. -/
theorem append_eq_none_iff {b : BoundedList α} (hb : f.abs m = some b) (hl : f.length_ < 2^31) :
    b.append v = none ↔ f.Full := by
  obtain ⟨-,hlist,hbound⟩ := Fields.abs_eq_some.mp hb
  have hlen : b.list.length = f.length_ := by rw [hlist,Fields.content,length_reads]
  have hle := b.length_le
  rw [BoundedList.append_eq_none,Fields.Full,unboundedSentinel]
  omega

theorem appended_of_full (hv : f.valid_ = true) (hle : f.length_ ≤ f.bound_)
    (hl : f.length_ < 2^31) (hb : f.Full) :
    Appended v ok (f.abs m) .insufficientBound (f.abs m) := by
  obtain ⟨b,hf⟩ := Fields.exists_abs (m:=m) hv hle
  rw [hf]
  exact .bound ((append_eq_none_iff hf hl).mpr hb)

theorem appended_of_refused (hv : f.valid_ = true) (hle : f.length_ ≤ f.bound_)
    (hl : f.length_ < 2^31) (hb : ¬f.Full) (hok : ok = false) :
    Appended v ok (f.abs m) .insufficientMemory (f.abs m) := by
  obtain ⟨b,hf⟩ := Fields.exists_abs (m:=m) hv hle
  rw [hf]
  exact .memory (fun hn => hb ((append_eq_none_iff hf hl).mp hn)) hok

theorem appended_of_put {o : Outcome α} (hv : f.valid_ = true) (hle : f.length_ ≤ f.bound_)
    (hl : f.length_ < 2^31) (hb : ¬f.Full) (hov : o.fields.valid_ = true)
    (hbound : o.fields.bound_ = f.bound_)
    (hc : o.fields.content o.heap.memory = f.content m ++ [v]) :
    Appended v ok (f.abs m) .noError o.abs := by
  obtain ⟨b,hf⟩ := Fields.exists_abs (m:=m) hv hle
  obtain ⟨-,hlist,hbound'⟩ := Fields.abs_eq_some.mp hf
  obtain ⟨b',hb'⟩ := Option.ne_none_iff_exists'.mp fun hn =>
    hb ((append_eq_none_iff (v:=v) hf hl).mp hn)
  have ho : o.abs = some b' := by
    rw [Outcome.abs,Fields.abs_of_valid hov,hc,hbound,← hlist,← hbound']
    exact hb'
  rw [hf,ho]
  exact .appended hb'

end

/-- What a step does; `made` tells what a constructor makes. -/
def Refined (c : Class α κ)
    (made : Memory (Option ℕ) α → κ → Bool → Option (BoundedList α)) (w : World α) (a : Act α κ)
    (w' : World α) : Prop :=
  match a with
  | .caller _ | .reserve _ _ _ | .appendAll _ _ => w'.abs = w.abs
  | .construct make ok =>
    w'.abs = Function.update w.abs w.objects.length (made w.heap.memory make ok)
  | .copy j ok =>
    ∃ b, w'.abs = Function.update w.abs w.objects.length b ∧ Copied (ok = false) (w.abs j) b
  | .assign k j ok =>
    ∃ b, w'.abs = Function.update w.abs k b ∧ Copied (ok = false ∧ k ≠ j) (w.abs j) b
  | .destroy k => w'.abs = Function.update w.abs k none
  | .clear k => w'.abs = Function.update w.abs k ((w.abs k).map BoundedList.clear)
  | .append k e ok =>
    ∃ x r b, w.resolve c e = some x ∧ w'.returned = some r ∧ w'.abs = Function.update w.abs k b ∧
      Appended (x.get w.heap.memory) ok (w.abs k) r b ∧
      (r ≠ .noError → w'.objects = w.objects ∧ w'.heap.memory = w.heap.memory)
  | .next _ => ∃ call b, w.call = some call ∧ w'.abs = Function.update w.abs call.target b

/-- What an assignment with memory for its copy gives. -/
theorem Refined.assigned {c : Class α κ}
    {made : Memory (Option ℕ) α → κ → Bool → Option (BoundedList α)} {w w' : World α} {k j : ℕ}
    (h : Refined c made w (.assign k j true) w') : w'.abs k = w.abs j := by
  obtain ⟨b,habs,rfl | ⟨⟨hok,-⟩,-⟩⟩ := h
  · rw [habs,Function.update_self]
  · simp at hok

/-- `append(src)`, from its call to its return with no error. -/
def AppendsAll {c : Class α κ} (e : Execution (step c) World.init) : Prop :=
  ∀ before (w : World α) (k j : ℕ) running b s, e.steps = before ++ (w,.appendAll k j)::running →
    (∀ p ∈ running, p.1.call.isSome) → e.final.call = none →
    e.final.returned = some .noError → w.abs k = some b → w.abs j = some s →
    ∃ b', b.appendAll s.list = some b' ∧ e.final.abs = Function.update w.abs k (some b')

/-- The steps of a run, its calls of `append(src)`, and the sizes of the objects. -/
structure Refines (c : Class α κ)
    (made : Memory (Option ℕ) α → κ → Bool → Option (BoundedList α))
    (e : Execution (step c) World.init) : Prop where
  steps : ∀ p ∈ e.steps, ∀ w', step c p.1 p.2 = some w' → Refined c made p.1 p.2 w'
  appendsAll : AppendsAll e
  sizes : ∀ w ∈ e.visited, ∀ k f, w.live? k = some f → f.isValid = true →
    f.length ≤ f.capacity ∧ f.capacity ≤ f.bound ∧
      ∃ b, w.abs k = some b ∧ b.list.length = f.length ∧ b.bound = f.bound

/-! ## The programs -/

/-- The object that a step works on. -/
def World.target? (w : World α) : Act α κ → Option ℕ
  | .assign k _ _ | .reserve k _ _ | .clear k | .append k _ _ | .appendAll k _ => some k
  | .next _ => w.call.map Call.target
  | _ => none

/-- Operations are used on managed objects, `append(src)` with another object, and an element of
the object itself is not appended when the object has to grow; `admits` is what constructors may be
called with. -/
def Admitted (admits : Memory (Option ℕ) α → κ → Prop) (w : World α) (a : Act α κ) : Prop :=
  (∀ k ∈ w.target? a, ∀ f ∈ w.live? k, f.managed_ = true) ∧
  match a with
  | .construct make _ => admits w.heap.memory make
  | .reserve _ n _ => n < 2^31
  | .append k (.element j _) _ => k = j → ∀ f ∈ w.live? k, f.length_ < f.capacity_
  | .appendAll k j => k ≠ j
  | .next _ => ∀ call ∈ w.call, call.target ≠ call.source
  | _ => True

instance {admits : Memory (Option ℕ) α → κ → Prop} [∀ m make, Decidable (admits m make)]
    (w : World α) (a : Act α κ) : Decidable (Admitted admits w a) :=
  @instDecidableAnd _ _ (inferInstance) <|
    match a with
    | .construct make _ => inferInstanceAs (Decidable (admits w.heap.memory make))
    | .reserve _ n _ => inferInstanceAs (Decidable (n < 2^31))
    | .append k (.element j _) _ =>
      inferInstanceAs (Decidable (k = j → ∀ f ∈ w.live? k, f.length_ < f.capacity_))
    | .appendAll k j => inferInstanceAs (Decidable (k ≠ j))
    | .next _ => inferInstanceAs (Decidable (∀ call ∈ w.call, call.target ≠ call.source))
    | .append _ (.value _) _ | .caller _ | .copy _ _ | .assign _ _ _ | .destroy _ | .clear _ =>
      inferInstanceAs (Decidable True)

/-- The lengths and capacities are below `2^31`. -/
def Small (w : World α) : Prop :=
  ∀ x ∈ w.objects, ∀ f ∈ x, f.length < 2^31 ∧ f.capacity < 2^31

instance (w : World α) : Decidable (Small w) :=
  inferInstanceAs (Decidable (∀ x ∈ w.objects, ∀ f ∈ x, f.length < 2^31 ∧ f.capacity < 2^31))

omit [Inhabited α] in
theorem Small.of_valid {w : World α} {k : ℕ} {f : Fields} (hs : Small w)
    (hf : w.live? k = some f) (hv : f.valid_ = true) : f.length_ < 2^31 ∧ f.capacity_ < 2^31 := by
  have h := hs (some f) (List.mem_of_getElem? (live?_eq_some.mp hf)) f rfl
  simpa only [Fields.length,Fields.capacity,hv,if_true] using h

/-- The runs of such programs. -/
structure InScope {c : Class α κ} (admits : Memory (Option ℕ) α → κ → Prop)
    (e : Execution (step c) World.init) : Prop where
  steps : ∀ p ∈ e.steps, Admitted admits p.1 p.2
  small : ∀ w ∈ e.visited, Small w

/-! ## Objects over the same buffer -/

/-- Another valid object over the buffer of a managed one. -/
structure Views (w : World α) (k : ℕ) (f : Fields) (j : ℕ) (g : Fields) : Prop where
  target : w.live? k = some f
  managed : f.managed_ = true
  buffer : f.buf_ ≠ none
  view : w.live? j = some g
  other : j ≠ k
  valid : g.valid_ = true
  same : g.buf_ = f.buf_

/-- A step appends an element to the object number `k`. -/
inductive AppendsTo (w : World α) (k : ℕ) : Act α κ → Prop
  | append {e ok} : AppendsTo w k (.append k e ok)
  | next {j i g ok} (hc : w.call = some ⟨k,j,i⟩) (hg : w.live? j = some g) (hi : i < g.length_) :
      AppendsTo w k (.next ok)

/-- A step releases the buffer of the object number `k`, which manages it; `reserves` tells when
`reserve` does. -/
inductive Releases (reserves : Fields → ℕ → Prop) (w : World α) (k : ℕ) (f : Fields) :
    Act α κ → Prop
  | assign {j ok} (hne : k ≠ j) : Releases reserves w k f (.assign k j ok)
  | destroy : Releases reserves w k f (.destroy k)
  | reserve {n} (hr : reserves f n) : Releases reserves w k f (.reserve k n true)
  | grows {a} (ha : AppendsTo w k a) (hv : f.valid_ = true) (hg : f.MustGrow)
      (hok : a.ok = true) : Releases reserves w k f a

/-- The element that a step appends to the object number `k` is read in the buffer of the object
number `j`. -/
inductive ReadsFrom (c : Class α κ) (w : World α) (k j : ℕ) (g : Fields) : Act α κ → Prop
  | append {i ok} (hx : c.index g i = .cell g.buf_ i) :
      ReadsFrom c w k j g (.append k (.element j i) ok)
  | next {i ok} (hc : w.call = some ⟨k,j,i⟩) (hi : i < g.length_) : ReadsFrom c w k j g (.next ok)

/-- A step changes elements of a managed object's buffer that another valid object shows: it
releases the buffer, or appends in front of the end of the other object, or clears, where that
writes; or an object grows for an element that it reads through another one in its own buffer. -/
inductive Disturbs (c : Class α κ) (reserves : Fields → ℕ → Prop) (writes : Prop) (w : World α) :
    Act α κ → Prop
  | releases {k f j g a} (hv : Views w k f j g) (hl : 0 < g.length_)
      (hr : Releases reserves w k f a) : Disturbs c reserves writes w a
  | appends {k f j g a} (hv : Views w k f j g) (ha : AppendsTo w k a) (hf : f.valid_ = true)
      (hb : ¬f.Full) (hn : f.length_ < f.capacity_) (hl : f.length_ < g.length_) :
      Disturbs c reserves writes w a
  | clears {k f j g} (hw : writes) (hv : Views w k f j g) (hl : 0 < g.length_) :
      Disturbs c reserves writes w (.clear k)
  | reads {k f j g a} (hf : w.live? k = some f) (hj : j ≠ k) (hg : w.live? j = some g)
      (hs : g.buf_ = f.buf_) (hb : f.buf_ ≠ none) (hr : ReadsFrom c w k j g a)
      (hv : f.valid_ = true) (hm : f.MustGrow) (hok : a.ok = true) : Disturbs c reserves writes w a

/-- The object that a step works on, or destroys. -/
def World.subject? (w : World α) : Act α κ → Option ℕ
  | .destroy k => some k
  | a => w.target? a

/-- No other object is over the buffer that it manages. -/
def Alone (w : World α) (a : Act α κ) : Prop :=
  ∀ k ∈ w.subject? a, ∀ f ∈ w.live? k, ∀ j < w.objects.length, ∀ g ∈ w.live? j,
    f.managed_ = true ∧ j ≠ k ∧ g.buf_ = f.buf_ → f.buf_ = none

instance (w : World α) (a : Act α κ) : Decidable (Alone w a) :=
  inferInstanceAs (Decidable (∀ k ∈ w.subject? a, ∀ f ∈ w.live? k, ∀ j < w.objects.length,
    ∀ g ∈ w.live? j, f.managed_ = true ∧ j ≠ k ∧ g.buf_ = f.buf_ → f.buf_ = none))

section
variable {c : Class α κ} {reserves : Fields → ℕ → Prop} {writes : Prop} {w : World α} {k : ℕ}
  {f : Fields} {a : Act α κ}

omit [Inhabited α] in
theorem AppendsTo.subject (h : AppendsTo w k a) : w.subject? a = some k := by
  cases h with
  | append => rfl
  | next hc => simp [subject?,target?,hc]

omit [Inhabited α] in
theorem Releases.subject (h : Releases reserves w k f a) : w.subject? a = some k := by
  cases h with
  | assign | destroy | reserve => rfl
  | grows ha => exact ha.subject

omit [Inhabited α] in
theorem ReadsFrom.subject {j : ℕ} {g : Fields} (h : ReadsFrom c w k j g a) :
    w.subject? a = some k := by
  cases h with
  | append => rfl
  | next hc => simp [subject?,target?,hc]

omit [Inhabited α] in
/-- A step on an object that shares its buffer with no other one disturbs nothing. -/
theorem Alone.not_disturbs (h : Alone w a) : ¬Disturbs c reserves writes w a := by
  have hviews {k j : ℕ} {f g : Fields} (hv : Views w k f j g) (ha : w.subject? a = some k) :
      False := hv.buffer (h k ha f hv.target j (lt_of_live hv.view) g hv.view
    ⟨hv.managed,hv.other,hv.same⟩)
  intro hd
  cases hd with
  | releases hv _ hr => exact hviews hv hr.subject
  | appends hv ha => exact hviews hv ha.subject
  | clears _ hv => exact hviews hv rfl
  | reads hf hj hg hs hb hr _ hm =>
    exact hb (h _ hr.subject _ hf _ (lt_of_live hg) _ hg ⟨hm.1,hj,hs⟩)

end

/-! ## Other objects -/

section
variable {c : Class α κ} {w w' : World α} {k : ℕ} {f g : Fields} {o : Outcome α}
  {m' : Memory (Option ℕ) α}

theorem Fields.abs_of_placed (hg : Placed g w.heap.memory) {p : Option ℕ}
    (hc : Confined (Reaches w.heap.memory p) w.heap.memory m') (hne : g.buf_ = p → p = none) :
    g.abs m' = g.abs w.heap.memory := Fields.abs_of_cells (hg.cells_eq hc hne)

/-- A step that changes one object. -/
theorem World.abs_update (hl : ∀ j, j ≠ k → w'.live? j = w.live? j)
    (hc : ∀ j g, j ≠ k → w.live? j = some g → g.abs w'.heap.memory = g.abs w.heap.memory) :
    w'.abs = Function.update w.abs k (w'.abs k) := by
  refine Function.eq_update_iff.mpr ⟨rfl,fun j hj => ?_⟩
  rw [World.abs,World.abs,hl j hj]
  cases hg : w.live? j with
  | none => rfl
  | some g => exact hc j g hj hg

theorem World.Sound.abs_push (hs : w.Sound c)
    (hc : Confined (Reaches w.heap.memory none) w.heap.memory o.heap.memory) :
    (w.push o).abs = Function.update w.abs w.objects.length o.abs := by
  have hnew : (w.push o).abs w.objects.length = o.abs := abs_of_live (live?_push_self o)
  rw [← hnew]
  exact World.abs_update (fun j hj => live?_push_of_ne o hj) fun j g _ hg =>
    Fields.abs_of_placed (hs.placed hg) hc fun _ => rfl

theorem World.abs_put (hf : w.live? k = some f)
    (hc : ∀ j g, j ≠ k → w.live? j = some g → g.abs o.heap.memory = g.abs w.heap.memory) :
    (w.put k o).abs = Function.update w.abs k o.abs := by
  have hnew : (w.put k o).abs k = o.abs := abs_of_live (live?_put_self o hf)
  rw [← hnew]
  exact World.abs_update (fun j hj => live?_put_of_ne o hj) hc

theorem World.abs_destroy (hf : w.live? k = some f)
    (hc : ∀ j g, j ≠ k → w.live? j = some g →
      g.abs (w.destroy k f).heap.memory = g.abs w.heap.memory) :
    (w.destroy k f).abs = Function.update w.abs k none := by
  have hnew : (w.destroy k f).abs k = none := by
    rw [World.abs,live?_destroy_self hf]
    rfl
  rw [← hnew]
  exact World.abs_update (fun j hj => live?_destroy_of_ne hj) hc

/-- New memory of the caller is in no buffer. -/
theorem World.Sound.abs_caller (hs : w.Sound c) (cells : List α) :
    ({ w with heap := { w.heap with memory := w.heap.memory.add none cells } } : World α).abs =
      w.abs := by
  funext j
  rw [World.abs,World.abs]
  show (w.live? j).bind _ = _
  cases hg : w.live? j with
  | none => rfl
  | some g =>
    have hc : Confined (Reaches w.heap.memory none) w.heap.memory
      (w.heap.memory.add none cells) := .add reaches_next cells
    exact Fields.abs_of_placed (hs.placed hg) hc fun _ => rfl

end

/-! ## The rule -/

/-- What has to be shown of a class for its programs to refine bounded lists, where the states of
the programs have an invariant. -/
structure Implements (c : Class α κ)
    (made : Memory (Option ℕ) α → κ → Bool → Option (BoundedList α))
    (admits : Memory (Option ℕ) α → κ → Prop) (reserves : Fields → ℕ → Prop) (writes : Prop)
    (inv : World α → Prop) : Prop where
  invariant {e : Execution (step c) World.init} : InScope admits e → ∀ w ∈ e.visited, inv w
  sound {w} : inv w → w.Sound c
  sizes {w k f} : inv w → w.live? k = some f → f.valid_ = true →
    f.length_ ≤ f.capacity_ ∧ f.capacity_ ≤ f.bound_
  makes {w a o} : Makes c w a o →
    Confined (Reaches w.heap.memory none) w.heap.memory o.heap.memory
  does {w k f a o} : Does c w k f a o →
    Confined (Reaches w.heap.memory f.buf_) w.heap.memory o.heap.memory
  keeps {w k f j g a o} : inv w → Views w k f j g → ¬Disturbs c reserves writes w a →
    Does c w k f a o → g.content o.heap.memory = g.content w.heap.memory
  construct {w make ok} : inv w → c.admissible w.heap.memory make = true →
    admits w.heap.memory make →
    (c.construct w.heap w.objects.length make ok).abs = made w.heap.memory make ok
  copy {w j g ok} : inv w → w.live? j = some g →
    Copied (ok = false) (g.abs w.heap.memory) (c.copy w.heap w.objects.length g ok).abs
  assign {w k j f g ok} : inv w → w.live? k = some f → f.managed_ = true →
    w.live? j = some g → g.abs (w.heap.memory.free f.buf_) = g.abs w.heap.memory →
    Copied (ok = false) (g.abs w.heap.memory) (c.assign w.heap k f g ok).abs
  reserve {w k f n ok} : inv w → w.live? k = some f → f.managed_ = true → n < 2^31 →
    (c.reserve w.heap k f n ok).abs = f.abs w.heap.memory
  clear {w k f} : inv w → w.live? k = some f → f.managed_ = true →
    (c.clear w.heap f).abs = (f.abs w.heap.memory).map BoundedList.clear
  append {w k f h x} ok : inv w → w.live? k = some f → f.managed_ = true →
    h.memory = w.heap.memory → (f.valid_ = true → f.MustGrow → ok = true →
      ∀ m', Confined (Reaches w.heap.memory f.buf_) w.heap.memory m' →
        x.get m' = x.get w.heap.memory) →
    ∃ r, (c.append h k f x ok).returned = some r ∧
      Appended (x.get w.heap.memory) ok (f.abs w.heap.memory) r (c.append h k f x ok).abs ∧
      (r ≠ .noError → (c.append h k f x ok).fields = f ∧
        (c.append h k f x ok).heap.memory = w.heap.memory)
  index {g i} : (∃ v, c.index g i = .value v) ∨ c.index g i = .cell g.buf_ i

/-- What is over another buffer, or shows nothing, does not miss a buffer that is released. -/
theorem World.Sound.abs_free {c : Class α κ} {w : World α} (hs : w.Sound c) {k j : ℕ}
    {f g : Fields} (hf : w.live? k = some f) (hm : f.managed_ = true) (hj : j ≠ k)
    (hg : w.live? j = some g) (hn : Views w k f j g → ¬0 < g.length_) :
    g.abs (w.heap.memory.free f.buf_) = g.abs w.heap.memory := by
  have hother (hne : g.buf_ = f.buf_ → f.buf_ = none) :
      g.abs (w.heap.memory.free f.buf_) = g.abs w.heap.memory :=
    Fields.abs_of_placed (hs.placed hg) (.free within_reaches) hne
  cases hv : g.valid_ with
  | false => rw [Fields.abs_of_invalid hv,Fields.abs_of_invalid hv]
  | true =>
    by_cases hl : 0 < g.length_
    · exact hother fun he => by_contra fun hb => hn ⟨hf,hm,hb,hg,hj,hv,he⟩ hl
    · have hz : g.length_ = 0 := Nat.eq_zero_of_not_pos hl
      rw [Fields.abs_of_empty hv hz,Fields.abs_of_empty hv hz]

namespace Implements
variable {c : Class α κ} {made : Memory (Option ℕ) α → κ → Bool → Option (BoundedList α)}
  {admits : Memory (Option ℕ) α → κ → Prop} {reserves : Fields → ℕ → Prop} {writes : Prop}
  {inv : World α → Prop} {w w' : World α} {a : Act α κ}

/-- An element in another buffer is what it was. -/
theorem get_cell (hc : Implements c made admits reserves writes inv) (hw : inv w) {j i : ℕ}
    {f g : Fields} (hg : w.live? j = some g) (hne : g.buf_ = f.buf_ → f.buf_ = none)
    {m' : Memory (Option ℕ) α} (hm : Confined (Reaches w.heap.memory f.buf_) w.heap.memory m') :
    (Elem.cell g.buf_ i).get m' = (Elem.cell g.buf_ i).get w.heap.memory :=
  read_of_ne (((hc.sound hw).placed hg).cells_eq hm hne) i

/-- What is appended is still there after the object has grown. -/
theorem get_resolved (hc : Implements c made admits reserves writes inv) (hw : inv w) {k : ℕ}
    {e : Arg α} {x : Elem α} {ok : Bool} (ha : Admitted admits w (.append k e ok))
    (hn : ¬Disturbs c reserves writes w (.append k e ok)) {f : Fields} (hf : w.live? k = some f)
    (hx : w.resolve c e = some x) (hv : f.valid_ = true) (hgrow : f.MustGrow) (hok : ok = true)
    (m' : Memory (Option ℕ) α)
    (hm : Confined (Reaches w.heap.memory f.buf_) w.heap.memory m') :
    x.get m' = x.get w.heap.memory := by
  cases e with
  | value v =>
    obtain rfl := Option.some.inj hx
    rfl
  | element j i =>
    obtain ⟨g,hg,rfl⟩ := Option.map_eq_some_iff.mp hx
    have hj : j ≠ k := by
      rintro rfl
      exact absurd (ha.2 rfl f hf) (Nat.not_lt_of_le hgrow.2.2)
    rcases hc.index (g:=g) (i:=i) with ⟨v,hval⟩ | hcell
    · rw [hval]
      rfl
    · rw [hcell]
      refine hc.get_cell hw hg (fun he => ?_) hm
      by_contra hb
      exact hn (.reads hf hj hg he hb (.append hcell) hv hgrow hok)

/-- The other objects keep their lists when an object is at work. -/
theorem abs_others (hc : Implements c made admits reserves writes inv) (hw : inv w)
    (hn : ¬Disturbs c reserves writes w a) {k : ℕ} {f : Fields} (hf : w.live? k = some f)
    (hm : f.managed_ = true) {o : Outcome α} (hd : Does c w k f a o) (j : ℕ) (g : Fields)
    (hj : j ≠ k) (hg : w.live? j = some g) : g.abs o.heap.memory = g.abs w.heap.memory := by
  cases hv : g.valid_ with
  | false => rw [Fields.abs_of_invalid hv,Fields.abs_of_invalid hv]
  | true =>
    by_cases hs : g.buf_ = f.buf_ ∧ f.buf_ ≠ none
    · exact Fields.abs_congr rfl rfl (hc.keeps hw ⟨hf,hm,hs.2,hg,hj,hv,hs.1⟩ hn hd)
    · exact Fields.abs_of_placed ((hc.sound hw).placed hg) (hc.does hd) fun he =>
        by_contra fun hb => hs ⟨he,hb⟩

/-- One iteration of `append(src)`. -/
theorem iteration (hc : Implements c made admits reserves writes inv) (hw : inv w) {ok : Bool}
    {k j i : ℕ} {f : Fields} {o : Outcome α} (ha : Admitted admits w (.next ok))
    (hn : ¬Disturbs c reserves writes w (.next ok)) (hcall : w.call = some ⟨k,j,i⟩)
    (hf : w.live? k = some f) (hd : Does c w k f (.next ok) o) :
    ∃ g r, w.live? j = some g ∧ i < g.length_ ∧ o.returned = some r ∧
      Appended (w.heap.memory.read g.buf_ i) ok (w.abs k) r o.abs ∧
      (w.put k o).abs = Function.update w.abs k o.abs := by
  have hdoes := hd
  cases hd with
  | next hcall' hg hi =>
    obtain ⟨-,rfl,rfl⟩ := Call.mk.inj (Option.some.inj (hcall.symm.trans hcall'))
    have hm : f.managed_ = true := ha.1 k (by simp [World.target?,hcall]) f hf
    have hne : k ≠ j := ha.2 _ hcall
    obtain ⟨r,hr,happ,-⟩ := hc.append (h:=w.heap.access false _ i) (x:=.cell _ i) ok hw hf
      hm rfl fun hv hgrow hok m' hm' => hc.get_cell hw hg (fun he => by_contra fun hb =>
        hn (.reads hf hne.symm hg he hb (.next hcall hi) hv hgrow hok)) hm'
    rw [← abs_of_live hf] at happ
    exact ⟨_,r,hg,hi,hr,happ,World.abs_put hf (hc.abs_others hw hn hf hm hdoes)⟩

/-- One step. -/
theorem refined (hc : Implements c made admits reserves writes inv) (hw : inv w)
    (ha : Admitted admits w a) (hn : ¬Disturbs c reserves writes w a)
    (h : step c w a = some w') : Refined c made w a w' := by
  have hs := hc.sound hw
  cases step_cases h with
  | caller => exact hs.abs_caller _
  | makes _ hm =>
    have habs := hs.abs_push (hc.makes hm)
    cases hm with
    | construct hadm =>
      rw [hc.construct hw hadm ha.2] at habs
      exact habs
    | copy hg =>
      refine ⟨_,habs,?_⟩
      rw [abs_of_live hg]
      exact hc.copy hw hg
  | does hcall hf hd =>
    have hdoes := hd
    cases hd with
    | assign hg hne =>
      have hm : _ = true := ha.1 _ rfl _ hf
      have habs := World.abs_put hf (hc.abs_others hw hn hf hm hdoes)
      refine ⟨_,habs,?_⟩
      rw [abs_of_live hg]
      have hfree := hs.abs_free hf hm hne.symm hg fun hv hl => hn (.releases hv hl (.assign hne))
      exact (hc.assign hw hf hm hg hfree).imp_right fun ⟨hok,hb⟩ => ⟨⟨hok,hne⟩,hb⟩
    | reserve hlt =>
      have hm : _ = true := ha.1 _ rfl _ hf
      have habs := World.abs_put hf (hc.abs_others hw hn hf hm hdoes)
      rw [hc.reserve hw hf hm ha.2,← abs_of_live hf,Function.update_eq_self] at habs
      exact habs
    | clear =>
      have hm : _ = true := ha.1 _ rfl _ hf
      have habs := World.abs_put hf (hc.abs_others hw hn hf hm hdoes)
      rw [hc.clear hw hf hm,← abs_of_live hf] at habs
      exact habs
    | append hx =>
      have hm : _ = true := ha.1 _ rfl _ hf
      have habs := World.abs_put hf (hc.abs_others hw hn hf hm hdoes)
      obtain ⟨r,hr,happ,hsame⟩ := hc.append _ hw hf hm rfl (hc.get_resolved hw ha hn hf hx)
      refine ⟨_,r,_,hx,hr,habs,abs_of_live hf ▸ happ,fun hne => ?_⟩
      obtain ⟨hfields,hmem⟩ := hsame hne
      obtain ⟨hlt,hget⟩ := List.getElem?_eq_some_iff.mp (live?_eq_some.mp hf)
      refine ⟨?_,hmem⟩
      rw [World.put,hfields,← hget]
      exact List.set_getElem_self hlt
    | next hnext => simp [hcall] at hnext
  | iterates hcall hf hd | stops hcall hf hd =>
    obtain ⟨g,r,-,-,-,-,habs⟩ := hc.iteration hw ha hn hcall hf hd
    exact ⟨_,_,hcall,habs⟩
  | ends hcall => exact ⟨_,_,hcall,(Function.update_eq_self _ _).symm⟩
  | assignSelf =>
    exact ⟨_,(Function.update_eq_self _ _).symm,.inl rfl⟩
  | begins | refuses => rfl
  | @destroy k f _ hf =>
    refine World.abs_destroy hf fun j g hj hg => ?_
    cases hm : f.managed_ with
    | false => rw [World.destroy,hm]; rfl
    | true =>
      have hmemory : (w.destroy k f).heap.memory = w.heap.memory.free f.buf_ := by
        simp [World.destroy,hm]
      rw [hmemory]
      exact hs.abs_free hf hm hj hg fun hv hl => hn (.releases hv hl .destroy)

/-- `append(src)` of a target and a source that stood for `b` and `s` in a state: it has appended
some elements of the source, or it has returned. -/
inductive Appending (start : World α) (k j : ℕ) (b s : BoundedList α) (w : World α) : Prop
  | running {i b'} (hcall : w.call = some ⟨k,j,i⟩) (hb : b.appendAll (s.list.take i) = some b')
      (habs : w.abs = Function.update start.abs k (some b'))
  | returned (hcall : w.call = none) (hr : w.returned = some .noError →
      ∃ b', b.appendAll s.list = some b' ∧ w.abs = Function.update start.abs k (some b'))

section
variable {start : World α} {k j : ℕ} {b s : BoundedList α}

omit [Inhabited α] in
theorem take_succ_of_getElem? {l : List α} {i : ℕ} {v : α} (h : l[i]? = some v) :
    l.take (i+1) = l.take i ++ [v] := by
  rw [List.take_add_one,h]
  rfl

/-- The call itself. -/
theorem appending_start (h : step c start (.appendAll k j) = some w) (hb : start.abs k = some b) :
    Appending start k j b s w := by
  cases step_cases h with
  | makes _ hm => cases hm
  | does _ _ hd => cases hd
  | begins =>
    refine .running rfl b.appendAll_nil ?_
    rw [← hb,Function.update_eq_self]
    rfl
  | refuses hcall => exact .returned hcall (by simp)

/-- An iteration, or the end. -/
theorem appending_step (hc : Implements c made admits reserves writes inv)
    (hs : start.abs j = some s) (hw : inv w) (ha : Admitted admits w a)
    (hn : ¬Disturbs c reserves writes w a) (hcalls : w.call.isSome) (h : step c w a = some w')
    (hi : Appending start k j b s w) : Appending start k j b s w' := by
  cases hi with
  | returned hcall => simp [hcall] at hcalls
  | @running i b' hcall hb habs =>
    have hsource (hne : k ≠ j) {g : Fields} (hg : w.live? j = some g) :
        s.list = g.content w.heap.memory := by
      have hj : w.abs j = some s := by rw [habs,Function.update_of_ne hne.symm,hs]
      exact (Fields.abs_eq_some.mp ((abs_of_live hg).symm.trans hj)).2.1
    have htarget : w.abs k = some b' := by rw [habs,Function.update_self]
    cases step_cases h with
    | caller hnone | assignSelf hnone | begins hnone | refuses hnone | destroy hnone =>
      simp [hcall] at hnone
    | makes hnone | does hnone => simp [hcall] at hnone
    | iterates hcall' hf hd hr =>
      obtain ⟨rfl,rfl,rfl⟩ := Call.mk.inj (Option.some.inj (hcall.symm.trans hcall'))
      obtain ⟨g,r,hg,hlt,hr',happ,hput⟩ := hc.iteration hw ha hn hcall hf hd
      rw [htarget,Option.some.inj (hr'.symm.trans hr)] at happ
      have hget : s.list[i]? = some (w.heap.memory.read g.buf_ i) := by
        rw [hsource (ha.2 _ hcall) hg]
        exact getElem?_reads hlt
      obtain ⟨b'',happend,hnew⟩ := happ.of_noError
      have hlist : b.appendAll (s.list.take (i+1)) = some b'' := by
        rw [take_succ_of_getElem? hget,BoundedList.appendAll_append hb]
        exact happend
      refine .running rfl hlist ?_
      show (w.put k _).abs = _
      rw [hput,habs,hnew,Function.update_idem]
    | stops _ _ _ hr => exact .returned rfl fun h => absurd h hr
    | ends hcall' _ hg hle =>
      obtain ⟨rfl,rfl,rfl⟩ := Call.mk.inj (Option.some.inj (hcall.symm.trans hcall'))
      have hne : k ≠ j := ha.2 _ hcall
      have htake : s.list.take i = s.list := by
        refine List.take_of_length_le ?_
        rw [hsource hne hg,Fields.content,length_reads]
        exact hle
      exact .returned rfl fun _ => ⟨b',htake ▸ hb,habs⟩

end

theorem appendsAll (hc : Implements c made admits reserves writes inv)
    {e : Execution (step c) World.init} (he : InScope admits e)
    (hn : ∀ p ∈ e.steps, ¬Disturbs c reserves writes p.1 p.2) : AppendsAll e := by
  intro before start k j running b s hsteps hcalls hfinal hreturned hb hs
  have hrun := e.run
  rw [hsteps] at hrun
  obtain ⟨t,-,hafter⟩ := hrun.of_append
  obtain ⟨rfl,w,hstart,hrunning⟩ := hafter.of_cons
  have hmem : ∀ p ∈ running, p ∈ e.steps := fun p hp => by simp [hsteps,hp]
  have happ : Appending start k j b s e.final := by
    refine hrunning.invariant_of (C:=fun w a => inv w ∧ Admitted admits w a ∧
        ¬Disturbs c reserves writes w a ∧ w.call.isSome) (appending_start hstart hb)
      (fun w a w' hi hC h => ?_) fun p hp => ?_
    · exact hc.appending_step hs hC.1 hC.2.1 hC.2.2.1 hC.2.2.2 h hi
    · exact ⟨hc.invariant he _ (e.source_mem_visited (hmem p hp)),he.steps p (hmem p hp),
        hn p (hmem p hp),hcalls p hp⟩
  cases happ with
  | running hcall => simp [hcall] at hfinal
  | returned _ hr => exact hr hreturned

/-- The refinement. -/
theorem refines (hc : Implements c made admits reserves writes inv)
    {e : Execution (step c) World.init} (he : InScope admits e)
    (hn : ∀ p ∈ e.steps, ¬Disturbs c reserves writes p.1 p.2) : Refines c made e where
  steps p hp w' h :=
    hc.refined (hc.invariant he _ (e.source_mem_visited hp)) (he.steps p hp) (hn p hp) h
  appendsAll := hc.appendsAll he hn
  sizes w hw k f hf hv := by
    have hv : f.valid_ = true := hv
    obtain ⟨hlen,hcap⟩ := hc.sizes (hc.invariant he w hw) hf hv
    obtain ⟨b,hb⟩ := Fields.exists_abs (m:=w.heap.memory) hv (hlen.trans hcap)
    obtain ⟨-,hlist,hbound⟩ := Fields.abs_eq_some.mp hb
    simp only [Fields.length,Fields.capacity,Fields.bound,hv,if_true]
    refine ⟨hlen,hcap,b,(abs_of_live hf).trans hb,?_,hbound⟩
    rw [hlist,Fields.content,length_reads]

end Implements

end Blush.Storage
