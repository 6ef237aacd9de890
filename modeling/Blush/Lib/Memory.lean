import Mathlib.Data.List.GetD
import Mathlib.Logic.Basic
import Mathlib.Tactic.Common

/-! A memory of blocks. A block has an owner, which never changes, and a fixed number of cells; it
is live until it is freed, and no pointer is used again for another block. -/
namespace Blush
variable {ι α : Type*}

structure Block (ι α : Type*) where
  owner : ι
  live : Bool
  cells : List α
  deriving DecidableEq, Repr

structure Memory (ι α : Type*) where
  blocks : List (Block ι α)
  deriving DecidableEq, Repr

namespace Memory

def empty : Memory ι α := ⟨[]⟩

/-- The block at a pointer, `none` being the null pointer. -/
def block? (m : Memory ι α) (p : Option ℕ) : Option (Block ι α) := p.bind fun b => m.blocks[b]?

/-- Who allocated the block, whether it is live or not. -/
def owner? (m : Memory ι α) (p : Option ℕ) : Option ι := (m.block? p).map Block.owner

def live (m : Memory ι α) (p : Option ℕ) : Bool := (m.block? p).any Block.live

/-- The cells of a live block; there are none behind any other pointer. -/
def cells (m : Memory ι α) (p : Option ℕ) : List α :=
  ((m.block? p).filter Block.live).elim [] Block.cells

/-- Reading a cell; what is read outside the block is the default value. -/
def read [Inhabited α] (m : Memory ι α) (p : Option ℕ) (i : ℕ) : α := (m.cells p).getD i default

def update (m : Memory ι α) (p : Option ℕ) (f : Block ι α → Block ι α) : Memory ι α :=
  ⟨p.elim m.blocks fun b => m.blocks.modify b f⟩

/-- Writing a cell; nothing changes outside the block. -/
def write (m : Memory ι α) (p : Option ℕ) (i : ℕ) (v : α) : Memory ι α :=
  m.update p fun b => { b with cells := b.cells.set i v }

def free (m : Memory ι α) (p : Option ℕ) : Memory ι α :=
  m.update p fun b => { b with live := false }

/-- A new block with the given cells. -/
def add (m : Memory ι α) (o : ι) (cells : List α) : Memory ι α := ⟨m.blocks ++ [⟨o,true,cells⟩]⟩

/-- The pointer to the block that is added next. -/
def next (m : Memory ι α) : Option ℕ := some m.blocks.length

/-- A new block of default values. -/
def alloc [Inhabited α] (m : Memory ι α) (o : ι) (n : ℕ) : Memory ι α :=
  m.add o (List.replicate n default)

/-- The loop that copies `n` cells, from the first one on. -/
def copy [Inhabited α] (m : Memory ι α) (dst src : Option ℕ) : ℕ → Memory ι α
  | 0 => m
  | n+1 => (m.copy dst src n).write dst n ((m.copy dst src n).read src n)

/-! ## What the operations change -/

variable {m : Memory ι α} {p q : Option ℕ} {o : ι}

theorem block?_update (f : Block ι α → Block ι α) :
    (m.update p f).block? q = if q = p then (m.block? p).map f else m.block? q := by
  cases p with
  | none =>
    by_cases hq : q = none
    · subst q
      rfl
    · rw [if_neg hq]
      rfl
  | some b =>
    cases q with
    | none => rfl
    | some c =>
      show (m.blocks.modify b f)[c]? = _
      rw [List.getElem?_modify]
      by_cases hc : b = c
      · subst c
        rw [if_pos rfl]
        cases h : m.blocks[b]? <;> simp [block?,h]
      · rw [if_neg (by simpa using Ne.symm hc)]
        cases h : m.blocks[c]? <;> simp [block?,h,hc]

theorem block?_add (cells : List α) :
    (m.add o cells).block? q = if q = m.next then some ⟨o,true,cells⟩ else m.block? q := by
  cases q with
  | none => rfl
  | some c =>
    show (m.blocks ++ [(⟨o,true,cells⟩ : Block ι α)])[c]? = _
    by_cases hc : c = m.blocks.length
    · subst c
      simp [next]
    · rw [if_neg (by simpa [next] using hc)]
      rcases Nat.lt_or_ge c m.blocks.length with hlt | hge
      · exact List.getElem?_append_left hlt
      · rw [List.getElem?_eq_none (by simp; omega)]
        exact (List.getElem?_eq_none hge).symm

theorem block?_next : m.block? m.next = none := List.getElem?_eq_none (Nat.le_refl _)

theorem owner?_next : m.owner? m.next = none := by simp [owner?,block?_next]

/-- A pointer to an old block is not the pointer to the next one. -/
theorem ne_next (h : m.owner? p = some o) : p ≠ m.next := by
  rintro rfl
  simp [owner?_next] at h

/-- What is live is a block. -/
theorem owner?_of_live (h : m.live p = true) : ∃ o, m.owner? p = some o := by
  cases hb : m.block? p with
  | none => simp [live,hb] at h
  | some b => exact ⟨b.owner,by simp [owner?,hb]⟩

section write
variable (i : ℕ) (v : α)

@[simp] theorem owner?_write : (m.write p i v).owner? q = m.owner? q := by
  rw [owner?,write,block?_update]
  split
  · subst q
    cases h : m.block? p <;> simp [owner?,h]
  · rfl

@[simp] theorem live_write : (m.write p i v).live q = m.live q := by
  rw [live,write,block?_update]
  split
  · subst q
    cases h : m.block? p <;> simp [live,h]
  · rfl

theorem cells_write_self : (m.write p i v).cells p = (m.cells p).set i v := by
  rw [cells,write,block?_update,if_pos rfl]
  cases h : m.block? p with
  | none => simp [cells,h]
  | some b =>
    obtain ⟨o,live,cs⟩ := b
    cases live <;> simp [cells,h,Option.filter]

theorem cells_write_of_ne (h : q ≠ p) : (m.write p i v).cells q = m.cells q := by
  rw [cells,write,block?_update,if_neg h]
  rfl

@[simp] theorem length_cells_write : ((m.write p i v).cells q).length = (m.cells q).length := by
  by_cases h : q = p
  · subst q
    rw [cells_write_self,List.length_set]
  · rw [cells_write_of_ne _ _ h]

end write

section free

@[simp] theorem owner?_free : (m.free p).owner? q = m.owner? q := by
  rw [owner?,free,block?_update]
  split
  · subst q
    cases h : m.block? p <;> simp [owner?,h]
  · rfl

theorem live_free_self : (m.free p).live p = false := by
  rw [live,free,block?_update,if_pos rfl]
  cases h : m.block? p <;> simp

theorem live_free_of_ne (h : q ≠ p) : (m.free p).live q = m.live q := by
  rw [live,free,block?_update,if_neg h]
  rfl

theorem next_free : (m.free p).next = m.next := by
  cases p with
  | none => rfl
  | some b => simp [next,free,update]

/-- There is nothing behind a pointer that was freed. -/
theorem cells_free_self : (m.free p).cells p = [] := by
  rw [cells,free,block?_update,if_pos rfl]
  cases h : m.block? p <;> simp [Option.filter]

theorem cells_free_of_ne (h : q ≠ p) : (m.free p).cells q = m.cells q := by
  rw [cells,free,block?_update,if_neg h]
  rfl

end free

section add
variable (cells : List α)

theorem owner?_add_next : (m.add o cells).owner? m.next = some o := by
  rw [owner?,block?_add,if_pos rfl]
  rfl

theorem owner?_add_of_ne (h : q ≠ m.next) : (m.add o cells).owner? q = m.owner? q := by
  rw [owner?,block?_add,if_neg h]
  rfl

theorem live_add_next : (m.add o cells).live m.next = true := by
  rw [live,block?_add,if_pos rfl]
  rfl

theorem live_add_of_ne (h : q ≠ m.next) : (m.add o cells).live q = m.live q := by
  rw [live,block?_add,if_neg h]
  rfl

theorem cells_add_next : (m.add o cells).cells m.next = cells := by
  rw [Memory.cells,block?_add,if_pos rfl]
  rfl

theorem cells_add_of_ne (h : q ≠ m.next) : (m.add o cells).cells q = m.cells q := by
  rw [Memory.cells,block?_add,if_neg h]
  rfl

end add

/-! ## The copy loop -/

section copy
variable [Inhabited α] {dst src : Option ℕ}

@[simp] theorem owner?_copy (n : ℕ) : (m.copy dst src n).owner? q = m.owner? q := by
  induction n with
  | zero => rfl
  | succ n ih => rw [copy,owner?_write,ih]

@[simp] theorem live_copy (n : ℕ) : (m.copy dst src n).live q = m.live q := by
  induction n with
  | zero => rfl
  | succ n ih => rw [copy,live_write,ih]

theorem cells_copy_of_ne (n : ℕ) (h : q ≠ dst) : (m.copy dst src n).cells q = m.cells q := by
  induction n with
  | zero => rfl
  | succ n ih => rw [copy,cells_write_of_ne _ _ h,ih]

@[simp] theorem length_cells_copy (n : ℕ) :
    ((m.copy dst src n).cells q).length = (m.cells q).length := by
  induction n with
  | zero => rfl
  | succ n ih => rw [copy,length_cells_write,ih]

theorem read_of_ne {m' : Memory ι α} (h : m'.cells p = m.cells p) (i : ℕ) :
    m'.read p i = m.read p i := by rw [read,read,h]

theorem read_write_self {i : ℕ} (h : i < (m.cells p).length) (v : α) :
    (m.write p i v).read p i = v := by
  rw [read,cells_write_self,List.getD_eq_getElem _ _ (by simpa using h)]
  simp

theorem read_write_of_ne {i j : ℕ} (h : j ≠ i) (v : α) :
    (m.write p i v).read q j = m.read q j := by
  by_cases hq : q = p
  · subst q
    rw [read,cells_write_self,read,List.getD_eq_getElem?_getD,List.getD_eq_getElem?_getD,
      List.getElem?_set_ne (Ne.symm h)]
  · exact read_of_ne (cells_write_of_ne i v hq) j

/-- After `n` steps the first `n` cells are those of the source, and the others are as before. -/
theorem read_copy (hne : src ≠ dst) {n : ℕ} (hn : n ≤ (m.cells dst).length) (i : ℕ) :
    (m.copy dst src n).read dst i = if i < n then m.read src i else m.read dst i := by
  induction n with
  | zero => rfl
  | succ n ih =>
    rw [copy]
    by_cases hi : i = n
    · subst i
      have hlt : n < ((m.copy dst src n).cells dst).length := by
        rw [length_cells_copy]
        omega
      rw [read_write_self hlt,if_pos (by omega)]
      exact read_of_ne (cells_copy_of_ne n hne) n
    · rw [read_write_of_ne hi,ih (by omega)]
      by_cases hlt : i < n
      · rw [if_pos hlt,if_pos (by omega)]
      · rw [if_neg hlt,if_neg (by omega)]

end copy

/-! ## A prefix of a block -/

section reads
variable [Inhabited α]

/-- What the first `n` cells hold. -/
def reads (m : Memory ι α) (p : Option ℕ) (n : ℕ) : List α := (List.range n).map (m.read p)

@[simp] theorem length_reads (m : Memory ι α) (p : Option ℕ) (n : ℕ) :
    (m.reads p n).length = n := by simp [reads]

theorem reads_succ (m : Memory ι α) (p : Option ℕ) (n : ℕ) :
    m.reads p (n+1) = m.reads p n ++ [m.read p n] := by simp [reads,List.range_succ]

theorem getElem?_reads {n i : ℕ} (h : i < n) : (m.reads p n)[i]? = some (m.read p i) := by
  simp [reads,h]

/-- The last of the cells that were read. -/
theorem read_of_reads {n : ℕ} {l : List α} {v : α} (h : m.reads p n = l ++ [v]) :
    m.read p l.length = v := by
  have hlen := congrArg List.length h
  rw [length_reads,List.length_append,List.length_singleton] at hlen
  have hget := getElem?_reads (m:=m) (p:=p) (n:=n) (i:=l.length) (by omega)
  rw [h,List.getElem?_concat_length] at hget
  exact (Option.some.inj hget).symm

theorem read_free_self (i : ℕ) : (m.free p).read p i = default := by
  rw [read,cells_free_self]
  rfl

/-- A default value is read back, inside the block or outside. -/
theorem read_write_default (i : ℕ) : (m.write p i default).read p i = default := by
  rw [read,cells_write_self,List.getD_eq_getElem?_getD,List.getElem?_set_self']
  cases (m.cells p)[i]? <;> rfl

theorem reads_congr {m' : Memory ι α} {n : ℕ} (h : ∀ i < n, m'.read q i = m.read p i) :
    m'.reads q n = m.reads p n :=
  List.map_congr_left fun i hi => h i (List.mem_range.mp hi)

/-- What is written behind the prefix does not change it. -/
theorem reads_write {n i : ℕ} (h : n ≤ i) (v : α) : (m.write p i v).reads q n = m.reads q n :=
  reads_congr fun _ hj => read_write_of_ne (Nat.ne_of_lt (Nat.lt_of_lt_of_le hj h)) v

theorem reads_of_cells {m' : Memory ι α} (h : m'.cells p = m.cells p) (n : ℕ) :
    m'.reads p n = m.reads p n := reads_congr fun i _ => read_of_ne h i

/-- What is copied is what the source holds. -/
theorem reads_copy {dst src : Option ℕ} {n : ℕ} (hsrc : src ≠ dst) (hn : n ≤ (m.cells dst).length) :
    (m.copy dst src n).reads dst n = m.reads src n := by
  refine reads_congr fun i hi => ?_
  rw [read_copy hsrc hn,if_pos hi]

/-- A new block that is filled by the copy loop. -/
theorem reads_fresh {src : Option ℕ} {cells : List α} {n : ℕ} (hsrc : m.next ≠ src)
    (hn : n ≤ cells.length) :
    ((m.add o cells).copy m.next src n).reads m.next n = m.reads src n := by
  rw [reads_copy hsrc.symm (by rwa [cells_add_next])]
  exact reads_of_cells (cells_add_of_ne cells hsrc.symm) n

theorem reads_eq_take {n : ℕ} (h : n ≤ (m.cells p).length) :
    m.reads p n = (m.cells p).take n := by
  refine List.ext_getElem (by simp [h]) fun i hi _ => ?_
  have hlt : i < (m.cells p).length := by
    rw [length_reads] at hi
    exact Nat.lt_of_lt_of_le hi h
  have hread : m.read p i = (m.cells p)[i] := List.getD_eq_getElem _ _ hlt
  simp [reads,hread]

end reads

/-! ## Confined changes -/

/-- Behind the pointer there is nothing, or a block that may change: `S` speaks of the pointer and of
the owner. -/
def Within (S : Option ℕ → ι → Prop) (m : Memory ι α) (p : Option ℕ) : Prop :=
  ∀ o, m.owner? p = some o → S p o

theorem within_none {S : Option ℕ → ι → Prop} : Within S m none := by
  intro o ho
  simp [owner?,block?] at ho

/-- Only the given blocks change, and only such blocks are new. -/
structure Confined (S : Option ℕ → ι → Prop) (m m' : Memory ι α) : Prop where
  keeps : ∀ p o, m.owner? p = some o → m'.owner? p = some o
  fresh : ∀ p o, m'.owner? p = some o → m.owner? p = some o ∨ S p o
  frame : ∀ p o, m.owner? p = some o → ¬S p o → m'.live p = m.live p ∧ m'.cells p = m.cells p

namespace Confined
variable {S : Option ℕ → ι → Prop} {m m' m'' : Memory ι α}

theorem refl (m : Memory ι α) : Confined S m m := ⟨fun _ _ => id,fun _ _ => .inl,fun _ _ _ _ =>
  ⟨rfl,rfl⟩⟩

theorem trans (h : Confined S m m') (h' : Confined S m' m'') : Confined S m m'' where
  keeps p o hp := h'.keeps p o (h.keeps p o hp)
  fresh p o hp := (h'.fresh p o hp).elim (h.fresh p o) .inr
  frame p o hp ho := by
    obtain ⟨hl,hc⟩ := h.frame p o hp ho
    obtain ⟨hl',hc'⟩ := h'.frame p o (h.keeps p o hp) ho
    exact ⟨hl'.trans hl,hc'.trans hc⟩

theorem write (h : Within S m p) (i : ℕ) (v : α) : Confined S m (m.write p i v) where
  keeps _ _ hq := by rwa [owner?_write]
  fresh _ _ hq := by
    rw [owner?_write] at hq
    exact .inl hq
  frame q o hq ho := by
    have hne : q ≠ p := fun he => ho (he ▸ h o (he ▸ hq))
    exact ⟨live_write i v,cells_write_of_ne i v hne⟩

theorem free (h : Within S m p) : Confined S m (m.free p) where
  keeps _ _ hq := by rwa [owner?_free]
  fresh _ _ hq := by
    rw [owner?_free] at hq
    exact .inl hq
  frame q o hq ho := by
    have hne : q ≠ p := fun he => ho (he ▸ h o (he ▸ hq))
    exact ⟨live_free_of_ne hne,cells_free_of_ne hne⟩

theorem add (h : S m.next o) (cells : List α) : Confined S m (m.add o cells) where
  keeps q _ hq := by rwa [owner?_add_of_ne _ (ne_next hq)]
  fresh q o' hq := by
    by_cases hn : q = m.next
    · subst q
      rw [owner?_add_next] at hq
      obtain rfl := Option.some.inj hq
      exact .inr h
    · rw [owner?_add_of_ne _ hn] at hq
      exact .inl hq
  frame q _ hq _ := ⟨live_add_of_ne _ (ne_next hq),cells_add_of_ne _ (ne_next hq)⟩

theorem copy [Inhabited α] {dst : Option ℕ} (h : Within S m dst) (src : Option ℕ) (n : ℕ) :
    Confined S m (m.copy dst src n) := by
  induction n with
  | zero => exact refl m
  | succ n ih =>
    refine ih.trans (write (fun o ho => h o ?_) _ _)
    rwa [owner?_copy] at ho

/-- What was within the blocks stays there. -/
theorem within (h : Confined S m m') (hp : Within S m p) : Within S m' p := fun o ho =>
  (h.fresh p o ho).elim (hp o) id

end Confined

/-- The block at a pointer and those that the memory does not have yet. -/
def Reaches (m : Memory ι α) (q : Option ℕ) (p : Option ℕ) (_ : ι) : Prop :=
  p = q ∨ m.owner? p = none

theorem within_reaches : Within (Reaches m p) m p := fun _ _ => .inl rfl

theorem reaches_next : Reaches m p m.next o := .inr owner?_next

/-- A block that is there and is another one does not change. -/
theorem Confined.cells_eq {m' : Memory ι α} (h : Confined (Reaches m p) m m')
    (ho : m.owner? q = some o) (hne : q ≠ p) : m'.cells q = m.cells q := by
  refine (h.frame q o ho ?_).2
  rintro (he | hn)
  · exact hne he
  · simp [hn] at ho

/-- Other blocks than the given ones are freed as little as they change their sizes; what they hold
may change. -/
structure Spares (S : Option ℕ → ι → Prop) (m m' : Memory ι α) : Prop where
  keeps : ∀ p o, m.owner? p = some o → m'.owner? p = some o
  fresh : ∀ p o, m'.owner? p = some o → m.owner? p = some o ∨ S p o
  frame : ∀ p o, m.owner? p = some o → ¬S p o →
    m'.live p = m.live p ∧ (m'.cells p).length = (m.cells p).length

theorem Confined.spares {S : Option ℕ → ι → Prop} {m' : Memory ι α} (h : Confined S m m') :
    Spares S m m' :=
  ⟨h.keeps,h.fresh,fun p o hp ho => (h.frame p o hp ho).imp_right (congrArg List.length)⟩

namespace Spares
variable {S : Option ℕ → ι → Prop} {m m' m'' : Memory ι α}

theorem trans (h : Spares S m m') (h' : Spares S m' m'') : Spares S m m'' where
  keeps p o hp := h'.keeps p o (h.keeps p o hp)
  fresh p o hp := (h'.fresh p o hp).elim (h.fresh p o) .inr
  frame p o hp ho := by
    obtain ⟨hl,hc⟩ := h.frame p o hp ho
    obtain ⟨hl',hc'⟩ := h'.frame p o (h.keeps p o hp) ho
    exact ⟨hl'.trans hl,hc'.trans hc⟩

/-- A write anywhere. -/
theorem write (p : Option ℕ) (i : ℕ) (v : α) : Spares S m (m.write p i v) where
  keeps _ _ hq := by rwa [owner?_write]
  fresh _ _ hq := by
    rw [owner?_write] at hq
    exact .inl hq
  frame _ _ _ _ := ⟨live_write i v,length_cells_write i v⟩

end Spares

/-! ## Ownership -/

/-- The only live block of an owner is the one at `q`; it has none when `q` is null. -/
def Owns (o : ι) (q : Option ℕ) (m : Memory ι α) : Prop :=
  ∀ b : ℕ, m.owner? (some b) = some o ∧ m.live (some b) = true ↔ q = some b

namespace Owns
variable {q : Option ℕ} {m m' : Memory ι α}

theorem congr (h : Owns o q m) (howner : ∀ p, m'.owner? p = m.owner? p)
    (hlive : ∀ p, m'.live p = m.live p) : Owns o q m' := by
  intro b
  rw [howner,hlive]
  exact h b

theorem block (h : Owns o q m) (hq : q ≠ none) : m.owner? q = some o ∧ m.live q = true := by
  obtain ⟨b,rfl⟩ := Option.ne_none_iff_exists'.mp hq
  exact (h b).mpr rfl

theorem within (h : Owns o q m) : Within (fun _ => (· = o)) m q := by
  cases q with
  | none => exact within_none
  | some b =>
    intro o' ho
    exact Option.some.inj (ho.symm.trans (h.block (by simp)).1)

theorem write (h : Owns o q m) (p : Option ℕ) (i : ℕ) (v : α) : Owns o q (m.write p i v) :=
  h.congr (fun _ => owner?_write i v) fun _ => live_write i v

/-- What spares the blocks of the owner does not matter. -/
theorem of_spares {S : Option ℕ → ι → Prop} (h : Owns o q m) (hc : Spares S m m')
    (ho : ∀ p, ¬S p o) : Owns o q m' := by
  intro b
  rw [← h b]
  constructor
  · rintro ⟨hp,hl⟩
    have hp' : m.owner? (some b) = some o := (hc.fresh _ o hp).resolve_right (ho _)
    exact ⟨hp',(hc.frame _ o hp' (ho _)).1 ▸ hl⟩
  · rintro ⟨hp,hl⟩
    exact ⟨hc.keeps _ o hp,(hc.frame _ o hp (ho _)).1.trans hl⟩

theorem free (h : Owns o q m) : Owns o none (m.free q) := by
  intro b
  constructor
  · rintro ⟨hp,hl⟩
    by_cases hb : some b = q
    · rw [hb,live_free_self] at hl
      contradiction
    · rw [owner?_free] at hp
      rw [live_free_of_ne hb] at hl
      exact absurd ((h b).mp ⟨hp,hl⟩).symm hb
  · intro hb
    contradiction

/-- An owner gets a new block, fills it and frees its old one. -/
theorem replace [Inhabited α] (h : Owns o q m) (cells : List α) (src : Option ℕ) (n : ℕ) :
    Owns o m.next (((m.add o cells).copy m.next src n).free q) := by
  intro b
  rw [owner?_free,owner?_copy]
  by_cases hn : some b = m.next
  · rw [hn,owner?_add_next]
    refine ⟨fun _ => rfl,fun _ => ⟨rfl,?_⟩⟩
    have hq : m.next ≠ q := by
      rintro hq
      have hp := ((h b).mpr (hq.symm.trans hn.symm)).1
      exact ne_next hp hn
    rw [live_free_of_ne hq,live_copy,live_add_next]
  · rw [owner?_add_of_ne _ hn]
    refine ⟨fun ⟨hp,hl⟩ => ?_,fun hb => absurd hb.symm hn⟩
    by_cases hb : some b = q
    · rw [hb,live_free_self] at hl
      contradiction
    · rw [live_free_of_ne hb,live_copy,live_add_of_ne _ hn] at hl
      exact absurd ((h b).mp ⟨hp,hl⟩).symm hb

end Owns

/-- No block is freed, and new ones are live. -/
structure Extends (m m' : Memory ι α) : Prop where
  keeps : ∀ p o, m.owner? p = some o → m'.owner? p = some o ∧ m'.live p = m.live p
  fresh : ∀ p o, m'.owner? p = some o → m.owner? p = some o ∨ m'.live p = true

namespace Extends
variable {m m' m'' : Memory ι α}

theorem refl (m : Memory ι α) : Extends m m := ⟨fun _ _ hp => ⟨hp,rfl⟩,fun _ _ => .inl⟩

theorem trans (h : Extends m m') (h' : Extends m' m'') : Extends m m'' where
  keeps p o hp := by
    obtain ⟨hp',hl⟩ := h.keeps p o hp
    obtain ⟨hp'',hl'⟩ := h'.keeps p o hp'
    exact ⟨hp'',hl'.trans hl⟩
  fresh p o hp := by
    rcases h'.fresh p o hp with hp' | hl
    · refine (h.fresh p o hp').imp_right fun hl => ?_
      exact (h'.keeps p o hp').2.trans hl
    · exact .inr hl

theorem write (p : Option ℕ) (i : ℕ) (v : α) : Extends m (m.write p i v) :=
  ⟨fun _ _ hp => ⟨(owner?_write i v).trans hp,live_write i v⟩,
    fun _ _ hp => .inl ((owner?_write i v).symm.trans hp)⟩

theorem copy [Inhabited α] (dst src : Option ℕ) (n : ℕ) : Extends m (m.copy dst src n) :=
  ⟨fun _ _ hp => ⟨(owner?_copy n).trans hp,live_copy n⟩,
    fun _ _ hp => .inl ((owner?_copy n).symm.trans hp)⟩

theorem add (o : ι) (cells : List α) : Extends m (m.add o cells) where
  keeps _ _ hp := ⟨(owner?_add_of_ne _ (ne_next hp)).trans hp,live_add_of_ne _ (ne_next hp)⟩
  fresh p o' hp := by
    by_cases hn : p = m.next
    · subst p
      exact .inr (live_add_next cells)
    · exact .inl ((owner?_add_of_ne _ hn).symm.trans hp)

end Extends
end Memory
end Blush
