import Blush.Storage.Growth
import Blush.Storage.Refinement

/-! When `append(src)` of two different objects does all or nothing, whatever the allocations do. -/
namespace Blush.Storage
open Transition World
variable {α κ : Type} [Inhabited α]

/-- A call of `append(src)` in the state `w`, with its target and source, that has returned: when it
failed the target is what it was, and it reports a bound that the elements would exceed. -/
structure AllOrNothing (w : World α) (k : ℕ) (f g : Fields) (w' : World α) : Prop where
  unchanged : w'.returned ≠ some .noError → ∃ f', w'.live? k = some f' ∧ f'.length = f.length ∧
    f'.content w'.heap.memory = f.content w.heap.memory
  bound : f.isBounded = true → f.bound < f.length + g.length →
    w'.returned = some .insufficientBound

/-- Whatever the allocations do. -/
def AppendsAllOrNothing (c : Class α κ) (w : World α) (k j : ℕ) (f g : Fields) : Prop :=
  ∀ oks w', Returns c w k j oks w' → AllOrNothing w k f g w'

/-- The first of `n` elements decides: the object is invalid, or it cannot take one element, or the
bound leaves a place for all of them and so does the capacity, the object growing at most once and
before the first one. -/
inductive Decided (first : ℕ) (f : Fields) (n : ℕ) : Prop
  | invalid (hv : f.valid_ = false)
  | full (hb : f.Full) (hn : n ≠ 0)
  | unmanaged (hm : f.managed_ = false) (hs : f.bound_ = unboundedSentinel)
      (hn : f.capacity_ ≤ f.length_)
  | fits (hb : f.bound_ ≠ unboundedSentinel → f.length_+n ≤ f.bound_)
      (hn : n = 0 ∨ f.length_+n ≤ f.room first)

/-- The lengths of a managed object are in order and a capacity can be doubled twice. -/
def Fields.Moderate (f : Fields) : Prop :=
  f.managed_ = true → f.length_ ≤ f.capacity_ ∧ f.capacity_ < 2^30

section
omit [Inhabited α]
variable {f g : Fields} {first n : ℕ}

theorem isBounded_of_valid (hv : f.valid_ = true) :
    f.isBounded = true ↔ f.bound_ ≠ unboundedSentinel := by simp [Fields.isBounded,hv]

theorem length_le_raw (g : Fields) : g.length ≤ g.length_ := by
  rw [Fields.length]
  split <;> omega

/-- One element has a place when the object is not full. -/
theorem lt_room (hfirst : 0 < first) (hm : f.Moderate) (hb : ¬f.Full)
    (hs : f.managed_ = false → f.length_ < f.capacity_) : f.length_ < f.room first := by
  rw [Fields.room]
  by_cases hn : f.capacity_ ≤ f.length_
  · rw [if_pos hn]
    cases hmanaged : f.managed_ with
    | false => exact absurd (hs hmanaged) (Nat.not_lt_of_le hn)
    | true =>
      obtain ⟨hle,hcap⟩ := hm hmanaged
      exact lt_of_le_of_lt hle (f.lt_newCap first hfirst hb hn (by omega))
  · rw [if_neg hn]
    omega

theorem room_lt (hfirst : first < 2^31) (hc : f.capacity_ < 2^30) : f.room first < 2^31 := by
  have hnew : f.newCap first < 2^31 := by
    have hcap : (if f.capacity_ = 0 then first else u32 (f.capacity_*2)) < 2^31 := by
      split
      · exact hfirst
      · rw [u32,Nat.mod_eq_of_lt (by omega)]
        omega
    rw [Fields.newCap]
    generalize (if f.capacity_ = 0 then first else u32 (f.capacity_*2)) = cap at hcap ⊢
    by_cases hb : f.bound_ ≠ unboundedSentinel ∧ f.bound_ < cap
    · exact (if_pos hb).trans_lt (hb.2.trans hcap)
    · exact (if_neg hb).trans_lt hcap
  rw [Fields.room]
  split
  · exact hnew
  · omega

end

section
omit [Inhabited α]
variable {c : Class α κ} {first : ℕ} {w w' : World α} {k j i r : ℕ} {f g : Fields}
  {oks : List Bool} (hc : Growth c first)
include hc

/-- The rest of a call succeeds when there is a place for all that is left. -/
theorem Growth.noError_of_fits (hcall : w.call = some ⟨k,j,i⟩) (hne : k ≠ j)
    (hf : w.live? k = some f) (hg : w.live? j = some g) (hv : f.valid_ = true)
    (hir : i+r = g.length_) (hb : f.bound_ ≠ unboundedSentinel → f.length_+r ≤ f.bound_)
    (hn : f.length_+r ≤ f.capacity_) (hlt : f.capacity_ < 2^32)
    (h : World.nexts c oks w = some w') (hreturned : w'.call = none) :
    w'.returned = some .noError := by
  induction r generalizing w f i oks with
  | zero =>
    cases oks with
    | nil =>
      obtain rfl := Option.some.inj h
      simp [hcall] at hreturned
    | cons ok oks =>
      rw [World.nexts,step_next hcall hf hg,next_of_length_le (by omega)] at h
      rw [nexts_of_returned rfl h]
  | succ r ih =>
    cases oks with
    | nil =>
      obtain rfl := Option.some.inj h
      simp [hcall] at hreturned
    | cons ok oks =>
      have hfull : ¬f.Full := fun hfull => by
        have := hb hfull.1
        have := hfull.2
        omega
      obtain ⟨hr,hfields⟩ := (hc.append (w.heap.access false g i) k f (.cell g.buf_ i) ok).of_room
        hv hfull (by omega)
      obtain ⟨w₁,hstep,hcall₁,hf₁,hothers⟩ := step_iterates hcall hf hg (by omega) hr
      rw [World.nexts,hstep] at h
      rw [World.appended,hfields] at hf₁
      have hlen := Fields.longer_length (f:=f) (by omega)
      refine ih hcall₁ hf₁ ((hothers j hne.symm).trans hg) hv (by omega) (fun hs => ?_) ?_ hlt h
      · have := hb hs
        show f.longer.length_+r ≤ f.bound_
        omega
      · show f.longer.length_+r ≤ f.capacity_
        omega

/-- How a call may go on that fails. -/
def Fails (c : Class α κ) (w : World α) (k n : ℕ) : Prop :=
  ∃ oks w', World.nexts c oks w = some w' ∧ w'.call = none ∧ w'.returned ≠ some .noError ∧
    ∃ f, w'.live? k = some f ∧ f.valid_ = true ∧ n ≤ f.length_

theorem Growth.fails (hcall : w.call = some ⟨k,j,i⟩) (hf : w.live? k = some f)
    (hg : w.live? j = some g) (hv : f.valid_ = true) (hi : i < g.length_) {ok : Bool}
    (hr : (w.appended c k i f g ok).returned ≠ some .noError) : Fails c w k f.length_ := by
  obtain ⟨w₁,hstep,hreturned,hret,hf₁,-⟩ := hc.stops hcall hf hg hi hr
  refine ⟨[ok],w₁,?_,hreturned,hret ▸ hr,f,hf₁,hv,le_rfl⟩
  rw [World.nexts,hstep]
  rfl

/-- Without memory the rest of a call fails when there is no place for all that is left. -/
theorem Growth.fails_of_short (hcall : w.call = some ⟨k,j,i⟩) (hne : k ≠ j)
    (hf : w.live? k = some f) (hg : w.live? j = some g) (hv : f.valid_ = true)
    (hir : i+(r+1) = g.length_) (hn : ¬((f.bound_ ≠ unboundedSentinel →
      f.length_+(r+1) ≤ f.bound_) ∧ f.length_+(r+1) ≤ f.capacity_))
    (hlt : f.capacity_ < 2^32) (hcap : f.managed_ = true → f.capacity_ < 2^31) :
    Fails c w k f.length_ := by
  induction r generalizing w f i with
  | zero =>
    have ho := hc.append (w.heap.access false g i) k f (.cell g.buf_ i) false
    by_cases hr : (w.appended c k i f g false).returned = some .noError
    · obtain ⟨hroom,hfull,-⟩ := ho.of_refused hc.pos hcap hr
      refine absurd ⟨fun hs => ?_,hroom⟩ hn
      by_contra hle
      exact hfull ⟨hs,by omega⟩
    · exact hc.fails hcall hf hg hv (by omega) hr
  | succ r ih =>
    have ho := hc.append (w.heap.access false g i) k f (.cell g.buf_ i) false
    by_cases hr : (w.appended c k i f g false).returned = some .noError
    · obtain ⟨hroom,-,hfields⟩ := ho.of_refused hc.pos hcap hr
      obtain ⟨w₁,hstep,hcall₁,hf₁,hothers⟩ := step_iterates hcall hf hg (by omega) hr
      rw [World.appended,hfields] at hf₁
      have hlen := Fields.longer_length (f:=f) (by omega)
      have hn₁ : ¬((f.bound_ ≠ unboundedSentinel → f.longer.length_+(r+1) ≤ f.bound_) ∧
          f.longer.length_+(r+1) ≤ f.capacity_) := by
        rwa [hlen,Nat.add_assoc,Nat.add_comm 1]
      obtain ⟨oks,w',hnexts,hreturned,hfailed,f',hf',hv',hle⟩ :=
        ih hcall₁ hf₁ ((hothers j hne.symm).trans hg) hv (by omega) hn₁ hlt hcap
      refine ⟨false::oks,w',?_,hreturned,hfailed,f',hf',hv',by omega⟩
      rw [World.nexts,hstep]
      exact hnexts
    · exact hc.fails hcall hf hg hv (by omega) hr

end

/-! ## The calls -/

section
variable {c : Class α κ} {first : ℕ} {w w' : World α} {k j : ℕ} {f g : Fields}
  {ok : Bool} {oks : List Bool} (hcall : w.call = none) (hf : w.live? k = some f)
  (hg : w.live? j = some g)

theorem AllOrNothing.of_noError (hr : w'.returned = some .noError)
    (hb : f.isBounded = true → f.length+g.length ≤ f.bound) : AllOrNothing w k f g w' :=
  ⟨fun h => absurd hr h,fun hs hlt => absurd hlt (Nat.not_lt_of_le (hb hs))⟩

include hf hg

omit [Inhabited α] in
/-- The loop over an empty source ends before its first iteration. -/
theorem step_begun_of_empty (hz : g.length_ = 0) : step c (w.begun k j) (.next ok) =
    some { w.begun k j with call := none, returned := some .noError } := by
  rw [step_next (w:=w.begun k j) rfl hf hg,next_of_length_le hz.le]

include hcall

theorem allOrNothing_of_invalid (hv : f.valid_ = false) : AppendsAllOrNothing c w k j f g := by
  rintro oks w' ⟨h,-⟩
  rw [step_appendAll_of_invalid hcall hf hg hv] at h
  obtain rfl := nexts_of_returned (by exact hcall) h
  exact ⟨fun _ => ⟨f,hf,rfl,rfl⟩,by simp [Fields.isBounded,hv]⟩

theorem allOrNothing_of_empty (hv : f.valid_ = true) (hz : g.length_ = 0) :
    AppendsAllOrNothing c w k j f g ↔ (f.bound_ ≠ unboundedSentinel → f.length_ ≤ f.bound_) := by
  have hlength : g.length = 0 := Nat.le_zero.mp (hz ▸ length_le_raw g)
  have hsum : f.length+g.length = f.length_ := by rw [hlength,Fields.length,if_pos hv,Nat.add_zero]
  have hbound : f.bound = f.bound_ := if_pos hv
  constructor
  · intro h hs
    have hreturns : Returns c w k j [true]
        { w.begun k j with call := none, returned := some .noError } := by
      refine (returns_of_valid hcall hf hg hv).mpr ⟨_,_,rfl,?_,rfl⟩
      rw [step_begun_of_empty hf hg hz]
      rfl
    by_contra hlt
    have hr := (h _ _ hreturns).bound ((isBounded_of_valid hv).mpr hs) (by omega)
    simp at hr
  · intro hb oks w' hreturns
    obtain ⟨ok,oks',-,h,-⟩ := (returns_of_valid hcall hf hg hv).mp hreturns
    rw [step_begun_of_empty hf hg hz] at h
    obtain rfl := nexts_of_returned rfl h
    refine .of_noError rfl fun hs => ?_
    rw [hsum,hbound]
    exact hb ((isBounded_of_valid hv).mp hs)

end

section
variable {c : Class α κ} {first : ℕ} {w w' : World α} {k j : ℕ} {f g : Fields}
  {ok : Bool} {oks : List Bool} (hc : Growth c first) (hf : w.live? k = some f)
  (hg : w.live? j = some g)
include hc hf hg

/-- The first iteration, when it fails. -/
theorem Growth.allOrNothing_of_failed (hi : 0 < g.length_)
    (hr : ((w.begun k j).appended c k 0 f g ok).returned ≠ some .noError)
    (hb : f.isBounded = true → f.bound < f.length+g.length → f.valid_ = true ∧ f.Full)
    (h : (step c (w.begun k j) (.next ok)).bind (World.nexts c oks) = some w') :
    AllOrNothing w k f g w' := by
  obtain ⟨w₁,hstep,hreturned,hret,hf₁,hmemory⟩ := hc.stops (w:=w.begun k j) rfl hf hg hi hr
  rw [hstep] at h
  obtain rfl := nexts_of_returned hreturned h
  refine ⟨fun _ => ⟨f,hf₁,rfl,by rw [hmemory]; rfl⟩,fun hs hlt => ?_⟩
  obtain ⟨hv,hfull⟩ := hb hs hlt
  rw [hret]
  exact (hc.append _ _ _ _ _).of_full hv hfull

omit [Inhabited α] in
/-- The first iteration, when it succeeds and the object has room for one element. -/
theorem Growth.step_begun (hne : k ≠ j) (hw : f.Words) (hi : 0 < g.length_)
    (hroom : f.length_ < f.room first)
    (hr : ((w.begun k j).appended c k 0 f g ok).returned = some .noError) :
    ∃ w₁ p, step c (w.begun k j) (.next ok) = some w₁ ∧ w₁.call = some ⟨k,j,1⟩ ∧
      w₁.live? k = some { f with buf_ := p, length_ := f.length_+1, capacity_ := f.room first } ∧
      w₁.live? j = some g ∧ f.room first < 2^32 := by
  have hsmall : f.room first < 2^32 := by
    have hfirst := hc.lt
    rw [Fields.room]
    split
    · exact f.newCap_small first (by omega) hw.bound_lt
    · exact hw.capacity_lt
  obtain ⟨p,hfields⟩ := (hc.append _ _ _ _ _).of_room_for hroom hr
  obtain ⟨w₁,hstep,hcall₁,hf₁,hothers⟩ := step_iterates (w:=w.begun k j) rfl hf hg hi hr
  refine ⟨w₁,p,hstep,hcall₁,?_,(hothers j hne.symm).trans hg,hsmall⟩
  have hlen : u32 (f.length_+1) = f.length_+1 := Nat.mod_eq_of_lt (by omega)
  rw [hf₁,World.appended,hfields,Fields.longer,hlen]

variable (hcall : w.call = none)
include hcall

/-- When the first element decides, a call does all or nothing. -/
theorem Growth.allOrNothing (hne : k ≠ j) (hw : f.Words) (hd : Decided first f g.length_) :
    AppendsAllOrNothing c w k j f g := by
  cases hv : f.valid_ with
  | false => exact allOrNothing_of_invalid hcall hf hg hv
  | true =>
    have hle := length_le_raw g
    have hlen : f.length = f.length_ := if_pos hv
    have hbound : f.bound = f.bound_ := if_pos hv
    -- an object that is not full is within its bound in the end
    have hwithin : ¬f.Full → f.bound_ ≠ unboundedSentinel → f.length_+g.length_ ≤ f.bound_ := by
      intro hfull hs
      cases hd with
      | invalid hv' => simp [hv] at hv'
      | full hb => exact absurd hb hfull
      | unmanaged _ hs' => exact absurd hs' hs
      | fits hb => exact hb hs
    rcases Nat.eq_zero_or_pos g.length_ with hz | hi
    · refine (allOrNothing_of_empty hcall hf hg hv hz).mpr fun hs => ?_
      cases hd with
      | invalid hv' => simp [hv] at hv'
      | full _ hn => exact absurd hz hn
      | unmanaged _ hs' => exact absurd hs' hs
      | fits hb => exact (Nat.le_add_right _ _).trans (hb hs)
    · intro oks w' hreturns
      obtain ⟨ok,oks',-,h,hreturned⟩ := (returns_of_valid hcall hf hg hv).mp hreturns
      by_cases hr : ((w.begun k j).appended c k 0 f g ok).returned = some .noError
      · obtain ⟨-,hfull,-⟩ := (hc.append _ _ _ _ _).of_noError hr
        have hroom : f.length_+g.length_ ≤ f.room first := by
          cases hd with
          | invalid hv' => simp [hv] at hv'
          | full hb => exact absurd hb hfull
          | unmanaged hm _ hn => exact absurd hr ((hc.append _ _ _ _ _).of_unmanaged hn hm)
          | fits _ hn => exact hn.resolve_left (Nat.ne_of_gt hi)
        obtain ⟨w₁,p,hstep,hcall₁,hf₁,hg₁,hsmall⟩ := hc.step_begun hf hg hne hw hi (by omega) hr
        rw [hstep] at h
        refine .of_noError (hc.noError_of_fits (r:=g.length_-1) hcall₁ hne hf₁ hg₁ hv (by omega)
          (fun hs => ?_) ?_ hsmall h hreturned) fun hs => ?_
        · have := hwithin hfull hs
          show f.length_+1+_ ≤ f.bound_
          omega
        · show f.length_+1+_ ≤ f.room first
          omega
        · have := hwithin hfull ((isBounded_of_valid hv).mp hs)
          omega
      · refine hc.allOrNothing_of_failed hf hg hi hr (fun hs hlt => ⟨hv,?_⟩) h
        by_contra hfull
        have := hwithin hfull ((isBounded_of_valid hv).mp hs)
        omega

/-- When it does not, a call may append some of the elements and fail, or report no error where the
bound is exceeded. -/
theorem Growth.decided (hne : k ≠ j) (hw : f.Words) (hm : f.Moderate)
    (h : AppendsAllOrNothing c w k j f g) : Decided first f g.length_ := by
  by_contra hd
  have hv : f.valid_ = true := by
    by_contra hv
    exact hd (.invalid (by simpa using hv))
  rcases Nat.eq_zero_or_pos g.length_ with hz | hi
  · refine hd (.fits (fun hs => ?_) (.inl hz))
    rw [hz]
    exact (allOrNothing_of_empty hcall hf hg hv hz).mp h hs
  · have hfull : ¬f.Full := fun hb => hd (.full hb (Nat.ne_of_gt hi))
    have hunmanaged : f.managed_ = false → f.length_ < f.capacity_ := fun hm => by
      by_contra hn
      have hcap := hw.unmanaged hm
      refine hd (.unmanaged hm ?_ (Nat.le_of_not_lt hn))
      by_contra hs
      exact hfull ⟨hs,by omega⟩
    have hroom := lt_room hc.pos hm hfull hunmanaged
    have hr : ((w.begun k j).appended c k 0 f g true).returned = some .noError :=
      (hc.append _ _ _ _ _).of_true hv hfull hunmanaged
    obtain ⟨w₁,p,hstep,hcall₁,hf₁,hg₁,hsmall⟩ := hc.step_begun hf hg hne hw hi hroom hr
    have hshort : ¬((f.bound_ ≠ unboundedSentinel → f.length_+g.length_ ≤ f.bound_) ∧
        f.length_+g.length_ ≤ f.room first) := fun hfits => hd (.fits hfits.1 (.inr hfits.2))
    obtain ⟨r,hgr⟩ : ∃ r, g.length_ = 1+(r+1) := by
      refine ⟨g.length_-2,?_⟩
      by_contra hone
      refine hshort ⟨fun hs => ?_,by omega⟩
      by_contra hlt
      exact hfull ⟨hs,by omega⟩
    have hsum : f.length_+g.length_ = f.length_+1+(r+1) := by omega
    rw [hsum] at hshort
    obtain ⟨oks,w',hnexts,hreturned,hfailed,f',hf',hv',hlonger⟩ :=
      hc.fails_of_short hcall₁ hne hf₁ hg₁ hv hgr.symm hshort hsmall fun hm' =>
        room_lt hc.lt (hm hm').2
    have hreturns : Returns c w k j (true::oks) w' := by
      refine (returns_of_valid hcall hf hg hv).mpr ⟨_,_,rfl,?_,hreturned⟩
      rw [hstep]
      exact hnexts
    obtain ⟨f'',hf'',hlen,-⟩ := (h _ _ hreturns).unchanged hfailed
    obtain rfl := Option.some.inj (hf'.symm.trans hf'')
    rw [Fields.length,Fields.length,if_pos hv,if_pos hv'] at hlen
    exact absurd hlonger (by
      rw [hlen]
      exact Nat.not_succ_le_self _)

end

/-- For two different objects in any reachable state. -/
theorem Growth.appendsAllOrNothing_iff {c : Class α κ} {first : ℕ} (hc : Growth c first)
    {e : Execution (step c) World.init} {w : World α} (hw : w ∈ e.visited) (hcall : w.call = none)
    {k j : ℕ} (hne : k ≠ j) {f g : Fields} (hf : w.live? k = some f) (hg : w.live? j = some g) :
    (Decided first f g.length_ → AppendsAllOrNothing c w k j f g) ∧
      (f.Moderate → (AppendsAllOrNothing c w k j f g ↔ Decided first f g.length_)) :=
  have hall := hc.allOrNothing hf hg hcall hne (hc.words hw hf)
  ⟨hall,fun hm => ⟨hc.decided hf hg hcall hne (hc.words hw hf) hm,hall⟩⟩

end Blush.Storage
