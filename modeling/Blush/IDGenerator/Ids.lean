import Blush.Lib.Transition
import Blush.IDGenerator.Model

/-! The ids of fewer than `2^w` calls are different. One of them is zero if the calls go on until the
counter comes to it, which an initial value below zero makes happen soon. -/
namespace Blush.IDGenerator
open MachineInt Transition
variable {θ : Type} {T : IntegralType}

def Act.fetches : Act θ → Bool
  | .fetchAdd _ => true
  | .ret _ => false

/-- How many calls of `Next` have got their ids in a run. -/
def calls (steps : List (World θ × Act θ)) : ℕ := steps.countP fun p => p.2.fetches

/-- The ids that were returned are different, and none is the sentinel. -/
def World.Distinct (w : World θ) : Prop := w.returned.Nodup ∧ 0 ∉ w.returned

/-- No call is between its `fetch_add` and its return. -/
def World.Quiet (w : World θ) : Prop := ∀ t, w.fetched t = none

/-- How many calls there are before the one that gets zero. -/
def untilZero (T : IntegralType) (initial : ℤ) : ℤ := (-initial) % 2^T.width

theorem calls_concat {steps : List (World θ × Act θ)} {w : World θ} {a : Act θ} :
    calls (steps ++ [(w,a)]) = calls steps+a.fetches.toNat := by
  rw [calls,List.countP_append]
  cases h : a.fetches <;> simp [calls,h]

/-! ## The ids by the order of the calls -/

/-- The id of the call number `k`. -/
def idOf (T : IntegralType) (initial : ℤ) (k : ℕ) : ℤ := T.wrap (initial+k)

/-- After `n` calls; those that have returned, by their numbers, and that of a thread in a call. -/
structure Numbered (T : IntegralType) (initial : ℤ) (w : World θ) (n : ℕ) (done : List ℕ)
    (number : θ → ℕ) : Prop where
  next : w.next = idOf T initial n
  returned : w.returned = done.map (idOf T initial)
  once : done.Nodup
  issued : ∀ k ∈ done, k < n
  fetched : ∀ t value, w.fetched t = some value →
    value = idOf T initial (number t) ∧ number t < n ∧ number t ∉ done
  apart : ∀ t t', w.fetched t ≠ none → w.fetched t' ≠ none → number t = number t' → t = t'
  all : ∀ k < n, k ∈ done ∨ ∃ t, w.fetched t ≠ none ∧ number t = k

namespace Numbered
variable [DecidableEq θ] {initial : ℤ} {w w' : World θ} {n : ℕ} {done : List ℕ}
  {number : θ → ℕ} {t : θ}

omit [DecidableEq θ] in
theorem create (h : T.Holds initial) :
    Numbered T initial (.create initial : World θ) 0 [] fun _ => 0 where
  next := by simp [World.create,idOf,IntegralType.wrap_of_holds h]
  returned := rfl
  once := List.nodup_nil
  issued := by simp
  fetched := by simp [World.create]
  apart := by simp [World.create]
  all := by simp

/-- A thread gets the number of the calls before. -/
theorem fetchAdd (h : Numbered T initial w n done number) (ht : w.fetched t = none) :
    Numbered T initial { w with
        next := T.wrap (w.next+1)
        fetched := Function.update w.fetched t (some w.next) } (n+1) done
      (Function.update number t n) where
  next := by
    show T.wrap (w.next+1) = idOf T initial (n+1)
    rw [h.next,idOf,idOf,IntegralType.wrap_add_wrap,Nat.cast_succ,add_assoc]
  returned := h.returned
  once := h.once
  issued k hk := Nat.lt_succ_of_lt (h.issued k hk)
  fetched u value hu := by
    replace hu : Function.update w.fetched t (some w.next) u = some value := hu
    by_cases hut : u = t
    · subst u
      rw [Function.update_self] at hu ⊢
      obtain rfl := Option.some.inj hu
      exact ⟨h.next,Nat.lt_succ_self n,fun hn => (h.issued n hn).ne rfl⟩
    · rw [Function.update_of_ne hut] at hu ⊢
      obtain ⟨hvalue,hlt,hn⟩ := h.fetched u value hu
      exact ⟨hvalue,Nat.lt_succ_of_lt hlt,hn⟩
  apart u u' hu hu' he := by
    have hne {u : θ} (hut : u ≠ t) (hu : Function.update w.fetched t (some w.next) u ≠ none) :
        w.fetched u ≠ none ∧ number u < n := by
      rw [Function.update_of_ne hut] at hu
      obtain ⟨value,hvalue⟩ := Option.ne_none_iff_exists'.mp hu
      exact ⟨hu,(h.fetched u value hvalue).2.1⟩
    by_cases hut : u = t <;> by_cases hut' : u' = t
    · rw [hut,hut']
    · rw [hut,Function.update_self,Function.update_of_ne hut'] at he
      exact absurd he (hne hut' hu').2.ne'
    · rw [hut',Function.update_self,Function.update_of_ne hut] at he
      exact absurd he (hne hut hu).2.ne
    · rw [Function.update_of_ne hut,Function.update_of_ne hut'] at he
      exact h.apart u u' (hne hut hu).1 (hne hut' hu').1 he
  all k hk := by
    rcases Nat.lt_succ_iff_lt_or_eq.mp hk with hk | rfl
    · refine (h.all k hk).imp_right fun ⟨u,hu,he⟩ => ⟨u,?_⟩
      have hut : u ≠ t := fun hut => hu (hut ▸ ht)
      show Function.update w.fetched t (some w.next) u ≠ none ∧ Function.update number t n u = k
      rw [Function.update_of_ne hut,Function.update_of_ne hut]
      exact ⟨hu,he⟩
    · exact .inr ⟨t,by simp,Function.update_self ..⟩

/-- A call returns. -/
theorem ret (h : Numbered T initial w n done number) {value : ℤ}
    (ht : w.fetched t = some value) :
    Numbered T initial { w with
        fetched := Function.update w.fetched t none
        returned := w.returned ++ [value] } n (done ++ [number t]) number := by
  obtain ⟨hvalue,hlt,hn⟩ := h.fetched t value ht
  have hne {u : θ} {fetched : ℤ} (hu : Function.update w.fetched t none u = some fetched) :
      u ≠ t ∧ w.fetched u = some fetched := by
    by_cases hut : u = t
    · rw [hut,Function.update_self] at hu
      contradiction
    · rw [Function.update_of_ne hut] at hu
      exact ⟨hut,hu⟩
  refine ⟨h.next,?_,?_,fun k hk => ?_,fun u fetched hu => ?_,fun u u' hu hu' => ?_,fun k hk => ?_⟩
  · show w.returned ++ [value] = _
    rw [h.returned,List.map_append,hvalue]
    rfl
  · exact List.nodup_append.mpr ⟨h.once,List.nodup_singleton _,fun k hk k' hk' he =>
      hn (List.mem_singleton.mp hk' ▸ he ▸ hk)⟩
  · rcases List.mem_append.mp hk with hk | hk
    · exact h.issued k hk
    · exact List.mem_singleton.mp hk ▸ hlt
  · obtain ⟨hut,hu⟩ := hne hu
    obtain ⟨hf,hlt',hn'⟩ := h.fetched u fetched hu
    refine ⟨hf,hlt',fun hm => ?_⟩
    rcases List.mem_append.mp hm with hm | hm
    · exact hn' hm
    · exact hut (h.apart u t (by simp [hu]) (by simp [ht]) (List.mem_singleton.mp hm))
  · obtain ⟨v,hv⟩ := Option.ne_none_iff_exists'.mp hu
    obtain ⟨v',hv'⟩ := Option.ne_none_iff_exists'.mp hu'
    exact h.apart u u' (by simp [(hne hv).2]) (by simp [(hne hv').2])
  · rcases h.all k hk with hk | ⟨u,hu,he⟩
    · exact .inl (List.mem_append_left _ hk)
    · by_cases hut : u = t
      · exact .inl (List.mem_append_right _ (by simp [← he,hut]))
      · refine .inr ⟨u,?_,he⟩
        show Function.update w.fetched t none u ≠ none
        rwa [Function.update_of_ne hut]

theorem step {a : Act θ} (h : Numbered T initial w n done number)
    (hs : IDGenerator.step T w a = some w') :
    ∃ done' number', Numbered T initial w' (n+a.fetches.toNat) done' number' := by
  cases a with
  | fetchAdd t =>
    obtain ⟨ht,hs⟩ := Option.ite_none_right_eq_some.mp hs
    obtain rfl := Option.some.inj hs
    exact ⟨_,_,h.fetchAdd ht⟩
  | ret t =>
    obtain ⟨value,ht,rfl⟩ := Option.map_eq_some_iff.mp hs
    exact ⟨_,_,h.ret ht⟩

end Numbered

theorem run_numbered [DecidableEq θ] {initial : ℤ} {steps : List (World θ × Act θ)} {w : World θ}
    (hi : T.Holds initial) (h : Run (step T) (.create initial) steps w) :
    ∃ done number, Numbered T initial w (calls steps) done number := by
  induction h with
  | refl => exact ⟨_,_,.create hi⟩
  | next before hs ih =>
    obtain ⟨done,number,h⟩ := ih
    rw [calls_concat]
    exact h.step hs

/-! ## Zero -/

section
variable {initial : ℤ} {k n : ℕ}

/-- Fewer than `2^w` calls get different ids. -/
theorem idOf_inj {k' : ℕ} (hk : k < 2^T.width) (hk' : k' < 2^T.width)
    (h : idOf T initial k = idOf T initial k') : k = k' := by
  have hdvd := IntegralType.wrap_eq_wrap_iff.mp h
  rw [add_sub_add_left_eq_sub] at hdvd
  have hlt : |(k:ℤ)-k'| < 2^T.width := by
    have hpow : ((2^T.width : ℕ) : ℤ) = 2^T.width := by push_cast; rfl
    rw [abs_lt]
    omega
  exact_mod_cast sub_eq_zero.mp (Int.eq_zero_of_abs_lt_dvd hdvd hlt)

theorem idOf_eq_zero_iff (hk : k < 2^T.width) : idOf T initial k = 0 ↔ k = untilZero T initial := by
  have hpow : ((2^T.width : ℕ) : ℤ) = 2^T.width := by push_cast; rfl
  have hk' : (k:ℤ) % 2^T.width = k := Int.emod_eq_of_lt (Int.natCast_nonneg k) (by omega)
  rw [idOf,IntegralType.wrap_eq_zero_iff,untilZero,← hk',Int.emod_eq_emod_iff_emod_sub_eq_zero,
    ← Int.dvd_iff_emod_eq_zero,hk',sub_neg_eq_add,add_comm]

/-- In a run of fewer than `2^w` calls the ids that were returned are different, and zero is one of
them exactly if the call that gets it has returned. -/
theorem Numbered.distinct_iff {w : World θ} {done : List ℕ} {number : θ → ℕ}
    (h : Numbered T initial w n done number) (hn : n ≤ 2^T.width) :
    w.Distinct ↔ ∀ k ∈ done, (k:ℤ) ≠ untilZero T initial := by
  have hlt {k : ℕ} (hk : k ∈ done) : k < 2^T.width := (h.issued k hk).trans_le hn
  have hnodup : (done.map (idOf T initial)).Nodup :=
    h.once.map_on fun k hk k' hk' he => idOf_inj (hlt hk) (hlt hk') he
  rw [World.Distinct,h.returned,and_iff_right hnodup,List.mem_map]
  constructor
  · intro hzero k hk he
    exact hzero ⟨k,hk,(idOf_eq_zero_iff (hlt hk)).mpr he⟩
  · rintro hne ⟨k,hk,he⟩
    exact hne k hk ((idOf_eq_zero_iff (hlt hk)).mp he)

theorem untilZero_nonneg (T : IntegralType) (initial : ℤ) : 0 ≤ untilZero T initial :=
  Int.emod_nonneg _ (by positivity)

end

variable [DecidableEq θ]

/-- In every run of fewer than `2^w` calls the ids are different and not zero if there are no more
calls than it takes to come to zero; and where all calls have returned, only if. -/
theorem ids_iff {T : IntegralType} (initial : Initial T)
    (e : Execution (step T) (World.create initial.value : World θ))
    (hcalls : calls e.steps < 2^T.width) :
    (calls e.steps ≤ untilZero T initial.value → ∀ w ∈ e.visited, w.Distinct) ∧
      (e.final.Quiet → ((∀ w ∈ e.visited, w.Distinct) ↔
        calls e.steps ≤ untilZero T initial.value)) := by
  have hkeeps (hle : calls e.steps ≤ untilZero T initial.value) : ∀ w ∈ e.visited, w.Distinct := by
    refine e.forall_visited fun steps w hp hrun => ?_
    obtain ⟨done,number,h⟩ := run_numbered initial.holds hrun
    have hsteps : calls steps ≤ calls e.steps := hp.sublist.countP_le
    refine (h.distinct_iff (by omega)).mpr fun k hk => ?_
    have := h.issued k hk
    omega
  refine ⟨hkeeps,fun hquiet => ⟨fun hdistinct => ?_,hkeeps⟩⟩
  obtain ⟨done,number,h⟩ := run_numbered initial.holds e.run
  have hne := (h.distinct_iff hcalls.le).mp (hdistinct _ e.final_mem_visited)
  by_contra hlt
  -- the call that gets zero was made, and it has returned
  obtain ⟨k,hk⟩ := Int.eq_ofNat_of_zero_le (untilZero_nonneg T initial.value)
  rcases h.all k (by omega) with hdone | ⟨t,ht,-⟩
  · exact hne k hdone hk.symm
  · exact ht (hquiet t)

/-- Two threads with a generator of 32-bit ids from 1 on. -/
def fromOne : Initial ⟨32,true⟩ := ⟨1,by decide,by decide⟩

def twoThreads : Execution (step ⟨32,true⟩) (World.create fromOne.value : World Bool) :=
  .ofLabels [.fetchAdd true,.fetchAdd false,.ret false,.ret true] (by decide)

theorem twoThreads_distinct :
    calls twoThreads.steps ≤ untilZero ⟨32,true⟩ fromOne.value ∧ twoThreads.final.Distinct := by
  have hle : calls twoThreads.steps ≤ untilZero ⟨32,true⟩ fromOne.value := by decide
  exact ⟨hle,(ids_iff fromOne twoThreads (by decide)).1 hle _ twoThreads.final_mem_visited⟩

/-- The second id from -1 on is zero. -/
def fromMinusOne : Initial ⟨32,true⟩ := ⟨-1,by decide,by decide⟩

def twoCalls : Execution (step ⟨32,true⟩) (World.create fromMinusOne.value : World Unit) :=
  .ofLabels [.fetchAdd (),.ret (),.fetchAdd (),.ret ()] (by decide)

theorem twoCalls_not_distinct :
    calls twoCalls.steps < 2^32 ∧ ¬∀ w ∈ twoCalls.visited, w.Distinct := by
  refine ⟨by decide,fun h => ?_⟩
  have hzero := (h _ twoCalls.final_mem_visited).2
  exact absurd hzero (by decide)

end Blush.IDGenerator
