import Blush.Lib.Interleave
import Blush.TaskScheduler.Pass
import Mathlib.Algebra.BigOperators.Fin

/-! What one pass does with the entries of the heap when no fire time overflows: every
occurrence that is due gets its turn, and the next one stays. -/
namespace Blush.TaskScheduler
open Function Heap MachineInt Interleave Slots
variable {H : Algorithms ScheduledItem.nextFireTime} {now : TimePoint} {loads : ℕ → Loads}
  {heap : MinHeap ScheduledItem.nextFireTime} {item x : ScheduledItem} {p p' : Pass} {l : Loads}
  {course : List (ScheduledItem × Turn)} {rest : List ScheduledItem}

namespace ScheduledItem

/-- The item `k` periods later, without regard to the range of a time point. -/
def occurrence (item : ScheduledItem) (k : ℕ) : ScheduledItem :=
  { item with nextFireTime := item.nextFireTime+k*item.period }

/-- The first occurrences with their turns. -/
def occurrences (item : ScheduledItem) (turns : List Turn) : List (ScheduledItem × Turn) :=
  turns.mapIdx fun k t => (item.occurrence k,t)

/-- The period is positive, and no addition made for an occurrence that is due overflows. -/
structure Regular (now : TimePoint) (item : ScheduledItem) : Prop where
  period : 0 < item.period
  fits : ∀ k, (item.occurrence k).nextFireTime ≤ now →
    Fits 64 (item.occurrence (k+1)).nextFireTime

end ScheduledItem

/-- What the loop has done so far with one entry of the heap: the turns of its occurrences, and
the entries that are left of it. A repeating item gets its turns in order and one period apart
until its task is found cancelled. -/
inductive Cadence (now : TimePoint) (item : ScheduledItem) :
    List (ScheduledItem × Turn) → List ScheduledItem → Prop
  | waiting (hr : item.repeating = false) : Cadence now item [] [item]
  | oneShot (hr : item.repeating = false) (hd : item.nextFireTime ≤ now) {t : Turn}
      (ht : t ≠ .skipped) : Cadence now item [(item,t)] []
  | recurring (hr : item.repeating = true) {turns : List Turn}
      (hd : ∀ k < turns.length, (item.occurrence k).nextFireTime ≤ now)
      (ht : .discarded ∉ turns) :
      Cadence now item (item.occurrences turns) [item.occurrence turns.length]
  | cancelled (hr : item.repeating = true) {turns : List Turn}
      (hd : ∀ k ≤ turns.length, (item.occurrence k).nextFireTime ≤ now)
      (ht : .discarded ∉ turns) : Cadence now item (item.occurrences (turns ++ [.discarded])) []

/-- What the pass as a whole does with one entry. An entry that is not due is left alone, a
one-shot item that is due has its turn, and a repeating item has the turns of its due
occurrences and stays with the first one that is not due, unless its task is found cancelled. -/
inductive Outcome (now : TimePoint) (item : ScheduledItem) :
    List (ScheduledItem × Turn) → List ScheduledItem → Prop
  | notDue (hn : now < item.nextFireTime) : Outcome now item [] [item]
  | oneShot (hr : item.repeating = false) (hd : item.nextFireTime ≤ now) {t : Turn}
      (ht : t ≠ .skipped) : Outcome now item [(item,t)] []
  | recurring (hr : item.repeating = true) (hd : item.nextFireTime ≤ now) {turns : List Turn}
      (hdue : ∀ k < turns.length, (item.occurrence k).nextFireTime ≤ now)
      (hn : now < (item.occurrence turns.length).nextFireTime) (ht : .discarded ∉ turns) :
      Outcome now item (item.occurrences turns) [item.occurrence turns.length]
  | cancelled (hr : item.repeating = true) (hd : item.nextFireTime ≤ now) {turns : List Turn}
      (hdue : ∀ k ≤ turns.length, (item.occurrence k).nextFireTime ≤ now)
      (ht : .discarded ∉ turns) : Outcome now item (item.occurrences (turns ++ [.discarded])) []

/-- The closures handed to the runner, by their items. -/
def Pass.handed (p : Pass) : List ScheduledItem :=
  (p.turns.filter fun x => x.2 = .dispatched).map Prod.fst

/-- Every entry of the heap the pass was entered with has its own share of the turns, in order,
and the heap holds what is left of the entries. -/
def Pass.Shared
    (R : ScheduledItem → List (ScheduledItem × Turn) → List ScheduledItem → Prop)
    (heap : MinHeap ScheduledItem.nextFireTime) (p : Pass) : Prop :=
  ∃ (courses : Fin heap.items.length → List (ScheduledItem × Turn))
    (rests : Fin heap.items.length → List ScheduledItem),
    (∀ i, R (heap.items.get i) (courses i) (rests i)) ∧
    Interleaves courses p.turns ∧
    (p.heap.items : Multiset ScheduledItem) = ∑ i, (rests i : Multiset ScheduledItem)

/-- The pass is over and has done its work: no entry is due any more, every entry has had the
turns of its due occurrences, the turns went by the loads, and the closures were handed over in
the order of their fire times. -/
structure Pass.Complete (now : TimePoint) (loads : ℕ → Loads)
    (heap : MinHeap ScheduledItem.nextFireTime) (p : Pass) : Prop where
  ended : p.Ended now
  later : ∀ y ∈ p.heap.items, now < y.nextFireTime
  shared : p.Shared (Outcome now) heap
  turns : ∀ (k : ℕ) (x : ScheduledItem) (t : Turn), p.turns[k]? = some (x,t) → t = x.turn (loads k)
  sorted : (p.handed.map (·.nextFireTime)).Pairwise (· ≤ ·)

/-! ## Occurrences -/

namespace ScheduledItem

@[simp] theorem occurrence_zero (item : ScheduledItem) : item.occurrence 0 = item := by
  simp [occurrence]

@[simp] theorem occurrence_repeating (item : ScheduledItem) (k : ℕ) :
    (item.occurrence k).repeating = item.repeating := rfl

theorem occurrence_occurrence (item : ScheduledItem) (j k : ℕ) :
    (item.occurrence j).occurrence k = item.occurrence (j+k) := by
  simp only [occurrence,Nat.cast_add]
  congr 1
  ring

@[simp] theorem occurrences_nil (item : ScheduledItem) : item.occurrences [] = [] := rfl

theorem occurrences_concat (item : ScheduledItem) (turns : List Turn) (t : Turn) :
    item.occurrences (turns ++ [t]) =
      item.occurrences turns ++ [(item.occurrence turns.length,t)] :=
  List.mapIdx_concat

/-- Without overflow the item that is put back is the next occurrence. -/
theorem next_eq_occurrence (h : Fits 64 (item.occurrence 1).nextFireTime) :
    item.next = item.occurrence 1 := by
  have hone : (item.occurrence 1).nextFireTime = item.nextFireTime+item.period := by
    simp [occurrence]
  rw [hone] at h
  simp [next,occurrence,TimePoint.add,wrap_of_fits h]

namespace Regular

theorem occurrence (h : item.Regular now) (j : ℕ) : (item.occurrence j).Regular now := by
  refine ⟨h.period,fun k hk => ?_⟩
  rw [occurrence_occurrence] at hk ⊢
  exact h.fits (j+k) hk

theorem next_occurrence (h : item.Regular now) {k : ℕ}
    (hd : (item.occurrence k).nextFireTime ≤ now) :
    (item.occurrence k).next = item.occurrence (k+1) := by
  have hk := h.fits k hd
  rw [← occurrence_occurrence] at hk
  rw [next_eq_occurrence hk,occurrence_occurrence]

theorem next_eq (h : item.Regular now) (hd : item.nextFireTime ≤ now) :
    item.next = item.occurrence 1 := by
  have hnext := h.next_occurrence (k:=0) (by simpa using hd)
  rwa [occurrence_zero] at hnext

/-- As long as the occurrences before are due the recurrences are exact. -/
theorem iterate_eq (h : item.Regular now) {k : ℕ}
    (hd : ∀ j < k, (item.occurrence j).nextFireTime ≤ now) :
    ScheduledItem.next^[k] item = item.occurrence k := by
  induction k with
  | zero => simp
  | succ k ih =>
    rw [iterate_succ_apply',ih fun j hj => hd j (by omega)]
    exact h.next_occurrence (hd k (by omega))

/-- A positive period takes the item past every clock reading. -/
theorem settles (h : item.Regular now) : item.Settles now := by
  have hex : ∃ k, now < (item.occurrence k).nextFireTime := by
    refine ⟨(now-item.nextFireTime).toNat+1,?_⟩
    have hp : 1 ≤ item.period := h.period
    have hmul := le_mul_of_one_le_right
      (Int.natCast_nonneg ((now-item.nextFireTime).toNat+1)) hp
    have hle := Int.self_le_toNat (now-item.nextFireTime)
    have hfire : (item.occurrence ((now-item.nextFireTime).toNat+1)).nextFireTime =
        item.nextFireTime+((now-item.nextFireTime).toNat+1 : ℕ)*item.period := rfl
    rw [hfire]
    push_cast at hmul ⊢
    linarith
  have hmin : ∀ j < Nat.find hex, (item.occurrence j).nextFireTime ≤ now :=
    fun j hj => not_lt.mp (Nat.find_min hex hj)
  refine ⟨Nat.find hex,?_⟩
  rw [h.iterate_eq hmin]
  exact Nat.find_spec hex

end Regular
end ScheduledItem

/-! ## The entries -/

namespace Cadence

/-- At most one entry is left. -/
theorem eq_singleton (h : Cadence now item course rest) (hx : x ∈ rest) : rest = [x] := by
  cases h with
  | waiting => rw [List.mem_singleton.mp hx]
  | recurring => rw [List.mem_singleton.mp hx]
  | oneShot | cancelled => cases hx

/-- The start of the pass. -/
theorem start (now : TimePoint) (item : ScheduledItem) : Cadence now item [] [item] := by
  cases hr : item.repeating with
  | false => exact .waiting hr
  | true =>
    have hrec : Cadence now item (item.occurrences []) [item.occurrence ([] : List Turn).length] :=
      recurring hr (by simp) (by simp)
    simpa using hrec

/-- The turn of the entry that is left. -/
theorem next (h : Cadence now item course [x]) (hreg : item.repeating = true → item.Regular now)
    (hd : x.nextFireTime ≤ now) (l : Loads) :
    Cadence now item (course ++ [(x,x.turn l)]) (x.remains (x.turn l)) := by
  generalize hrest : [x] = rest at h
  cases h with
  | waiting hr =>
    obtain rfl := List.singleton_inj.mp hrest
    have hskip : x.turn l ≠ .skipped := by
      unfold ScheduledItem.turn
      split <;> simp [hr]
    have hone : Cadence now x [(x,x.turn l)] [] := oneShot hr hd hskip
    simpa [ScheduledItem.remains,hr] using hone
  | oneShot => cases hrest
  | @recurring hr turns hdue ht =>
    obtain rfl := List.singleton_inj.mp hrest
    rw [← ScheduledItem.occurrences_concat]
    by_cases hc : (item.occurrence turns.length).turn l = .discarded
    · rw [hc]
      have hall : ∀ k ≤ turns.length, (item.occurrence k).nextFireTime ≤ now := by
        intro k hk
        rcases hk.lt_or_eq with hk | rfl
        · exact hdue k hk
        · exact hd
      simpa [ScheduledItem.remains] using cancelled hr hall ht
    · have hall : ∀ k < (turns ++ [(item.occurrence turns.length).turn l]).length,
          (item.occurrence k).nextFireTime ≤ now := by
        intro k hk
        rw [List.length_append,List.length_singleton] at hk
        rcases (Nat.lt_succ_iff.mp hk).lt_or_eq with hk | rfl
        · exact hdue k hk
        · exact hd
      have hnot : Turn.discarded ∉ turns ++ [(item.occurrence turns.length).turn l] := by
        simp [ht,Ne.symm hc]
      have hrec := recurring hr hall hnot
      rw [List.length_append,List.length_singleton] at hrec
      simpa [ScheduledItem.remains,hr,hc,(hreg hr).next_occurrence hd] using hrec
  | cancelled => cases hrest

/-- At the end of the pass no entry is left that is due. -/
theorem outcome (h : Cadence now item course rest) (hn : ∀ x ∈ rest, now < x.nextFireTime) :
    Outcome now item course rest := by
  cases h with
  | waiting => exact .notDue (hn _ (by simp))
  | oneShot hr hd ht => exact .oneShot hr hd ht
  | @recurring hr turns hdue ht =>
    have hlast := hn _ (List.mem_singleton_self _)
    by_cases hd : item.nextFireTime ≤ now
    · exact .recurring hr hd hdue hlast ht
    · have hnil : turns = [] := by
        by_contra hne
        have hzero := hdue 0 (List.length_pos_iff.mpr hne)
        rw [ScheduledItem.occurrence_zero] at hzero
        exact hd hzero
      subst hnil
      simpa using Outcome.notDue (not_le.mp hd)
  | cancelled hr hdue ht =>
    have hzero := hdue 0 (Nat.zero_le _)
    rw [ScheduledItem.occurrence_zero] at hzero
    exact .cancelled hr hzero hdue ht

end Cadence

theorem shared_start (now : TimePoint) (heap : MinHeap ScheduledItem.nextFireTime) :
    Pass.Shared (Cadence now) heap { heap, turns := [] } := by
  refine ⟨fun _ => [],fun i => [heap.items.get i],fun i => Cadence.start now _,.nil,?_⟩
  have hsum := Fin.sum_univ_fun_getElem heap.items fun x => ({x} : Multiset ScheduledItem)
  have hbag := Multiset.sum_map_singleton (heap.items : Multiset ScheduledItem)
  rw [Multiset.map_coe,Multiset.sum_coe,← hsum] at hbag
  exact hbag.symm

theorem Pass.Shared.outcome (h : p.Shared (Cadence now) heap)
    (hn : ∀ y ∈ p.heap.items, now < y.nextFireTime) : p.Shared (Outcome now) heap := by
  obtain ⟨courses,rests,hcad,hturns,hheap⟩ := h
  refine ⟨courses,rests,fun i => (hcad i).outcome fun x hx => hn x ?_,hturns,hheap⟩
  rw [← Multiset.mem_coe,hheap]
  exact Multiset.mem_sum.mpr ⟨i,Finset.mem_univ i,Multiset.mem_coe.mpr hx⟩

theorem iteration_shared (hreg : ∀ item ∈ heap.items, item.repeating = true → item.Regular now)
    (hi : p.Shared (Cadence now) heap) (h : iteration H now p l = some p') :
    p'.Shared (Cadence now) heap := by
  obtain ⟨courses,rests,hcad,hturns,hheap⟩ := hi
  obtain ⟨x,rest,hpop,hd,ht,hperm⟩ := iteration_spec h
  have hitems := Multiset.coe_eq_coe.mpr (MinHeap.pop_spec H hpop).2
  -- the popped item is the entry that is left of some entry of the first heap
  have hmem : x ∈ ∑ i, (rests i : Multiset ScheduledItem) := by
    rw [← hheap,hitems]
    simp
  obtain ⟨i,-,hx⟩ := Multiset.mem_sum.mp hmem
  have hone := (hcad i).eq_singleton (Multiset.mem_coe.mp hx)
  have hnext := (hone ▸ hcad i).next (hreg _ (List.get_mem ..)) hd l
  refine ⟨update courses i (courses i ++ [(x,x.turn l)]),update rests i (x.remains (x.turn l)),
    fun j => ?_,ht ▸ hturns.concat i _,?_⟩
  · by_cases hj : j = i
    · subst hj
      simpa using hnext
    · simpa [hj] using hcad j
  · have hshare : (rests i : Multiset ScheduledItem)+(rest.items : Multiset ScheduledItem) =
        (x::rest.items : Multiset ScheduledItem) := by simp [hone]
    have hsum := sum_update (fun j => (rests j : Multiset ScheduledItem)) i
      (x.remains (x.turn l)) hshare (hitems.symm.trans hheap)
    rw [Multiset.coe_eq_coe.mpr hperm,← Multiset.coe_add,hsum]
    apply Finset.sum_congr rfl
    intro j _
    by_cases hj : j = i
    · subst hj
      simp
    · simp [hj]

/-! ## The order of the turns -/

/-- The turns went in the order of the fire times, and what is in the heap comes after them. -/
def Pass.Ordered (p : Pass) : Prop :=
  (p.turns.map (·.1.nextFireTime)).Pairwise (· ≤ ·) ∧
    ∀ t ∈ p.turns, ∀ y ∈ p.heap.items, t.1.nextFireTime ≤ y.nextFireTime

theorem iteration_regular (hi : ∀ y ∈ p.heap.items, y.repeating = true → y.Regular now)
    (h : iteration H now p l = some p') :
    ∀ y ∈ p'.heap.items, y.repeating = true → y.Regular now := by
  obtain ⟨x,hx,hd,-,-,hmem⟩ := iteration_mem h
  intro y hy hr
  rcases hmem y hy with hy | ⟨hxr,rfl⟩
  · exact hi y hy hr
  · have hreg := hi x hx hxr
    rw [hreg.next_eq hd]
    exact hreg.occurrence 1

theorem iteration_ordered (hreg : ∀ y ∈ p.heap.items, y.repeating = true → y.Regular now)
    (hi : p.Ordered) (h : iteration H now p l = some p') : p'.Ordered := by
  obtain ⟨x,hx,hd,hfront,ht,hmem⟩ := iteration_mem h
  -- nothing that is put back comes before the item that was popped
  have hlater : ∀ y ∈ p'.heap.items, x.nextFireTime ≤ y.nextFireTime := by
    intro y hy
    rcases hmem y hy with hy | ⟨hxr,rfl⟩
    · exact hfront y hy
    · have hp := (hreg x hx hxr).period
      rw [(hreg x hx hxr).next_eq hd]
      simp only [ScheduledItem.occurrence]
      push_cast
      linarith
  constructor
  · rw [ht,List.map_append,List.pairwise_append]
    refine ⟨hi.1,List.pairwise_singleton _ _,?_⟩
    simp only [List.map_cons,List.map_nil,List.mem_singleton,List.mem_map]
    rintro _ ⟨t,hmem,rfl⟩ _ rfl
    exact hi.2 t hmem x hx
  · intro t hmem y hy
    rw [ht] at hmem
    rcases List.mem_append.mp hmem with hmem | hmem
    · exact (hi.2 t hmem x hx).trans (hlater y hy)
    · obtain rfl := List.mem_singleton.mp hmem
      exact hlater y hy

/-! ## The whole pass -/

theorem iteration_turns
    (hi : ∀ (k : ℕ) (x : ScheduledItem) (t : Turn), p.turns[k]? = some (x,t) → t = x.turn (loads k))
    (h : iteration H now p (loads p.turns.length) = some p') :
    ∀ (k : ℕ) (x : ScheduledItem) (t : Turn), p'.turns[k]? = some (x,t) → t = x.turn (loads k) := by
  obtain ⟨y,rest,-,-,ht,-⟩ := iteration_spec h
  intro k x t hk
  rw [ht] at hk
  rcases getElem?_concat_cases hk with ⟨rfl,he⟩ | hk
  · obtain ⟨rfl,rfl⟩ := Prod.mk.inj he
    rfl
  · exact hi k x t hk

theorem Pass.Ordered.handed (h : p.Ordered) :
    (p.handed.map (·.nextFireTime)).Pairwise (· ≤ ·) := by
  have hsub : (p.turns.filter fun x => x.2 = .dispatched).Sublist p.turns := List.filter_sublist
  have hpair := h.1.sublist (hsub.map (·.1.nextFireTime))
  rw [Pass.handed,List.map_map]
  exact hpair

/-- A pass that has ended has done the work of every entry. -/
theorem complete_of_ended (hreg : ∀ item ∈ heap.items, item.repeating = true → item.Regular now)
    {n : ℕ} (hend : (Pass.after H now loads heap n).Ended now) :
    (Pass.after H now loads heap n).Complete now loads heap := by
  have hordered := Pass.after_invariant H now loads heap
    (I:=fun p => (∀ y ∈ p.heap.items, y.repeating = true → y.Regular now) ∧ p.Ordered)
    ⟨hreg,List.Pairwise.nil,by simp⟩
    (fun p p' hi h => ⟨iteration_regular hi.1 h,iteration_ordered hi.1 hi.2 h⟩) n
  have hshared := Pass.after_invariant H now loads heap
    (I:=Pass.Shared (Cadence now) heap) (shared_start now heap)
    (fun p p' hi h => iteration_shared hreg hi h) n
  have hturns := Pass.after_invariant H now loads heap
    (I:=fun p => ∀ (k : ℕ) (x : ScheduledItem) (t : Turn),
      p.turns[k]? = some (x,t) → t = x.turn (loads k)) (by simp)
    (fun p p' hi h => iteration_turns hi h) n
  have hlater := Pass.ended_iff.mp hend
  exact ⟨hend,hlater,hshared.outcome hlater,hturns,hordered.2.handed⟩

/-- A pass over a heap whose repeating items have positive periods and do not overflow comes to
its end and does the work of every entry. -/
theorem pass_complete (H : Algorithms ScheduledItem.nextFireTime) (now : TimePoint)
    (heap : MinHeap ScheduledItem.nextFireTime) (loads : ℕ → Loads)
    (hreg : ∀ item ∈ heap.items, item.repeating = true → item.Regular now) :
    ∃ n, (Pass.after H now loads heap n).Complete now loads heap :=
  ⟨_,complete_of_ended hreg (ended_of_settles (fun item hx hr => (hreg item hx hr).settles) loads)⟩

/-- A period of 10 and a one-shot item, at a clock reading of 25. -/
def periodTen : MinHeap ScheduledItem.nextFireTime :=
  ⟨[(Request.repeating 0 10 .skip).item 0 0,(Request.at 5).item 0 1],
    isHeap_of_pairwise (by decide)⟩

theorem periodTen_complete : ∃ n, (Pass.after (insertionAlgorithms _) 25
    (fun _ => ⟨.scheduled,.running⟩) periodTen n).Complete 25 (fun _ => ⟨.scheduled,.running⟩)
    periodTen := by
  apply pass_complete
  intro item hx hr
  rcases List.mem_cons.mp hx with rfl | hx
  · refine ⟨by decide,fun k hk => ?_⟩
    have hk : (0:ℤ)+k*10 ≤ 25 := hk
    have hgoal : Fits 64 ((0:ℤ)+(k+1 : ℕ)*10) := by
      unfold Fits
      push_cast
      omega
    exact hgoal
  · obtain rfl := List.mem_singleton.mp hx
    cases hr

end Blush.TaskScheduler
