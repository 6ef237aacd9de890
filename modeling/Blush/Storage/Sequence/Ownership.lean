import Blush.Storage.Sequence.Step

/-! Who owns the buffers of sequences. The one way to lose track is an assignment that turns an
unmanaged object into a managed one and keeps its pointer. -/
namespace Blush.Storage.Sequence
open Memory Transition
variable {α : Type}

/-- A managed object has no buffer or a live block of its own, which is no other's; every `delete[]`
hit a live block of the object that executed it, and no block twice; a block of an object that was
not released is the buffer of that object; and the caller's memory is not released. -/
structure Owned (w : World α) : Prop where
  managed : ∀ k f, w.live? k = some f → f.managed_ = true → f.buf_ ≠ none →
    w.heap.memory.owner? f.buf_ = some (some k) ∧ w.heap.memory.live f.buf_ = true ∧
      ∀ j g, w.live? j = some g → g.managed_ = true → g.buf_ = f.buf_ → j = k
  deletes : ∀ d ∈ w.heap.deletes, d.live = true ∧ d.owner = some (some d.object)
  once : (w.heap.deletes.map Delete.block).Nodup
  released : ∀ p k, w.heap.memory.owner? p = some (some k) → w.heap.memory.live p = true →
    ∃ f, w.live? k = some f ∧ f.managed_ = true ∧ f.buf_ = p
  caller : ∀ p, w.heap.memory.owner? p = some none → w.heap.memory.live p = true

/-! ## The `delete[]`s -/

/-- What the `delete[]`s so far have done. -/
structure Clean (h : Heap α) : Prop where
  own : ∀ d ∈ h.deletes, d.live = true ∧ d.owner = some (some d.object)
  dead : ∀ d ∈ h.deletes, ∃ o, h.memory.owner? (some d.block) = some o ∧
    h.memory.live (some d.block) = false
  once : (h.deletes.map Delete.block).Nodup
  caller : ∀ p, h.memory.owner? p = some none → h.memory.live p = true

namespace Clean
variable {h h' : Heap α} {k : ℕ}

/-- Without a `delete[]`. -/
theorem of_extends (hc : Clean h) (hd : h'.deletes = h.deletes)
    (hm : Extends h.memory h'.memory) : Clean h' where
  own := hd ▸ hc.own
  dead d hdel := by
    obtain ⟨o,ho,hl⟩ := hc.dead d (hd ▸ hdel)
    obtain ⟨ho',hl'⟩ := hm.keeps _ o ho
    exact ⟨o,ho',hl'.trans hl⟩
  once := hd ▸ hc.once
  caller p hp := by
    rcases hm.fresh p none hp with hp' | hl
    · exact (hm.keeps p none hp').2.trans (hc.caller p hp')
    · exact hl

/-- A `delete[]` of an object's own block. -/
theorem delete (hc : Clean h) {p : Option ℕ}
    (ho : p ≠ none → h.memory.owner? p = some (some k) ∧ h.memory.live p = true) :
    Clean (h.delete k p) := by
  cases p with
  | none => exact hc
  | some b =>
    obtain ⟨howner,hlive⟩ := ho (by simp)
    have hne : ∀ d ∈ h.deletes, d.block ≠ b := by
      rintro d hd rfl
      obtain ⟨o,-,hl⟩ := hc.dead d hd
      rw [hlive] at hl
      contradiction
    refine ⟨?_,?_,?_,fun p hp => ?_⟩
    · intro d hd
      rcases List.mem_cons.mp hd with rfl | hd
      · exact ⟨hlive,howner⟩
      · exact hc.own d hd
    · intro d hd
      rw [Heap.memory_delete]
      rcases List.mem_cons.mp hd with rfl | hd
      · exact ⟨some k,owner?_free.trans howner,live_free_self⟩
      · obtain ⟨o,ho,hl⟩ := hc.dead d hd
        refine ⟨o,owner?_free.trans ho,(live_free_of_ne ?_).trans hl⟩
        simpa using hne d hd
    · refine List.nodup_cons.mpr ⟨fun hm => ?_,hc.once⟩
      obtain ⟨d,hd,he⟩ := List.mem_map.mp hm
      exact hne d hd he
    · rw [Heap.memory_delete,owner?_free] at hp
      rw [Heap.memory_delete,live_free_of_ne]
      · exact hc.caller p hp
      · rintro rfl
        rw [howner] at hp
        simp at hp

end Clean

/-! ## The operations -/

/-- The pointer that an object releases when it is destroyed. -/
def own (f : Fields) : Option ℕ := if f.managed_ then f.buf_ else none

/-- The live blocks of an object are those it will release. -/
def Tracks (k : ℕ) (f : Option Fields) (m : Memory (Option ℕ) α) : Prop :=
  Owns (some k) (f.bind own) m

variable [Inhabited α] {h : Heap α} {k n : ℕ} {f seq : Fields} {ok : Bool} {x : Elem α}
  {o : Outcome α}

theorem clean_fill (hc : Clean h) : Clean (fill h k f seq).1 := by
  refine hc.of_extends (by simp [fill]) ?_
  rw [memory_fill]
  exact (Extends.add _ _).trans (.copy _ _ _)

theorem clean_grow (hc : Clean h) (ho : Owns (some k) f.buf_ h.memory) :
    Clean (grow h k f n).1 := by
  have hm : Extends h.memory ((h.alloc k n).copy { f with buf_ := h.memory.next } f
      f.length_).memory := by
    rw [Heap.memory_copy,Heap.memory_alloc]
    exact (Extends.add _ _).trans (.copy _ _ _)
  refine (hc.of_extends ?_ hm).delete fun hp => ?_
  · rw [Heap.deletes_copy,Heap.deletes_alloc]
  · obtain ⟨howner,hlive⟩ := ho.block hp
    obtain ⟨howner',hlive'⟩ := hm.keeps _ _ howner
    exact ⟨howner',hlive'.trans hlive⟩

theorem clean_put (hc : Clean h) : Clean (put h f x).heap :=
  hc.of_extends rfl (.write _ _ _)

/-- A new object, or one that has no buffer any more, when it copies. -/
theorem CopiesFrom.tracks (ho : CopiesFrom h k f seq ok o) (hc : Clean h)
    (hf : f.buf_ = none ∨ seq.length ≠ 0) (hm : f.managed_ = true)
    (ht : Owns (some k) none h.memory) :
    Clean o.heap ∧ Tracks k (some o.fields) o.heap.memory := by
  cases ho with
  | invalid hv =>
    have hf : f.buf_ = none := hf.resolve_right (by simp [Fields.length,hv])
    exact ⟨hc,by simpa [Tracks,own,hf] using ht⟩
  | refused => exact ⟨hc,by simpa [Tracks,own] using ht⟩
  | filled =>
    refine ⟨clean_fill hc,?_⟩
    have hown : own (fill h k f seq).2 = h.memory.next := if_pos hm
    rw [Tracks,Option.bind_some,hown,memory_fill]
    exact ht.replace _ _ _
  | empty hv hl =>
    have hf : f.buf_ = none := hf.resolve_right (by simp [Fields.length,hl])
    exact ⟨hc,by simpa [Tracks,own,hf] using ht⟩

theorem Appends.tracks (ho : Appends h k f x ok o) (hc : Clean h)
    (ht : Tracks k (some f) h.memory) : Clean o.heap ∧ Tracks k (some o.fields) o.heap.memory := by
  cases ho with
  | invalid | full | unmanaged | refused => exact ⟨hc,ht⟩
  | put | wrapped => exact ⟨clean_put hc,ht.write _ _ _⟩
  | grown hv hb hn hm =>
    have hbuf : Owns (some k) f.buf_ h.memory := by simpa [Tracks,own,hm] using ht
    refine ⟨clean_put (clean_grow hc hbuf),?_⟩
    have hown : own (Sequence.put (grow h k f (f.newCap 4)).1
        (grow h k f (f.newCap 4)).2 x).fields = h.memory.next := if_pos hm
    rw [Tracks,Option.bind_some,hown]
    refine Owns.write ?_ _ _ _
    rw [memory_grow]
    exact hbuf.replace _ _ _

/-- A constructor. -/
theorem Made.tracks {lends : Bool} {w : World α} {a : Act α Constructor} (ho : Made lends w a o)
    (hc : Clean w.heap) (ht : Tracks w.objects.length none w.heap.memory) :
    Clean o.heap ∧ Tracks w.objects.length (some o.fields) o.heap.memory := by
  cases ho with
  | construct ha ho =>
    cases ho with
    | default | bounded | nullArray | refused | emptyArray | nullBuffer | unmanaged =>
      exact ⟨hc,by simpa [Tracks,own,Fields.initial] using ht⟩
    | filled =>
      refine ⟨clean_fill hc,?_⟩
      rw [memory_fill]
      exact ht.replace _ _ _
  | copy hg ho => exact ho.tracks hc (.inl rfl) rfl ht

/-- An operation of an object, unless it keeps a pointer. -/
theorem Done.tracks {w : World α} {a : Act α Constructor} (ho : Done w k f a o)
    (hf : w.live? k = some f) (hs : ¬KeepsPointer w a) (hc : Clean w.heap)
    (ht : Tracks k (some f) w.heap.memory) :
    Clean o.heap ∧ Tracks k (some o.fields) o.heap.memory := by
  cases ho with
  | @assign j g ok o hg hne ho =>
    cases ho with
    | managed hm ho =>
      have hbuf : Owns (some k) f.buf_ w.heap.memory := by simpa [Tracks,own,hm] using ht
      refine ho.tracks (hc.delete hbuf.block) (.inl rfl) rfl ?_
      rw [Heap.memory_delete]
      exact hbuf.free
    | unmanaged hm ho =>
      refine ho.tracks hc ?_ rfl (by simpa [Tracks,own,hm] using ht)
      by_contra hkeeps
      obtain ⟨hbuf,hlen⟩ := not_or.mp hkeeps
      exact hs ⟨k,j,ok,f,g,rfl,hne,hf,hg,hm,hbuf,not_not.mp hlen⟩
  | reserve hn ho =>
    cases ho with
    | precondition | enough | bound | refused => exact ⟨hc,ht⟩
    | grown hv hm =>
      have hbuf : Owns (some k) f.buf_ w.heap.memory := by simpa [Tracks,own,hm] using ht
      refine ⟨clean_grow hc hbuf,?_⟩
      have hown (n : ℕ) : own (grow w.heap k f n).2 = w.heap.memory.next := if_pos hm
      rw [Tracks,Option.bind_some,hown,memory_grow]
      exact hbuf.replace _ _ _
  | clear => exact ⟨hc,ht⟩
  | append hx ho => exact ho.tracks hc ht
  | @next j i g ok o hcall hg hi ho =>
    exact ho.tracks (hc.of_extends rfl (.refl _)) ht

theorem preserved {lends : Bool} : Preserved (given (α:=α) lends) KeepsPointer Clean Tracks where
  start := ⟨by simp,by simp,by simp,fun p hp => by
    cases p <;> simp [Memory.empty,owner?,block?] at hp⟩
  caller hc := hc.of_extends rfl (.add none _)
  unborn hk := fun b => ⟨fun h => absurd h.1 (hk _),by simp⟩
  stable hc hS ht := ht.of_spares hc hS
  makes {w a o} _ hw _ hm := by
    have ht := hw.2 w.objects.length
    rw [World.live?_of_unborn le_rfl] at ht
    exact (makes_cases hm).tracks hw.1 ht
  does _ hw hs hf hd := (does_cases hd).tracks hf hs hw.1 (hf ▸ hw.2 _)
  destroy {w k f} _ hw _ hf := by
    have ht : Tracks k (some f) w.heap.memory := hf ▸ hw.2 k
    cases hm : f.managed_ with
    | false =>
      have hd : (w.destroy k f).heap = w.heap := by simp [World.destroy,hm]
      rw [hd]
      exact ⟨hw.1,by simpa [Tracks,own,hm] using ht⟩
    | true =>
      have hbuf : Owns (some k) f.buf_ w.heap.memory := by simpa [Tracks,own,hm] using ht
      have hd : (w.destroy k f).heap = w.heap.delete k f.buf_ := by simp [World.destroy,hm]
      rw [hd,Heap.memory_delete]
      exact ⟨hw.1.delete hbuf.block,hbuf.free⟩

omit [Inhabited α] in
/-- What the invariant says about a state. -/
theorem owned_of_holds {w : World α} (hw : w.Holds Clean Tracks) : Owned w where
  managed k f hf hm hp := by
    have hown {k : ℕ} {f : Fields} (hf : w.live? k = some f) (hm : f.managed_ = true) :
        Owns (some k) f.buf_ w.heap.memory := by
      simpa [Tracks,own,hf,hm] using hw.2 k
    obtain ⟨howner,hlive⟩ := (hown hf hm).block hp
    refine ⟨howner,hlive,fun j g hg hm' he => ?_⟩
    have howner' := ((hown hg hm').block (he ▸ hp)).1
    rw [he,howner] at howner'
    simpa using howner'.symm
  deletes := hw.1.own
  once := hw.1.once
  released p k hp hl := by
    cases p with
    | none => simp [owner?,block?] at hp
    | some b =>
      have hown := (hw.2 k b).mp ⟨hp,hl⟩
      obtain ⟨f,hf,hb⟩ := Option.bind_eq_some_iff.mp hown
      obtain ⟨hm,hb⟩ := Option.ite_none_right_eq_some.mp hb
      exact ⟨f,hf,hm,hb⟩
  caller := hw.1.caller

/-- An assignment that keeps a pointer makes a managed object of a buffer that is not its own. -/
theorem not_owned_of_keepsPointer {w w' : World α} {a : Act α Constructor} (hw : Owned w)
    (h : step sequence w a = some w') (hs : KeepsPointer w a) : ¬Owned w' := by
  obtain ⟨k,j,ok,f,g,rfl,hne,hf,hg,hm,hbuf,hlen⟩ := hs
  intro hw'
  cases step_cases h with
  | assignSelf => exact hne rfl
  | makes _ hmakes => cases hmakes
  | @does k' f' _ o _ hf' hd =>
    cases does_cases hd with
    | assign hg' _ ho =>
      obtain rfl := Option.some.inj (hf.symm.trans hf')
      obtain rfl := Option.some.inj (hg.symm.trans hg')
      have hkept : o.heap = w.heap ∧ o.fields.buf_ = f.buf_ ∧ o.fields.managed_ = true := by
        cases ho with
        | managed hm' => simp [hm] at hm'
        | unmanaged _ ho =>
          cases ho with
          | invalid | empty => exact ⟨rfl,rfl,rfl⟩
          | refused hv hl | filled hv hl =>
            rw [Fields.length,if_pos hv] at hlen
            exact absurd hlen (Nat.ne_of_gt hl)
      obtain ⟨hheap,hbuf',hm'⟩ := hkept
      obtain ⟨howner,hlive,-⟩ := hw'.managed k o.fields (World.live?_put_self o hf) hm'
        (hbuf' ▸ hbuf)
      rw [hbuf'] at howner hlive
      obtain ⟨f',hf',hm',-⟩ := hw.released f.buf_ k (hheap ▸ howner) (hheap ▸ hlive)
      obtain rfl := Option.some.inj (hf.symm.trans hf')
      rw [hm] at hm'
      contradiction

/-- The ownership is kept in a run if and only if no assignment keeps a pointer. -/
theorem owned_iff (e : Execution (step (sequence (α:=α))) World.init) :
    (∀ w ∈ e.visited, Owned w) ↔ ∀ p ∈ e.steps, ¬KeepsPointer p.1 p.2 := by
  refine e.forall_visited_iff (fun steps w hr hn => ?_) fun steps w a w' hr hn hstep hs => ?_
  · exact owned_of_holds (preserved.run confines hr hn)
  · exact not_owned_of_keepsPointer (owned_of_holds (preserved.run confines hr hn)) hstep hs

/-- A sequence over the caller's memory is assigned an empty one and is destroyed. -/
def releasedCaller : Execution (step (sequence (α:=ℕ))) World.init :=
  .ofLabels [.caller [1,2,3],.construct (.unmanaged (some 0) 3 3) true,.construct .default true,
    .assign 0 1 true,.destroy 0] (by decide)

theorem releasedCaller_not_owned : ¬∀ w ∈ releasedCaller.visited, Owned w := by
  intro h
  have hd := (h _ releasedCaller.final_mem_visited).deletes ⟨0,0,some none,true⟩ (by decide)
  exact absurd hd (by decide)

end Blush.Storage.Sequence
