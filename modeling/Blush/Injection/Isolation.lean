import Blush.Lib.Slots
import Blush.Lib.Transition
import Blush.Injection.UopBase

/-! What the lookups show over the lifetimes of objects: the injections made on the object itself,
unless the object got an address under which the store still holds entries of an earlier one. -/
namespace Blush.Injection
open Face Slots Transition
variable {τ : Type} {V : τ → Type}

/-- The reference that both lookups find. -/
def find? (store : Store V) (this : ℕ) (t : τ) (name : StringType) : Option (V t) :=
  ((store t).lookup this).bind fun inner => inner.lookup name.cStr

theorem injectedExists_eq (store : Store V) (this : ℕ) (t : τ) (name : StringType) :
    injectedExists store this t name = (find? store this t name).isSome := by
  unfold injectedExists find?
  cases (store t).lookup this <;> rfl

/-- What `GetInjected` returns, whatever it throws when there is nothing. -/
theorem getInjected_toOption (store : Store V) (this : ℕ) (t : τ) (name : StringType) :
    (getInjected store this t name).toOption = find? store this t name := by
  unfold getInjected find?
  cases (store t).lookup this with
  | none => rfl
  | some inner => cases h : inner.lookup name.cStr <;> simp [h,Except.toOption]

theorem getInjected_of_some {store : Store V} {this : ℕ} {t : τ} {name : StringType} {v : V t}
    (h : find? store this t name = some v) : getInjected store this t name = .ok v := by
  obtain ⟨inner,hi,hv⟩ := Option.bind_eq_some_iff.mp h
  unfold getInjected
  simp only [hi,hv]

theorem getInjected_of_none {store : Store V} {this : ℕ} {t : τ} {name : StringType}
    (h : find? store this t name = none) : ∃ what, getInjected store this t name = .error what := by
  unfold getInjected
  cases hi : (store t).lookup this with
  | none => exact ⟨_,rfl⟩
  | some inner =>
    have hn : inner.lookup name.cStr = none := by
      rw [find?,hi] at h
      exact h
    simp only [hn]
    exact ⟨_,rfl⟩

/-- The object with the number `i` and the state `o` is not destroyed. -/
theorem World.live?_eq_some {w : World V} {i : ℕ} {o : Object} :
    w.live? i = some o ↔ w.objects[i]? = some o ∧ o.alive = true :=
  Option.filter_eq_some_iff

variable [DecidableEq τ]

section inject
variable (store : Store V) (this : ℕ) (t : τ) (name : StringType) (v : V t)

theorem find?_inject_self : find? (inject store this t name v) this t name = some v := by
  simp [find?,inject]

theorem find?_inject_of_type {t' : τ} (ht : t' ≠ t) (this' : ℕ) (name' : StringType) :
    find? (inject store this t name v) this' t' name' = find? store this' t' name' := by
  simp [find?,inject,Function.update_of_ne ht]

theorem find?_inject_of_this {this' : ℕ} (hthis : this' ≠ this) (name' : StringType) :
    find? (inject store this t name v) this' t name' = find? store this' t name' := by
  simp [find?,inject,AList.lookup_insert_ne hthis]

/-- Another name is another key. -/
theorem find?_inject_of_name {name' : StringType} (hname : name' ≠ name) :
    find? (inject store this t name v) this t name' = find? store this t name' := by
  have hkey : name'.cStr ≠ name.cStr := fun h => hname (StringType.cStr_injective h)
  rw [find?,inject,Function.update_self,AList.lookup_insert]
  show AList.lookup _ _ = _
  rw [AList.lookup_insert_ne hkey,find?]
  cases (store t).lookup this <;> rfl

end inject

/-- The injection that a call makes on the object number `i` under a type and a name. -/
def Act.injection? (a : Act V) (i : ℕ) (t : τ) (name : StringType) : Option (V t) :=
  match a with
  | .inject j s n v | .setReference j s n v =>
    if h : s = t then if j = i ∧ n = name then some (h ▸ v) else none else none
  | _ => none

/-- The last injection on the object number `i` in a run. -/
def lastInjected (steps : List (World V × Act V)) (i : ℕ) (t : τ) (name : StringType) :
    Option (V t) := (steps.filterMap fun p => p.2.injection? i t name).getLast?

theorem lastInjected_concat (steps : List (World V × Act V)) (w : World V) (a : Act V) (i : ℕ)
    (t : τ) (name : StringType) :
    lastInjected (steps ++ [(w,a)]) i t name =
      (a.injection? i t name).or (lastInjected steps i t name) := by
  rw [lastInjected,List.filterMap_append,filterMap_cons_toList]
  cases h : a.injection? i t name <;> simp [lastInjected]

/-- An object is constructed at an address under which the store holds entries. -/
def World.Stale (w : World V) (a : Act V) : Prop :=
  ∃ address t, a = .construct address ∧ (w.store t).lookup address ≠ none

/-- The lookups on the objects that exist show the last injections of the run on them. -/
def Shows (steps : List (World V × Act V)) (w : World V) : Prop :=
  ∀ i o t name, w.live? i = some o →
    (injectedExists w.store o.address t name = true ↔ lastInjected steps i t name ≠ none) ∧
    (∀ v, lastInjected steps i t name = some v → getInjected w.store o.address t name = .ok v) ∧
    (lastInjected steps i t name = none →
      ∃ what, getInjected w.store o.address t name = .error what)

/-- A call changes what an object shows only under the type and the name it injects on it; of a
lookup that throws before and after, the text may be another one. -/
def Unaffected (w : World V) (a : Act V) (w' : World V) : Prop :=
  ∀ i o t name, w.live? i = some o → w'.live? i = some o → a.injection? i t name = none →
    injectedExists w'.store o.address t name = injectedExists w.store o.address t name ∧
    (getInjected w'.store o.address t name).toOption =
      (getInjected w.store o.address t name).toOption

/-- In every state of a run the objects show their own injections, and no call affects what others
show. -/
def Isolated {base : τ} (e : Execution (step base) (World.init : World V)) : Prop :=
  (∀ steps w, steps <+: e.steps → Run (step base) World.init steps w → Shows steps w) ∧
    ∀ p ∈ e.steps, ∀ w', step base p.1 p.2 = some w' → Unaffected p.1 p.2 w'

/-! ## One step -/

namespace World
variable {w w' : World V} {a : Act V}

/-- What a step does. -/
inductive Step (w : World V) : Act V → World V → Prop
  | construct {address} (h : ∀ i o, w.live? i = some o → o.address ≠ address) :
      Step w (.construct address) { w with objects := w.objects ++ [⟨address,true⟩] }
  | destroy {i o} (ho : w.live? i = some o) :
      Step w (.destroy i) { w with objects := w.objects.set i { o with alive := false } }
  | inject {i o t name v} (ho : w.live? i = some o) :
      Step w (.inject i t name v) { w with store := inject w.store o.address t name v }
  | setReference {i o t name v rc} (ho : w.live? i = some o) :
      Step w (.setReference i t name v)
        { w with store := Injection.inject w.store o.address t name v, lastReturn := rc }

end World

theorem step_cases {base : τ} {w w' : World V} {a : Act V} (h : step base w a = some w') :
    w.Step a w' := by
  cases a with
  | construct address =>
    obtain ⟨hall,h⟩ := Option.ite_none_right_eq_some.mp h
    obtain rfl := Option.some.inj h
    refine .construct fun i o ho he => ?_
    obtain ⟨hi,ha⟩ := World.live?_eq_some.mp ho
    have := List.all_eq_true.mp hall o (List.mem_of_getElem? hi)
    simp [ha,he] at this
  | destroy i =>
    obtain ⟨o,ho,rfl⟩ := Option.map_eq_some_iff.mp h
    exact .destroy ho
  | inject i t name v =>
    obtain ⟨o,ho,rfl⟩ := Option.map_eq_some_iff.mp h
    exact .inject ho
  | setReference i t name v =>
    obtain ⟨o,ho,rfl⟩ := Option.map_eq_some_iff.mp h
    by_cases hb : t = base
    · simp only [if_pos hb]
      exact .setReference ho
    · simp only [if_neg hb]
      exact .setReference ho

/-- What holds of every run: addresses of existing objects differ, nothing is injected on an object
before its construction, and an entry of the store has some name. -/
structure Tracked (steps : List (World V × Act V)) (w : World V) : Prop where
  distinct : ∀ i j o o', w.live? i = some o → w.live? j = some o' → o.address = o'.address → i = j
  unborn : ∀ i t name, w.objects.length ≤ i → lastInjected steps i t name = none
  named : ∀ (t : τ) address inner, (w.store t).lookup address = some inner →
    ∃ name : StringType, inner.lookup name.cStr ≠ none

theorem init_tracked : Tracked [] (World.init : World V) :=
  ⟨by simp [World.live?,World.init],fun _ _ _ _ => rfl,fun _ _ _ h => by simp [World.init] at h⟩

/-- The lookups agree with the injections of the run. -/
def Agrees (steps : List (World V × Act V)) (w : World V) : Prop :=
  ∀ i o t name, w.live? i = some o → find? w.store o.address t name = lastInjected steps i t name

theorem Agrees.shows {steps : List (World V × Act V)} {w : World V} (h : Agrees steps w) :
    Shows steps w := by
  intro i o t name ho
  have hf := h i o t name ho
  refine ⟨?_,fun v hv => getInjected_of_some (hf.trans hv),
    fun hn => getInjected_of_none (hf.trans hn)⟩
  rw [injectedExists_eq,hf,Option.isSome_iff_ne_none]

section step
variable {steps : List (World V × Act V)} {w w' : World V} {a : Act V}

/-- An injection on the object number `i` as the only thing a call does to the store. -/
theorem lookups_inject (hd : ∀ i j o o', w.live? i = some o → w.live? j = some o' →
      o.address = o'.address → i = j) {i : ℕ} {o : Object} {t : τ} {name : StringType} {v : V t}
    (ho : w.live? i = some o) {j : ℕ} {o' : Object} (ho' : w.live? j = some o') (t' : τ)
    (name' : StringType) :
    find? (inject w.store o.address t name v) o'.address t' name' =
      ((Act.inject i t name v).injection? j t' name').or
        (find? w.store o'.address t' name') := by
  by_cases ht : t = t'
  · subst t'
    by_cases hij : i = j
    · subst j
      obtain rfl := Option.some.inj (ho.symm.trans ho')
      by_cases hn : name = name'
      · subst name'
        rw [find?_inject_self]
        simp [Act.injection?]
      · rw [find?_inject_of_name _ _ _ _ _ (Ne.symm hn)]
        simp [Act.injection?,hn]
    · have hne : o'.address ≠ o.address := fun he => hij (hd i j o o' ho ho' he.symm)
      rw [find?_inject_of_this _ _ _ _ _ hne]
      simp [Act.injection?,hij]
  · rw [find?_inject_of_type _ _ _ _ _ (Ne.symm ht)]
    simp [Act.injection?,ht]

/-- The inner map that an injection writes has the name of the injection. -/
theorem named_inject (hn : ∀ (t : τ) address inner, (w.store t).lookup address = some inner →
      ∃ name : StringType, inner.lookup name.cStr ≠ none) (this : ℕ) (t : τ) (name : StringType)
    (v : V t) : ∀ (t' : τ) address inner,
      (inject w.store this t name v t').lookup address = some inner →
        ∃ name' : StringType, inner.lookup name'.cStr ≠ none := by
  intro t' address inner h
  by_cases ht : t' = t
  · subst t'
    rw [inject,Function.update_self] at h
    by_cases ha : address = this
    · subst address
      rw [AList.lookup_insert] at h
      obtain rfl := Option.some.inj h
      exact ⟨name,by simp⟩
    · rw [AList.lookup_insert_ne ha] at h
      exact hn t address inner h
  · rw [inject,Function.update_of_ne ht] at h
    exact hn t' address inner h

/-- Calls on other objects are no injections on one that does not exist. -/
theorem injection?_of_unborn (h : w.Step a w') {i : ℕ} (hi : w.objects.length ≤ i) (t : τ)
    (name : StringType) : a.injection? i t name = none := by
  have hne {j : ℕ} {o : Object} (ho : w.live? j = some o) : j ≠ i := by
    have := (List.getElem?_eq_some_iff.mp (World.live?_eq_some.mp ho).1).1
    omega
  cases h with
  | construct | destroy => rfl
  | inject ho | setReference ho => simp [Act.injection?,hne ho]

theorem Tracked.step (ht : Tracked steps w) (h : w.Step a w') :
    Tracked (steps ++ [(w,a)]) w' := by
  have hunborn : ∀ i t name, w.objects.length ≤ i →
      lastInjected (steps ++ [(w,a)]) i t name = none := by
    intro i t name hi
    rw [lastInjected_concat,injection?_of_unborn h hi,ht.unborn i t name hi]
    rfl
  cases h with
  | @construct address hfree =>
    refine ⟨?_,fun i t name hi => hunborn i t name ?_,ht.named⟩
    · intro i j o o' ho ho' he
      obtain ⟨hi,ha⟩ := World.live?_eq_some.mp ho
      obtain ⟨hj,ha'⟩ := World.live?_eq_some.mp ho'
      rcases getElem?_concat_cases hi with ⟨rfl,rfl⟩ | hi <;>
        rcases getElem?_concat_cases hj with ⟨rfl,rfl⟩ | hj
      · rfl
      · exact absurd he.symm (hfree j o' (World.live?_eq_some.mpr ⟨hj,ha'⟩))
      · exact absurd he (hfree i o (World.live?_eq_some.mpr ⟨hi,ha⟩))
      · exact ht.distinct i j o o' (World.live?_eq_some.mpr ⟨hi,ha⟩)
          (World.live?_eq_some.mpr ⟨hj,ha'⟩) he
    · rw [List.length_append] at hi
      omega
  | @destroy k o ho =>
    have hold {i : ℕ} {o₁ : Object} (h : ({ w with
        objects := w.objects.set k { o with alive := false } } : World V).live? i = some o₁) :
        w.live? i = some o₁ := by
      obtain ⟨hi,ha⟩ := World.live?_eq_some.mp h
      rcases getElem?_set_cases hi with ⟨-,rfl⟩ | ⟨-,hi⟩
      · simp at ha
      · exact World.live?_eq_some.mpr ⟨hi,ha⟩
    refine ⟨fun i j o₁ o₂ h₁ h₂ => ht.distinct i j o₁ o₂ (hold h₁) (hold h₂),
      fun i t name hi => hunborn i t name ?_,ht.named⟩
    rwa [List.length_set] at hi
  | inject ho => exact ⟨ht.distinct,hunborn,named_inject ht.named _ _ _ _⟩
  | setReference ho => exact ⟨ht.distinct,hunborn,named_inject ht.named _ _ _ _⟩

/-- While no object is constructed over old entries, the lookups agree with the injections. -/
theorem Agrees.step (ha : Agrees steps w) (ht : Tracked steps w) (h : w.Step a w')
    (hs : ¬w.Stale a) : Agrees (steps ++ [(w,a)]) w' := by
  intro i o t name ho
  rw [lastInjected_concat]
  cases h with
  | @construct address hfree =>
    obtain ⟨hi,halive⟩ := World.live?_eq_some.mp ho
    rcases getElem?_concat_cases hi with ⟨rfl,rfl⟩ | hi
    · have hnone : (w.store t).lookup address = none := by
        by_contra hne
        exact hs ⟨address,t,rfl,hne⟩
      have hlast := ht.unborn w.objects.length t name le_rfl
      rw [hlast]
      simp [find?,hnone,Act.injection?]
    · exact ha i o t name (World.live?_eq_some.mpr ⟨hi,halive⟩)
  | destroy ho' =>
    obtain ⟨hi,halive⟩ := World.live?_eq_some.mp ho
    rcases getElem?_set_cases hi with ⟨-,rfl⟩ | ⟨-,hi⟩
    · simp at halive
    · exact ha i o t name (World.live?_eq_some.mpr ⟨hi,halive⟩)
  | inject ho' =>
    rw [← ha i o t name ho]
    exact lookups_inject ht.distinct ho' ho t name
  | setReference ho' =>
    rw [← ha i o t name ho]
    exact lookups_inject ht.distinct ho' ho t name

/-- No call affects what it is not about. -/
theorem unaffected (ht : Tracked steps w) (h : w.Step a w') : Unaffected w a w' := by
  intro i o t name ho ho' hnone
  suffices hf : find? w'.store o.address t name = find? w.store o.address t name by
    rw [injectedExists_eq,injectedExists_eq,getInjected_toOption,getInjected_toOption,hf]
    exact ⟨rfl,rfl⟩
  cases h with
  | construct | destroy => rfl
  | inject hj | setReference hj =>
    refine (lookups_inject ht.distinct hj ho t name).trans ?_
    refine (congrArg (fun x => x.or (find? w.store o.address t name)) hnone).trans ?_
    exact Option.none_or

end step

theorem run_tracked {base : τ} {steps : List (World V × Act V)} {w : World V}
    (h : Run (step base) World.init steps w) : Tracked steps w := by
  induction h with
  | refl => exact init_tracked
  | next before hs ih => exact ih.step (step_cases hs)

theorem run_agrees {base : τ} {steps : List (World V × Act V)} {w : World V}
    (h : Run (step base) World.init steps w) (hs : ∀ p ∈ steps, ¬p.1.Stale p.2) :
    Agrees steps w := by
  induction h with
  | refl => exact fun i o t name ho => by simp [World.live?,World.init] at ho
  | @next steps w a w' before hstep ih =>
    exact (ih fun p hp => hs p (List.mem_append_left _ hp)).step (run_tracked before)
      (step_cases hstep) (hs (w,a) (by simp))

/-- An object constructed over old entries shows one of them. -/
theorem not_shows_of_stale {base : τ} {steps : List (World V × Act V)} {w w' : World V} {a : Act V}
    (h : Run (step base) World.init steps w) (hstep : step base w a = some w') (hs : w.Stale a) :
    ¬Shows (steps ++ [(w,a)]) w' := by
  intro hshows
  have ht := run_tracked h
  obtain ⟨address,t,rfl,hne⟩ := hs
  obtain ⟨inner,hi⟩ := Option.ne_none_iff_exists'.mp hne
  obtain ⟨name,hname⟩ := ht.named t address inner hi
  obtain ⟨v,hv⟩ := Option.ne_none_iff_exists'.mp hname
  have hc := step_cases hstep
  have hnone : lastInjected (steps ++ [(w,.construct address)]) w.objects.length t name = none := by
    rw [lastInjected_concat,injection?_of_unborn hc le_rfl,ht.unborn _ t name le_rfl]
    rfl
  cases hc with
  | construct hfree =>
    have hlive : ({ w with objects := w.objects ++ [⟨address,true⟩] } : World V).live?
        w.objects.length = some ⟨address,true⟩ :=
      World.live?_eq_some.mpr ⟨List.getElem?_concat_length,rfl⟩
    obtain ⟨-,-,hthrows⟩ := hshows _ _ t name hlive
    obtain ⟨what,hwhat⟩ := hthrows hnone
    have hfind : find? w.store address t name = some v := by
      rw [find?,hi]
      exact hv
    rw [getInjected_of_some hfind] at hwhat
    simp at hwhat

/-- The injections are isolated in a run if and only if no object is constructed at an address
under which the store still holds entries. -/
theorem isolated_iff {base : τ} (e : Execution (step base) (World.init : World V)) :
    Isolated e ↔ ∀ p ∈ e.steps, ¬p.1.Stale p.2 := by
  constructor
  · rintro ⟨hshows,-⟩ p hp hs
    obtain ⟨before,after,he,hbefore⟩ := e.split hp
    obtain ⟨w',hstep⟩ := e.run.exists_target hp
    refine not_shows_of_stale hbefore hstep hs (hshows _ w' ?_ (hbefore.next hstep))
    exact ⟨after,by simp [he]⟩
  · intro hs
    refine ⟨fun steps w hp hr => (run_agrees hr fun p h => hs p (hp.subset h)).shows,
      fun p hp w' hstep => ?_⟩
    obtain ⟨before,after,he,hbefore⟩ := e.split hp
    exact unaffected (run_tracked hbefore) (step_cases hstep)

/-- Something is injected on an object, the object is destroyed, and the next one gets its
address. -/
def reusedAddress : Execution (step ()) (World.init : World fun _ : Unit => ℕ) :=
  .ofLabels [.construct 64,.inject 0 () (.ofCString (some [99])) 7,.destroy 0,.construct 64]
    (by decide)

theorem reusedAddress_not_isolated : ¬Isolated reusedAddress := by
  intro h
  have hs := (h.1 _ _ (List.prefix_refl _) reusedAddress.run) 1 ⟨64,true⟩ ()
    (.ofCString (some [99])) (by decide)
  exact absurd (hs.1.mp (by decide)) (by decide)

end Blush.Injection
