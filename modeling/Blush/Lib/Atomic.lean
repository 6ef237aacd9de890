import Blush.Lib.Transition
import Mathlib.Data.Nat.Notation

/-! An object whose operations take effect one at a time, each at one moment between its
invocation and its response. A system is linearizable when it cannot be told from it. -/
namespace Blush.Atomic
open Transition
variable {σ ω ρ : Type*}

/-- Where a thread stands: outside, inside an operation, or about to return from it. -/
inductive Call (ω ρ : Type*)
  | idle
  | pending (op : ω)
  | done (r : ρ)
  deriving DecidableEq, Repr

/-- The value, the calls, and the operations with their results in the order they took effect. -/
structure State (σ ω ρ : Type*) where
  value : σ
  calls : List (Call ω ρ)
  order : List (ℕ × ω × ρ)
  deriving Repr

inductive Act (ω : Type*)
  | invoke (t : ℕ) (op : ω)
  | commit (t : ℕ)
  | respond (t : ℕ)
  deriving DecidableEq, Repr

/-- What the threads can see. -/
inductive Event (ω ρ : Type*)
  | invoked (t : ℕ) (op : ω)
  | responded (t : ℕ) (r : ρ)
  deriving DecidableEq, Repr

def init (v : σ) (threads : ℕ) : State σ ω ρ where
  value := v
  calls := List.replicate threads .idle
  order := []

def step (apply : ω → σ → ρ × σ) (s : State σ ω ρ) : Act ω → Option (State σ ω ρ)
  | .invoke t op =>
    match s.calls[t]? with
    | some .idle => some { s with calls := s.calls.set t (.pending op) }
    | _ => none
  | .commit t =>
    match s.calls[t]? with
    | some (.pending op) => some {
        value := (apply op s.value).2
        calls := s.calls.set t (.done (apply op s.value).1)
        order := s.order ++ [(t,op,(apply op s.value).1)] }
    | _ => none
  | .respond t =>
    match s.calls[t]? with
    | some (.done _) => some { s with calls := s.calls.set t .idle }
    | _ => none

def event (s : State σ ω ρ) : Act ω → Option (Event ω ρ)
  | .invoke t op => some (.invoked t op)
  | .commit _ => none
  | .respond t =>
    match s.calls[t]? with
    | some (.done r) => some (.responded t r)
    | _ => none

/-- What can be seen of the steps of a run. -/
def history {α β : Type*} (event : σ → α → Option β) (steps : List (σ × α)) : List β :=
  steps.filterMap fun p => event p.1 p.2

/-- One operation after the other gives these results and takes the first value to the last. -/
def Legal (apply : ω → σ → ρ × σ) (v : σ) : List (ℕ × ω × ρ) → σ → Prop
  | [],v' => v' = v
  | (_,op,r)::rest,v' => (apply op v).1 = r ∧ Legal apply (apply op v).2 rest v'

theorem Legal.concat {apply : ω → σ → ρ × σ} {v v' : σ} {order : List (ℕ × ω × ρ)}
    (h : Legal apply v order v') (t : ℕ) (op : ω) :
    Legal apply v (order ++ [(t,op,(apply op v').1)]) (apply op v').2 := by
  induction order generalizing v with
  | nil =>
    obtain rfl : v' = v := h
    exact ⟨rfl,rfl⟩
  | cons p order ih => exact ⟨h.1,ih h.2⟩

variable {apply : ω → σ → ρ × σ}

theorem step_legal {v : σ} {s s' : State σ ω ρ} {a : Act ω} (hs : Legal apply v s.order s.value)
    (h : step apply s a = some s') : Legal apply v s'.order s'.value := by
  cases a with
  | invoke t op =>
    simp only [step] at h
    split at h <;> cases h
    exact hs
  | commit t =>
    simp only [step] at h
    split at h <;> cases h
    exact hs.concat t _
  | respond t =>
    simp only [step] at h
    split at h <;> cases h
    exact hs

/-- The operations took effect one after the other, in the recorded order. -/
theorem run_legal {v : σ} {threads : ℕ} {steps : List (State σ ω ρ × Act ω)} {s : State σ ω ρ}
    (h : Run (step apply) (init v threads) steps s) : Legal apply v s.order s.value :=
  h.invariant (I:=fun s => Legal apply v s.order s.value)
    (show Legal apply v [] v from rfl) fun _ _ _ => step_legal

/-- A relation that every step of one system carries over to steps of the other that look the same
carries over whole runs. -/
theorem simulate {τ α β γ : Type*} {low : σ → α → Option σ} {high : τ → γ → Option τ}
    {lowEvent : σ → α → Option β} {highEvent : τ → γ → Option β} {R : σ → τ → Prop}
    (hstep : ∀ s t a s', R s t → low s a = some s' → ∃ t' more, R s' t' ∧ Run high t more t' ∧
      history highEvent more = (lowEvent s a).toList)
    {start s : σ} {steps : List (σ × α)} {top : τ} (h : Run low start steps s) (hR : R start top) :
    ∃ t more, R s t ∧ Run high top more t ∧
      history highEvent more = history lowEvent steps := by
  induction h with
  | refl => exact ⟨top,[],hR,.refl,rfl⟩
  | @next steps u a u' before hu ih =>
    obtain ⟨t,more,ht,hr,hh⟩ := ih
    obtain ⟨t',more',ht',hr',hh'⟩ := hstep u t a u' ht hu
    refine ⟨t',more ++ more',ht',hr.trans hr',?_⟩
    simp only [history,List.filterMap_append] at hh hh' ⊢
    rw [hh,hh']
    cases he : lowEvent u a <;> simp [he]

end Blush.Atomic
