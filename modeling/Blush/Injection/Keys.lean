import Blush.Face.Names
import Blush.Injection.Isolation

/-! The store and `operator==` tell the same names apart: the keys are the C strings, and two arrays
with one C string are equal. -/
namespace Blush.Injection
open Face
variable {τ : Type} [DecidableEq τ]

/-- The store takes two names for one if they are equal, and keeps them apart if they are not. -/
structure KeysSeparate (V : τ → Type) (a b : StringType) : Prop where
  equal : a.equals b = true → ∀ (store : Store V) (this : ℕ) (t : τ),
    injectedExists store this t a = injectedExists store this t b ∧
      getInjected store this t a = getInjected store this t b ∧
        ∀ v, inject store this t a v = inject store this t b v
  different : a.equals b = false → ∀ (store : Store V) (this : ℕ) (t : τ) (v : V t),
    injectedExists (inject store this t a v) this t b = injectedExists store this t b ∧
      (getInjected (inject store this t a v) this t b).toOption =
        (getInjected store this t b).toOption

/-- The names made of two C strings: what makes them equal, where they end, and what the store makes
of them. -/
structure NamesAgree (V : τ → Type) (s t : CString) : Prop where
  equals : (StringType.ofPointer (some s)).equals (.ofPointer (some t)) = true ↔
    (StringType.ofPointer (some s)).cStr = (StringType.ofPointer (some t)).cStr
  cStr : (StringType.ofPointer (some s)).cStr = (StringType.ofPointer (some t)).cStr ↔
    s.chars.take 255 = t.chars.take 255
  terminated : ∃ i < 256, (StringType.ofPointer (some s)).cStr.length = i ∧
    (StringType.ofPointer (some s)).data[i]? = some 0
  keys : KeysSeparate V (.ofPointer (some s)) (.ofPointer (some t))

theorem keysSeparate (V : τ → Type) (a b : StringType) : KeysSeparate V a b where
  equal h store this t := by
    obtain rfl := StringType.equals_iff.mp h
    exact ⟨rfl,rfl,fun _ => rfl⟩
  different h store this t v := by
    have hne : b ≠ a := by
      rintro rfl
      simp [StringType.equals_iff.mpr rfl] at h
    have hfind := find?_inject_of_name store this t a v hne
    rw [injectedExists_eq,injectedExists_eq,getInjected_toOption,getInjected_toOption,hfind]
    exact ⟨rfl,rfl⟩

/-- For all C strings, whatever their lengths: the arrays are equal if and only if the C strings in
them are, which are the first 255 characters, and the keys of the store separate the same names. -/
theorem names_agree (V : τ → Type) (s t : CString) : NamesAgree V s t where
  equals := StringType.equals_iff_cStr
  cStr := by
    rw [StringType.cStr_ofPointer,StringType.cStr_ofPointer]
    rfl
  terminated := by
    refine ⟨_,?_,rfl,StringType.terminated _⟩
    rw [StringType.cStr_ofPointer]
    exact (List.length_take_le _ _).trans_lt (by decide)
  keys := keysSeparate V _ _

end Blush.Injection
