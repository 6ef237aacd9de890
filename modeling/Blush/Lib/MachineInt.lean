import Mathlib.Algebra.Order.Ring.Int
import Mathlib.Data.Int.GCD
import Mathlib.Data.Nat.Cast.Order.Ring
import Mathlib.Tactic.Linarith
import Mathlib.Tactic.Positivity
import Mathlib.Tactic.Ring

/-! Machine integers of a fixed width: signed ones in two's complement, and at the end types of
either kind. -/
namespace Blush.MachineInt
variable {w : ℕ} {x y t p : ℤ}

/-- The value of a signed `w`-bit register that was computed as `x`. -/
def wrap (w : ℕ) (x : ℤ) : ℤ := x.bmod (2^w)

theorem wrap_add_wrap (w : ℕ) (x y : ℤ) : wrap w (wrap w x + y) = wrap w (x+y) :=
  Int.bmod_add_bmod

theorem wrap_sub_wrap (w : ℕ) (x y : ℤ) : wrap w (wrap w x - y) = wrap w (x-y) :=
  Int.bmod_sub_bmod

@[simp] theorem wrap_zero (w : ℕ) : wrap w 0 = 0 := Int.zero_bmod

/-- The values of a signed `w`-bit register. -/
def Fits (w : ℕ) (x : ℤ) : Prop := -2^w ≤ 2*x ∧ 2*x < 2^w

instance : Decidable (Fits w x) := inferInstanceAs (Decidable (_ ∧ _))

/-- A value in range is represented exactly. -/
theorem wrap_of_fits (h : Fits w x) : wrap w x = x :=
  Int.bmod_eq_of_le_mul_two (by push_cast; linarith [h.1]) (by push_cast; linarith [h.2])

theorem wrap_natCast {n : ℕ} (h : 2*n < 2^w) : wrap w n = n := by
  apply wrap_of_fits
  constructor
  · have hpow : (0:ℤ) < 2^w := by positivity
    omega
  · exact_mod_cast h

/-- One past the largest value is the smallest one. -/
theorem wrap_half (w : ℕ) : wrap (w+1) (2^w : ℕ) = -(2^w : ℕ) :=
  Int.bmod_eq_neg (Int.natCast_nonneg _) (by push_cast; exact pow_succ' 2 w)

theorem fits_wrap (w : ℕ) (x : ℤ) : Fits (w+1) (wrap (w+1) x) := by
  have hpos : 0 < 2^(w+1) := Nat.two_pow_pos _
  have hle := Int.le_bmod (x:=x) hpos
  have hlt := Int.bmod_lt (x:=x) hpos
  have hpow : (2:ℤ)^(w+1) = 2*2^w := pow_succ' 2 w
  simp only [Fits,wrap]
  push_cast at hle hlt ⊢
  omega

/-- A register differs from the value computed by a multiple of its modulus. -/
theorem dvd_wrap_sub (w : ℕ) (x : ℤ) : 2^w ∣ wrap w x - x := by
  have h : ((2^w : ℕ) : ℤ) ∣ wrap w x - x := Int.dvd_bmod_sub_self
  exact_mod_cast h

theorem wrap_congr (h : 2^w ∣ x-y) : wrap w x = wrap w y := by
  apply (Int.bmod_eq_bmod_iff_bmod_sub_eq_zero).mpr
  apply Int.bmod_eq_zero_of_dvd
  exact_mod_cast h

/-! ## Repeated addition -/

/-- The greatest value that a register of `w+1` bits can take when `p` is added to `t` any number
of times: the greatest one congruent to `t` modulo the common divisor of `p` and the modulus. -/
def greatest (w : ℕ) (t p : ℤ) : ℤ := 2^w-1 - (2^w-1-t) % Int.gcd p (2^(w+1))

theorem emod_le_self (hx : 0 ≤ x) (hy : 0 < y) : x % y ≤ x := by
  have hdiv := Int.mul_ediv_add_emod x y
  have hnonneg := mul_nonneg hy.le (Int.ediv_nonneg hx hy.le)
  linarith

theorem gcd_pos (w : ℕ) (p : ℤ) : (0:ℤ) < Int.gcd p (2^(w+1)) := by
  have h : 0 < Int.gcd p (2^(w+1)) := Int.gcd_pos_of_ne_zero_right p (by positivity)
  exact_mod_cast h

theorem wrap_le_greatest (w k : ℕ) (t p : ℤ) : wrap (w+1) (t+k*p) ≤ greatest w t p := by
  have hfits := (fits_wrap w (t+k*p)).2
  have hpow : (2:ℤ)^(w+1) = 2*2^w := pow_succ' 2 w
  have hdvd : (Int.gcd p (2^(w+1)) : ℤ) ∣ wrap (w+1) (t+k*p) - t := by
    have h1 : (Int.gcd p (2^(w+1)) : ℤ) ∣ wrap (w+1) (t+k*p) - (t+k*p) :=
      (Int.gcd_dvd_right _ _).trans (dvd_wrap_sub (w+1) _)
    have h2 : (Int.gcd p (2^(w+1)) : ℤ) ∣ k*p := (Int.gcd_dvd_left _ _).mul_left _
    have he : wrap (w+1) (t+k*p) - t = wrap (w+1) (t+k*p) - (t+k*p) + k*p := by ring
    rw [he]
    exact dvd_add h1 h2
  obtain ⟨c,hc⟩ := hdvd
  have hmod : 2^w-1-t = 2^w-1-wrap (w+1) (t+k*p) + Int.gcd p (2^(w+1))*c := by rw [← hc]; ring
  have hle := emod_le_self (x:=2^w-1-wrap (w+1) (t+k*p)) (by omega) (gcd_pos w p)
  rw [← Int.add_mul_emod_self_left _ _ c,← hmod] at hle
  unfold greatest
  omega

theorem fits_greatest (w : ℕ) (t p : ℤ) : Fits (w+1) (greatest w t p) := by
  have hpow : (2:ℤ)^(w+1) = 2*2^w := pow_succ' 2 w
  have hnonneg := Int.emod_nonneg (2^w-1-t) (gcd_pos w p).ne'
  have hlt := Int.emod_lt_of_pos (2^w-1-t) (gcd_pos w p)
  have hle : (Int.gcd p (2^(w+1)) : ℤ) ≤ 2^(w+1) :=
    Int.le_of_dvd (by positivity) (Int.gcd_dvd_right _ _)
  unfold Fits greatest
  omega

/-- It is taken after at least one addition: Bezout's identity gives the number of additions. -/
theorem exists_wrap_eq_greatest (w : ℕ) (t p : ℤ) :
    ∃ k : ℕ, wrap (w+1) (t+(k+1 : ℕ)*p) = greatest w t p := by
  have hbezout := Int.gcd_eq_gcd_ab p (2^(w+1))
  have hdiv := Int.mul_ediv_add_emod (2^w-1-t) (Int.gcd p (2^(w+1)))
  have hmod := Int.mul_ediv_add_emod
    ((2^w-1-t)/Int.gcd p (2^(w+1))*Int.gcdA p (2^(w+1))-1) (2^(w+1))
  obtain ⟨k,hk⟩ := Int.eq_ofNat_of_zero_le (Int.emod_nonneg
    ((2^w-1-t)/Int.gcd p (2^(w+1))*Int.gcdA p (2^(w+1))-1) (b:=2^(w+1)) (by positivity))
  rw [hk] at hmod
  refine ⟨k,?_⟩
  rw [← wrap_of_fits (fits_greatest w t p)]
  apply wrap_congr
  rw [greatest]
  generalize (2^w-1-t)/(Int.gcd p (2^(w+1)) : ℤ) = c at *
  generalize (c*Int.gcdA p (2^(w+1))-1)/2^(w+1) = d at *
  -- the greatest value is `t` plus `c` times the divisor
  have hgreatest : 2^w-1-(2^w-1-t) % Int.gcd p (2^(w+1)) = t+Int.gcd p (2^(w+1))*c := by linarith
  have hcount : (k:ℤ) = c*Int.gcdA p (2^(w+1))-1-2^(w+1)*d := by linarith
  refine ⟨-(d*p)-c*Int.gcdB p (2^(w+1)),?_⟩
  push_cast
  rw [hgreatest,hcount,hbezout]
  ring

/-- Adding `p` takes a register above `x` if and only if its greatest value is above `x`. -/
theorem exists_lt_wrap_iff {x : ℤ} :
    (∃ k : ℕ, x < wrap (w+1) (t+(k+1 : ℕ)*p)) ↔ x < greatest w t p := by
  constructor
  · rintro ⟨k,hk⟩
    exact hk.trans_le (wrap_le_greatest w (k+1) t p)
  · intro h
    obtain ⟨k,hk⟩ := exists_wrap_eq_greatest w t p
    exact ⟨k,hk ▸ h⟩

/-! ## Signed and unsigned types -/

structure IntegralType where
  width : ℕ
  signed : Bool
  deriving DecidableEq, Repr

namespace IntegralType
variable (T : IntegralType)

/-- The value of the type that was computed as `x`. -/
def wrap (x : ℤ) : ℤ := if T.signed then MachineInt.wrap T.width x else x % 2^T.width

/-- The values of the type. -/
def Holds (x : ℤ) : Prop := if T.signed then Fits T.width x else 0 ≤ x ∧ x < 2^T.width

instance : Decidable (T.Holds x) := inferInstanceAs (Decidable (ite ..))

variable {T}

theorem wrap_of_holds (h : T.Holds x) : T.wrap x = x := by
  unfold Holds at h
  unfold wrap
  split at h
  · rw [if_pos ‹_›]
    exact wrap_of_fits h
  · rw [if_neg ‹_›]
    exact Int.emod_eq_of_lt h.1 h.2

theorem wrap_eq_wrap_iff : T.wrap x = T.wrap y ↔ 2^T.width ∣ x-y := by
  unfold wrap
  cases T.signed with
  | true =>
    rw [if_pos rfl,if_pos rfl]
    refine ⟨fun h => ?_,wrap_congr⟩
    have hx := dvd_wrap_sub T.width x
    have hy := dvd_wrap_sub T.width y
    rw [h] at hx
    have hxy := dvd_sub hy hx
    rwa [sub_sub_sub_cancel_left] at hxy
  | false => exact Int.emod_eq_emod_iff_emod_sub_eq_zero.trans Int.dvd_iff_emod_eq_zero.symm

theorem wrap_add_wrap : T.wrap (T.wrap x+y) = T.wrap (x+y) := by
  unfold wrap
  cases T.signed with
  | true => exact MachineInt.wrap_add_wrap T.width x y
  | false => exact Int.emod_add_emod ..

theorem wrap_eq_zero_iff : T.wrap x = 0 ↔ 2^T.width ∣ x := by
  have hzero : T.wrap 0 = 0 := by
    unfold wrap
    split <;> simp
  rw [← hzero,wrap_eq_wrap_iff,sub_zero]

end IntegralType
end Blush.MachineInt
