import Blush.Face.Common

/-! `STRING_TYPE` as it is made and compared: the constructor copies the characters that a loop has
counted, and `operator==` compares the arrays with their padding. -/
namespace Blush.Face

/-- `s[i]`, with the NUL behind the characters. -/
def CString.char (s : CString) (i : ℕ) : UInt8 := s.chars.getD i 0

def memcpy (dst src : List UInt8) (n : ℕ) : List UInt8 := src.take n ++ dst.drop n

/-- The sign of the first difference in `n` bytes. -/
def memcmp : ℕ → List UInt8 → List UInt8 → ℤ
  | n+1,a::as,b::bs => if a = b then memcmp n as bs else if a < b then -1 else 1
  | _,_,_ => 0

theorem memcmp_eq_zero_iff {n : ℕ} {as bs : List UInt8} (ha : as.length = n)
    (hb : bs.length = n) : memcmp n as bs = 0 ↔ as = bs := by
  induction n generalizing as bs with
  | zero => simp [memcmp,List.length_eq_zero_iff.mp ha,List.length_eq_zero_iff.mp hb]
  | succ n ih =>
    obtain ⟨a,as,rfl⟩ := List.exists_cons_of_length_eq_add_one ha
    obtain ⟨b,bs,rfl⟩ := List.exists_cons_of_length_eq_add_one hb
    rw [memcmp]
    by_cases hab : a = b
    · rw [if_pos hab,ih (Nat.succ.inj ha) (Nat.succ.inj hb)]
      simp [hab]
    · rw [if_neg hab]
      split <;> simp [hab]

namespace StringType

/-- The loop of the constructor, which ends at a NUL or after `n` more characters. -/
def scan (s : CString) : ℕ → ℕ → ℕ
  | 0,len => len
  | n+1,len => if s.char len ≠ 0 then scan s n (len+1) else len

/-- The array that the constructors fill, from nothing, from a null pointer or from a string. -/
def fill (s : Option CString) : List UInt8 :=
  let data := List.replicate stringTypeMaxLength 0
  match s with
  | none => data
  | some s => memcpy data s.chars (scan s (stringTypeMaxLength-1) 0)

/-- `operator==`. -/
def equals (a b : StringType) : Bool := memcmp stringTypeMaxLength a.data b.data == 0

/-! ## The constructor -/

variable {s : CString} {n len : ℕ}

theorem char_ne_zero_iff : s.char len ≠ 0 ↔ len < s.chars.length := by
  rcases Nat.lt_or_ge len s.chars.length with hlt | hge
  · have hc := s.noNul _ (List.getElem_mem hlt)
    simpa [CString.char,hlt] using hc
  · simp [CString.char,hge]

/-- The loop counts the characters, up to its limit. -/
theorem scan_eq (h : len ≤ s.chars.length) : scan s n len = min (len+n) s.chars.length := by
  induction n generalizing len with
  | zero => rw [scan,Nat.add_zero,Nat.min_eq_left h]
  | succ n ih =>
    rw [scan]
    by_cases hlt : len < s.chars.length
    · rw [if_pos (char_ne_zero_iff.mpr hlt),@ih (len+1) hlt,Nat.add_right_comm,
        Nat.add_assoc]
    · rw [if_neg (char_ne_zero_iff.not.mpr hlt)]
      omega

/-- A C string has no NUL that the copy would stop at. -/
theorem copied_chars (s : CString) : copied s.chars = s.chars.take (stringTypeMaxLength-1) := by
  rw [copied,List.takeWhile_eq_self_iff.mpr fun c hc => by simpa using s.noNul c hc]

theorem fill_eq (s : Option CString) : fill s = (ofCString (s.map CString.chars)).data := by
  cases s with
  | none => rfl
  | some s =>
    have hscan := scan_eq (s:=s) (n:=stringTypeMaxLength-1) (Nat.zero_le _)
    rw [Nat.zero_add] at hscan
    show memcpy _ s.chars _ =
      copied s.chars ++ List.replicate (stringTypeMaxLength-(copied s.chars).length) 0
    rw [copied_chars,memcpy,hscan,List.drop_replicate,List.length_take,← List.take_eq_take_min]

/-- The object that a constructor makes. -/
def ofPointer (s : Option CString) : StringType :=
  ⟨fill s,fill_eq s ▸ (ofCString (s.map CString.chars)).padded⟩

theorem ofPointer_eq (s : Option CString) : ofPointer s = ofCString (s.map CString.chars) := by
  rw [ofPointer]
  simp only [fill_eq]

theorem cStr_ofPointer (s : CString) :
    (ofPointer (some s)).cStr = s.chars.take (stringTypeMaxLength-1) := by
  rw [ofPointer_eq,Option.map_some,cStr_ofCString,copied_chars]

/-! ## The comparison -/

theorem length_data (a : StringType) : a.data.length = stringTypeMaxLength := by
  obtain ⟨chars,hlt,-,hd⟩ := a.padded
  rw [hd,List.length_append,List.length_replicate]
  omega

theorem equals_iff {a b : StringType} : a.equals b = true ↔ a = b := by
  rw [equals,beq_iff_eq,memcmp_eq_zero_iff a.length_data b.length_data]
  exact StringType.mk.injEq .. ▸ Iff.rfl

/-- The padding does not decide. -/
theorem equals_iff_cStr {a b : StringType} : a.equals b = true ↔ a.cStr = b.cStr :=
  equals_iff.trans cStr_injective.eq_iff.symm

/-- The NUL of the C string is in the array. -/
theorem terminated (a : StringType) : a.data[a.cStr.length]? = some 0 := by
  obtain ⟨chars,hlt,hc,hd⟩ := a.padded
  rw [cStr_of_padded hc hd,hd,List.getElem?_append_right le_rfl,Nat.sub_self]
  exact List.getElem?_replicate_of_lt (Nat.sub_pos_of_lt hlt)

end StringType
end Blush.Face
