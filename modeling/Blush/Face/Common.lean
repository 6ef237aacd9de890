import Mathlib.Data.List.TakeWhile

/-! Types of `FACE/Common.hpp` that the connections and the injection store share. -/
namespace Blush.Face

/-- `RETURN_CODE_TYPE`. -/
inductive ReturnCode
  | noError
  | noAction
  | notAvailable
  | invalidParam
  | invalidConfig
  | invalidMode
  | timedOut
  | addrInUse
  | permissionDenied
  | messageStale
  | inProgress
  | connectionClosed
  | dataBufferTooSmall
  | dataOverflow
  | resourceLimitReached
  deriving DecidableEq, Repr

/-- A C string, without its NUL. -/
structure CString where
  chars : List UInt8
  noNul : ∀ c ∈ chars, c ≠ 0
  deriving DecidableEq

/-- The size of the array in a `STRING_TYPE`. -/
def stringTypeMaxLength : ℕ := 256

/-- The array holds characters with a NUL behind them, and NULs only from there on. -/
def Padded (data : List UInt8) : Prop :=
  ∃ chars : List UInt8, chars.length < stringTypeMaxLength ∧ (∀ c ∈ chars, c ≠ 0) ∧
    data = chars ++ List.replicate (stringTypeMaxLength-chars.length) 0

/-- `STRING_TYPE`, with what its constructors establish. -/
structure StringType where
  data : List UInt8
  padded : Padded data
  deriving DecidableEq

namespace StringType

/-- The characters that the constructor copies from a C string. -/
def copied (s : List UInt8) : List UInt8 := (s.takeWhile (· ≠ 0)).take (stringTypeMaxLength-1)

/-- `STRING_TYPE(const char*)`, for the null pointer and for a string. -/
def ofCString (s : Option (List UInt8)) : StringType where
  data := let chars := copied (s.getD [])
    chars ++ List.replicate (stringTypeMaxLength-chars.length) 0
  padded := by
    refine ⟨copied (s.getD []),?_,fun c hc => ?_,rfl⟩
    · have := List.length_take_le (stringTypeMaxLength-1) ((s.getD []).takeWhile (· ≠ 0))
      have hm : stringTypeMaxLength = 256 := rfl
      rw [copied]
      omega
    · have := List.mem_takeWhile_imp (List.mem_of_mem_take hc)
      simpa using this

/-- The C string at `c_str()`. -/
def cStr (s : StringType) : List UInt8 := s.data.takeWhile (· ≠ 0)

/-- The characters in front of the padding. -/
theorem cStr_of_padded {s : StringType} {chars : List UInt8} {n : ℕ} (hc : ∀ c ∈ chars, c ≠ 0)
    (hs : s.data = chars ++ List.replicate n 0) : s.cStr = chars := by
  rw [cStr,hs,List.takeWhile_append_of_pos (by simpa using hc)]
  cases n with
  | zero => simp
  | succ n => simp [List.replicate_succ]

theorem cStr_ofCString (s : List UInt8) : (ofCString (some s)).cStr = copied s := by
  refine cStr_of_padded (fun c hc => ?_) rfl
  simpa using List.mem_takeWhile_imp (List.mem_of_mem_take hc)

/-- The C string determines the array. -/
theorem cStr_injective : Function.Injective cStr := by
  intro s s' h
  obtain ⟨chars,-,hc,hd⟩ := s.padded
  obtain ⟨chars',-,hc',hd'⟩ := s'.padded
  rw [cStr_of_padded hc hd,cStr_of_padded hc' hd'] at h
  subst h
  obtain ⟨data,hp⟩ := s
  obtain ⟨data',hp'⟩ := s'
  obtain rfl : data = data' := hd.trans hd'.symm
  rfl

end StringType
end Blush.Face
