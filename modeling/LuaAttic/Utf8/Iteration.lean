import Mathlib.Data.List.Basic
import LuaAttic.Lua.Basic

/-!
# Iterating over the characters of a string

`next_raw` steps from the byte index of a character to that of the next one,
by the class of its first byte alone.  A byte that starts no character is a
character of its own.  The step after a character checks that the string goes
on; the step after a stray byte does not.
-/

namespace LuaAttic.Utf8

open LuaAttic.Lua

/-! ## The modelled functions -/

/-- `s:byte(i)`; nil outside the string. -/
def byte (s : Bytes) (i : Int) : Option UInt8 := byteAt s (relIndex s i)

/-- `utf8.next_raw(s, i)` -/
def nextRaw (s : Bytes) : Option Int → Except Error (Option (Int × Bool))
  | none => if s.length = 0 then .ok none else .ok (some (1, true))
  | some i =>
      if i > s.length then .ok none
      else do
        let c ← nonNil .nilCompare (byte s i)
        -- the index after a character has to be in the string
        let valid (i : Int) : Option (Int × Bool) :=
          if i > s.length then none else some (i, true)
        if 0x00 ≤ c ∧ c ≤ 0x7F then
          return valid (i + 1)
        else if 0xC2 ≤ c ∧ c ≤ 0xDF then
          return valid (i + 2)
        else if 0xE0 ≤ c ∧ c ≤ 0xEF then
          return valid (i + 3)
        else if 0xF0 ≤ c ∧ c ≤ 0xF4 then
          return valid (i + 4)
        else
          return some (i + 1, false)

/-! ## Classes of bytes -/

/-- The bytes that can be the first one of a character. -/
def CanStart (c : UInt8) : Prop := c ≤ 0x7F ∨ (0xC2 ≤ c ∧ c ≤ 0xF4)

instance CanStart.decidable (c : UInt8) : Decidable (CanStart c) :=
  inferInstanceAs (Decidable (_ ∨ _))

/-- The number of bytes of a character that starts with a byte; a byte that
cannot start one stands alone. -/
def charLength (c : UInt8) : ℕ :=
  if c ≤ 0x7F then 1
  else if 0xC2 ≤ c ∧ c ≤ 0xDF then 2
  else if 0xE0 ≤ c ∧ c ≤ 0xEF then 3
  else if 0xF0 ≤ c ∧ c ≤ 0xF4 then 4
  else 1

theorem charLength_pos (c : UInt8) : 1 ≤ charLength c := by
  unfold charLength
  split_ifs <;> omega

theorem charLength_of_not_canStart {c : UInt8} (h : ¬ CanStart c) :
    charLength c = 1 := by
  simp only [CanStart, UInt8.le_iff_toNat_le] at h
  simp only [charLength, UInt8.le_iff_toNat_le]
  split_ifs <;> grind

theorem canStart_iff (c : UInt8) :
    CanStart c ↔ c ≤ 0x7F ∨ (0xC2 ≤ c ∧ c ≤ 0xDF) ∨ (0xE0 ≤ c ∧ c ≤ 0xEF) ∨
      (0xF0 ≤ c ∧ c ≤ 0xF4) := by
  simp only [CanStart, UInt8.le_iff_toNat_le, UInt8.reduceToNat]
  omega

/-- What a step does from an index of the string. -/
theorem nextRaw_of_byte {s : Bytes} {i : Int} {c : UInt8}
    (hi : i ≤ s.length) (hc : byte s i = some c) :
    nextRaw s (some i) = .ok
      (if CanStart c then
        if i + charLength c > s.length then none
        else some (i + charLength c, true)
      else some (i + 1, false)) := by
  have hle : ¬ i > (s.length : Int) := by omega
  have hzero : (0 : UInt8) ≤ c := UInt8.zero_le
  simp only [nextRaw, if_neg hle, hc, nonNil, canStart_iff, charLength, hzero,
    true_and, bind, Except.bind, pure, Except.pure]
  by_cases h1 : c ≤ 0x7F
  · simp only [h1, if_true, true_or, Nat.cast_one]
  by_cases h2 : 0xC2 ≤ c ∧ c ≤ 0xDF
  · simp only [h1, h2, if_true, if_false, true_or, or_true, and_self,
      Nat.cast_ofNat]
  by_cases h3 : 0xE0 ≤ c ∧ c ≤ 0xEF
  · simp only [h1, h2, h3, if_true, if_false, true_or, or_true, and_self,
      Nat.cast_ofNat]
  by_cases h4 : 0xF0 ≤ c ∧ c ≤ 0xF4
  · simp only [h1, h2, h3, h4, if_true, if_false, or_true, and_self,
      Nat.cast_ofNat]
  · simp only [h1, h2, h3, h4, if_false, or_self]

theorem nextRaw_past {s : Bytes} {i : Int} (h : i > s.length) :
    nextRaw s (some i) = .ok none := if_pos h

/-- A step from an index of the string goes forward. -/
theorem nextRaw_lt {s : Bytes} {i j : Int} {v : Bool}
    (h : nextRaw s (some i) = .ok (some (j, v))) : i ≤ s.length ∧ i < j := by
  by_cases hi : i ≤ s.length
  · cases hc : byte s i with
    | none =>
        simp only [nextRaw, hc] at h
        rw [if_neg (by omega)] at h
        cases h
    | some c =>
        have hpos := charLength_pos c
        rw [nextRaw_of_byte hi hc] at h
        split_ifs at h <;> cases h <;> omega
  · rw [nextRaw_past (by omega)] at h
    cases h

/-! ## The loop -/

/-- `for i, valid in utf8.next, s, previ`: what the loop runs through. -/
def byteIndicesFrom (s : Bytes) (previ : Option Int) :
    Except Error (List (Int × Bool)) :=
  match _h : nextRaw s previ with
  | .error e => .error e
  | .ok none => .ok []
  | .ok (some (i, valid)) => do
      let rest ← byteIndicesFrom s (some i)
      return (i, valid) :: rest
termination_by previ.elim (s.length + 2) fun i => (s.length + 1 - i).toNat
decreasing_by
  cases previ with
  | none =>
      have hi : i = 1 := by
        simp only [nextRaw] at _h
        split_ifs at _h
        · cases _h
        · cases _h
          rfl
      simp only [Option.elim, hi]
      omega
  | some j =>
      have hlt := nextRaw_lt _h
      simp only [Option.elim]
      omega

section Loop

variable {s : Bytes} {previ : Option Int}

theorem byteIndicesFrom_of_none (h : nextRaw s previ = .ok none) :
    byteIndicesFrom s previ = .ok [] := by
  rw [byteIndicesFrom]
  split <;> simp_all

theorem byteIndicesFrom_of_some {i : Int} {valid : Bool}
    {l : List (Int × Bool)} (h : nextRaw s previ = .ok (some (i, valid)))
    (hl : byteIndicesFrom s (some i) = .ok l) :
    byteIndicesFrom s previ = .ok ((i, valid) :: l) := by
  rw [byteIndicesFrom]
  split
  · simp_all
  · simp_all
  · rename_i j v hj
    obtain ⟨rfl, rfl⟩ : i = j ∧ valid = v := by
      simpa using h.symm.trans hj
    rw [hl]
    rfl

end Loop

/-- `utf8.byte_indices(s)` -/
def byteIndices (s : Bytes) : Except Error (List (Int × Bool)) :=
  byteIndicesFrom s none

/-- `utf8.len(s)` -/
def len (s : Bytes) : Except Error Int := do
  return (← byteIndices s).foldl (fun len _ => len + 1) 0

end LuaAttic.Utf8
