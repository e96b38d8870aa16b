import Mathlib.Data.Nat.Notation
import Mathlib.Logic.Function.Basic

/-!
# Mixing that loses nothing

Steps on words that can be taken back, alone and one after the other.
-/

namespace LuaAttic.Support

section Words

variable {w : ℕ}

/-- The bits of a word can be found from the high end. -/
theorem xor_ushiftRight_injective {s : ℕ} (hs : 0 < s) :
    Function.Injective fun x : BitVec w => x ^^^ x >>> s := by
  intro x y hxy
  have hbits : ∀ k i, w ≤ i + k → x.getLsbD i = y.getLsbD i := by
    intro k
    induction k with
    | zero =>
        intro i hi
        rw [BitVec.getLsbD_of_ge x i hi, BitVec.getLsbD_of_ge y i hi]
    | succ k ih =>
        intro i hi
        have hbit := congrArg (BitVec.getLsbD · i) hxy
        simp only [BitVec.getLsbD_xor, BitVec.getLsbD_ushiftRight] at hbit
        rw [ih (s + i) (by omega)] at hbit
        exact Bool.xor_left_inj.mp hbit
  exact BitVec.eq_of_getLsbD_eq fun i _ => hbits w i (Nat.le_add_left w i)

/-- Multiplication by a word is undone by its inverse. -/
theorem mul_eq_iff_of_inverse {m n : BitVec w} (h : m * n = 1#w) (x y : BitVec w) :
    x * m = y ↔ x = y * n := by
  have h' : n * m = 1#w := (BitVec.mul_comm n m).trans h
  constructor
  · rintro rfl
    rw [BitVec.mul_assoc, h, BitVec.mul_one]
  · rintro rfl
    rw [BitVec.mul_assoc, h', BitVec.mul_one]

theorem xor_eq_iff (x y z : BitVec w) : x ^^^ y = z ↔ x = z ^^^ y := by
  constructor
  · rintro rfl
    rw [BitVec.xor_assoc, BitVec.xor_self, BitVec.xor_zero]
  · rintro rfl
    rw [BitVec.xor_assoc, BitVec.xor_self, BitVec.xor_zero]

end Words

/-- Steps that can be taken back are taken back in the opposite order. -/
theorem foldl_eq_iff_foldr {α β : Type*} {f : β → α → β} {g : α → β → β}
    (h : ∀ b a c, f b a = c ↔ b = g a c) (l : List α) (b c : β) :
    l.foldl f b = c ↔ b = l.foldr g c := by
  induction l generalizing b with
  | nil => exact Iff.rfl
  | cons a l ih => rw [List.foldl_cons, List.foldr_cons, ih, h]

end LuaAttic.Support
