import Mathlib.Data.Nat.Digits.Defs

/-!
# Buffers

An array of a fixed size is written at positions inside of it.  A number is
written as its bytes, the low one first.
-/

namespace LuaAttic.Support

/-! ## Writing -/

section Writing

variable {α : Type*}

/-- The elements from a position on are replaced; none where they do not fit. -/
def write (buf : List α) (pos : ℕ) (elems : List α) : Option (List α) :=
  if pos + elems.length ≤ buf.length then
    some (buf.take pos ++ elems ++ buf.drop (pos + elems.length))
  else
    none

theorem write_append {done rest elems : List α} (h : elems.length ≤ rest.length) :
    write (done ++ rest) done.length elems =
      some (done ++ elems ++ rest.drop elems.length) := by
  have hfits : done.length + elems.length ≤ (done ++ rest).length := by
    rw [List.length_append]
    exact Nat.add_le_add_left h _
  rw [write, if_pos hfits, List.take_left, List.drop_length_add_append]

/-- What comes next is written where nothing is written yet. -/
theorem write_fresh {done elems : List α} {pos n k : ℕ} (a : α) (hpos : pos = done.length)
    (hn : n = elems.length + k) :
    write (done ++ List.replicate n a) pos elems =
      some (done ++ elems ++ List.replicate k a) := by
  subst hpos hn
  rw [write_append (by simp), List.drop_replicate, Nat.add_sub_cancel_left]

end Writing

/-! ## Numbers as bytes -/

/-- The bytes of a number. -/
def leBytes : ℕ → ℕ → List UInt8
  | 0, _ => []
  | w + 1, n => UInt8.ofNat n :: leBytes w (n / 256)

/-- The number that bytes are. -/
def leNat (bytes : List UInt8) : ℕ := Nat.ofDigits 256 (bytes.map UInt8.toNat)

@[simp] theorem length_leBytes (w n : ℕ) : (leBytes w n).length = w := by
  induction w generalizing n with
  | zero => rfl
  | succ w ih => rw [leBytes, List.length_cons, ih]

theorem leNat_leBytes (w n : ℕ) : leNat (leBytes w n) = n % 256 ^ w := by
  induction w generalizing n with
  | zero => rw [Nat.pow_zero, Nat.mod_one, leBytes, leNat, List.map_nil, Nat.ofDigits_nil]
  | succ w ih =>
      have hrest : Nat.ofDigits 256 ((leBytes w (n / 256)).map UInt8.toNat) =
          n / 256 % 256 ^ w := ih (n / 256)
      rw [leBytes, leNat, List.map_cons, Nat.ofDigits_cons, hrest, Nat.pow_succ', Nat.mod_mul]
      simp

end LuaAttic.Support
