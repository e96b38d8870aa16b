import Mathlib.Order.Bounds.Basic
import Mathlib.Data.Int.Init
import Mathlib.Tactic.Ring

/-!
# Multiples of a number

The greatest multiple up to a number, and the least one from a number on.
-/

namespace LuaAttic.Support

/-- The greatest multiple of `p` that is at most `x`. -/
def floorTo (p x : ℤ) : ℤ := x / p * p

/-- The least multiple of `p` that is at least `x`. -/
def ceilTo (p x : ℤ) : ℤ := floorTo p (x + p - 1)

section Multiples

variable {p : ℤ} (hp : 0 < p) (x : ℤ)

theorem dvd_floorTo : p ∣ floorTo p x := Dvd.intro_left _ rfl

include hp

theorem floorTo_le : floorTo p x ≤ x := Int.ediv_mul_le x hp.ne'

theorem le_floorTo_iff {y : ℤ} (hy : p ∣ y) : y ≤ floorTo p x ↔ y ≤ x := by
  obtain ⟨q, rfl⟩ := hy
  rw [floorTo, Int.mul_comm p q, Int.mul_le_mul_right hp, Int.le_ediv_iff_mul_le hp]

theorem floorTo_lt_iff {y : ℤ} (hy : p ∣ y) : floorTo p x < y ↔ x < y := by
  rw [← not_le, ← not_le, le_floorTo_iff hp x hy]

theorem ceilTo_lt_iff {y : ℤ} (hy : p ∣ y) : ceilTo p x < y ↔ x ≤ y - p := by
  rw [ceilTo, floorTo_lt_iff hp _ hy]
  omega

theorem isGreatest_floorTo : IsGreatest {y | p ∣ y ∧ y ≤ x} (floorTo p x) :=
  ⟨⟨dvd_floorTo x, floorTo_le hp x⟩, fun _ hy => (le_floorTo_iff hp x hy.1).mpr hy.2⟩

theorem isLeast_ceilTo : IsLeast {y | p ∣ y ∧ x ≤ y} (ceilTo p x) := by
  refine ⟨⟨dvd_floorTo _, ?_⟩, fun y hy => ?_⟩
  · by_contra hlt
    have hnext : p ∣ ceilTo p x + p := Int.dvd_add (dvd_floorTo _) (Int.dvd_refl p)
    have hle := (ceilTo_lt_iff hp x hnext).mp (by omega)
    omega
  · obtain ⟨⟨q, rfl⟩, hxy⟩ := hy
    have hnext : p ∣ p * q + p := Int.dvd_add (Int.dvd_mul_right p q) (Int.dvd_refl p)
    have hlt := (ceilTo_lt_iff hp x hnext).mpr (by omega)
    rw [ceilTo, floorTo] at hlt ⊢
    have hq : (x + p - 1) / p < q + 1 := by
      refine Int.lt_of_mul_lt_mul_right (hlt.trans_eq ?_) hp.le
      ring
    rw [Int.mul_comm p q]
    exact Int.mul_le_mul_of_nonneg_right (by omega) hp.le

/-- A multiple can be added before or after. -/
theorem floorTo_add {y : ℤ} (hy : p ∣ y) : floorTo p (y + x) = y + floorTo p x := by
  obtain ⟨q, rfl⟩ := hy
  rw [floorTo, floorTo, Int.add_comm, Int.add_mul_ediv_left _ _ hp.ne']
  ring

theorem ceilTo_add {y : ℤ} (hy : p ∣ y) : ceilTo p (y + x) = y + ceilTo p x := by
  have hsum : y + x + p - 1 = y + (x + p - 1) := by ring
  rw [ceilTo, ceilTo, hsum, floorTo_add hp _ hy]

/-- What is dropped with a multiple is dropped before or after. -/
theorem floorTo_emod {n : ℤ} (hn : p ∣ n) : floorTo p (x % n) = floorTo p x - n * (x / n) := by
  have hsum := floorTo_add hp (x % n) (Int.dvd_trans hn (Int.dvd_mul_right n (x / n)))
  rw [Int.mul_ediv_add_emod] at hsum
  omega

end Multiples

end LuaAttic.Support
