import Mathlib.Tactic.Positivity
import LuaAttic.Mmap.System
import LuaAttic.Support.Multiples

/-!
# When sizes are aligned

The bits of a size are taken in 32-bit words with a sign.  A number is aligned
only below the sign bit, and of a 64-bit integer the carry out of the low word
is lost.
-/

namespace LuaAttic.Mmap

open LuaAttic.Support

/-! ## What is asked for -/

section Asked

variable (sys : System)

/-- A size is aligned to the right and to the left. -/
structure Aligned (p x right left : ℤ) : Prop where
  right : IsLeast {y | p ∣ y ∧ x ≤ y} right
  left : IsGreatest {y | p ∣ y ∧ y ≤ x} left

/-- A number is aligned, and as it is as a 64-bit integer. -/
structure AlignsNumber (x : ℤ) : Prop where
  aligned : Aligned sys.pagesize x (sys.alignedSize x false) (sys.alignedSize x true)
  agree : ∀ left, ((sys.alignedSize64 (BitVec.ofInt 64 x) left).toNat : ℤ) =
    sys.alignedSize x left

/-- A 64-bit integer is aligned. -/
def AlignsWord (x : BitVec 64) : Prop :=
  Aligned sys.pagesize x.toNat (sys.alignedSize64 x false).toNat (sys.alignedSize64 x true).toNat

end Asked

/-! ## Words -/

theorem toNat_and_not_low {w k : ℕ} (x : BitVec w) (hk : k ≤ w) :
    (x &&& ~~~BitVec.ofNat w (2 ^ k - 1)).toNat = x.toNat / 2 ^ k * 2 ^ k := by
  refine Nat.eq_of_testBit_eq fun i => ?_
  rw [Nat.testBit_mul_two_pow, Nat.testBit_div_two_pow, ← BitVec.getLsbD, BitVec.getLsbD_and,
    BitVec.getLsbD_not, BitVec.getLsbD_ofNat, Nat.testBit_two_pow_sub_one]
  by_cases hi : i < k
  · have hw : i < w := by omega
    simp [hi, hw]
  · have hback : i - k + k = i := Nat.sub_add_cancel (Nat.le_of_not_lt hi)
    by_cases hw : i < w
    · simp [hi, hw, hback, BitVec.getLsbD, Nat.le_of_not_lt hi]
    · have hx : x.toNat.testBit i = false := BitVec.getLsbD_of_ge x i (Nat.le_of_not_lt hw)
      simp [hi, hw, hback, hx]

theorem dvd_two_pow {k n : ℕ} (hk : k ≤ n) : (2 : ℤ) ^ k ∣ 2 ^ n := by
  obtain ⟨d, rfl⟩ := Nat.exists_eq_add_of_le hk
  exact ⟨2 ^ d, pow_add 2 k d⟩

/-- The bits from some bit on, in a word with a sign. -/
theorem band_bnot_low {k : ℕ} (hk : k ≤ 31) (x : ℤ) :
    band x (bnot (2 ^ k - 1)) = (floorTo (2 ^ k) x).bmod (2 ^ 32) := by
  have hp : (0 : ℤ) < 2 ^ k := by positivity
  have hmask : BitVec.ofInt 32 (2 ^ k - 1) = BitVec.ofNat 32 (2 ^ k - 1) := by
    have hcast : ((2 ^ k - 1 : ℕ) : ℤ) = 2 ^ k - 1 := by
      rw [Nat.cast_sub Nat.one_le_two_pow]
      push_cast
      rfl
    rw [← hcast, BitVec.ofInt_natCast]
  have hnat : ((BitVec.ofInt 32 x).toNat : ℤ) = x % 2 ^ 32 := by
    rw [BitVec.toNat_ofInt]
    omega
  rw [band, bnot, BitVec.ofInt_toInt, hmask, BitVec.toInt_eq_toNat_bmod,
    toNat_and_not_low _ (by omega)]
  have hfloor : (((BitVec.ofInt 32 x).toNat / 2 ^ k * 2 ^ k : ℕ) : ℤ) =
      floorTo (2 ^ k) (x % 2 ^ 32) := by
    rw [floorTo, ← hnat]
    push_cast
    rfl
  rw [hfloor, floorTo_emod hp x (dvd_two_pow (by omega)), Int.sub_eq_add_neg, ← Int.mul_neg]
  exact Int.add_mul_bmod_self_left _ (2 ^ 32) _

/-! ## Alignment -/

/-- What a size is aligned to. -/
def alignedTo (p x : ℤ) (left : Bool) : ℤ := if left then floorTo p x else ceilTo p x

section Alignment

variable {sys : System} {k : ℕ}

theorem alignedSize_eq (hpage : sys.pagesize = 2 ^ k) (hk : k ≤ 31) (x : ℤ) (left : Bool) :
    sys.alignedSize x left = (alignedTo sys.pagesize x left).bmod (2 ^ 32) := by
  rw [System.alignedSize, hpage]
  cases left with
  | true => exact band_bnot_low hk x
  | false => exact band_bnot_low hk (x + 2 ^ k - 1)

/-- The low word is aligned, and the high word stays. -/
theorem toNat_alignedSize64 (hpage : sys.pagesize = 2 ^ k) (hk : k ≤ 31) (x : BitVec 64)
    (left : Bool) : ((sys.alignedSize64 x left).toNat : ℤ) =
      2 ^ 32 * ((x.toNat : ℤ) / 2 ^ 32) +
        alignedTo sys.pagesize ((x.toNat : ℤ) % 2 ^ 32) left % 2 ^ 32 := by
  have hlo : ((x.extractLsb' 0 32).toNat : ℤ) = (x.toNat : ℤ) % 2 ^ 32 := by
    rw [BitVec.extractLsb'_toNat]
    rfl
  have hhi : (x.extractLsb' 32 32).toNat = x.toNat / 2 ^ 32 := by
    rw [BitVec.extractLsb'_toNat, Nat.shiftRight_eq_div_pow]
    omega
  rw [System.alignedSize64, BitVec.toNat_append, alignedSize_eq hpage hk, hlo, hhi,
    ← Nat.shiftLeft_add_eq_or_of_lt (BitVec.isLt _), Nat.shiftLeft_eq, BitVec.toNat_ofInt]
  have hmod : ((alignedTo sys.pagesize ((x.toNat : ℤ) % 2 ^ 32) left).bmod (2 ^ 32)) %
      ((2 ^ 32 : ℕ) : ℤ) = alignedTo sys.pagesize ((x.toNat : ℤ) % 2 ^ 32) left % 2 ^ 32 :=
    Int.bmod_emod
  rw [hmod]
  omega

theorem alignedTo_spec {p : ℤ} (hp : 0 < p) (x : ℤ) :
    Aligned p x (alignedTo p x false) (alignedTo p x true) :=
  ⟨isLeast_ceilTo hp x, isGreatest_floorTo hp x⟩

theorem aligned_iff {p x right left : ℤ} (hp : 0 < p) :
    Aligned p x right left ↔ right = alignedTo p x false ∧ left = alignedTo p x true := by
  constructor
  · rintro ⟨hright, hleft⟩
    exact ⟨hright.unique (isLeast_ceilTo hp x), hleft.unique (isGreatest_floorTo hp x)⟩
  · rintro ⟨rfl, rfl⟩
    exact alignedTo_spec hp x

theorem alignedTo_nonneg {p x : ℤ} (hp : 0 < p) (hx : 0 ≤ x) (left : Bool) :
    0 ≤ alignedTo p x left := by
  cases left with
  | true => exact (le_floorTo_iff hp x (Int.dvd_zero p)).mpr hx
  | false => exact hx.trans (isLeast_ceilTo hp x).1.2

end Alignment

/-! ## Results -/

section Results

variable {sys : System} {k : ℕ}

theorem alignsNumber_iff (hpage : sys.pagesize = 2 ^ k) (hk : k ≤ 31) {x : ℤ} (hx : 0 ≤ x) :
    AlignsNumber sys x ↔ x ≤ 2 ^ 31 - sys.pagesize := by
  have hp : 0 < sys.pagesize := by
    rw [hpage]
    positivity
  have hdvd : sys.pagesize ∣ 2 ^ 31 := hpage ▸ dvd_two_pow hk
  constructor
  · rintro ⟨haligned, -⟩
    have hright := ((aligned_iff hp).mp haligned).1
    rw [alignedSize_eq hpage hk, Int.bmod_def] at hright
    refine (ceilTo_lt_iff hp x hdvd).mp ?_
    change alignedTo sys.pagesize x false < 2 ^ 31
    omega
  · intro hle
    have hceil := (ceilTo_lt_iff hp x hdvd).mpr hle
    have hfloor := floorTo_le hp x
    have hsmall : ∀ left, alignedTo sys.pagesize x left < 2 ^ 31 := by
      intro left
      cases left with
      | true => exact hfloor.trans_lt (by omega)
      | false => exact hceil
    have hsize : ∀ left, sys.alignedSize x left = alignedTo sys.pagesize x left := by
      intro left
      have hnonneg := alignedTo_nonneg hp hx left
      have hlt := hsmall left
      rw [alignedSize_eq hpage hk, Int.bmod_def]
      omega
    refine ⟨(aligned_iff hp).mpr ⟨hsize false, hsize true⟩, fun left => ?_⟩
    have hword : ((BitVec.ofInt 64 x).toNat : ℤ) = x := by
      rw [BitVec.toNat_ofInt]
      omega
    have hmod : x % 2 ^ 32 = x := by omega
    have hnonneg := alignedTo_nonneg hp hx left
    have hlt := hsmall left
    rw [toNat_alignedSize64 hpage hk, hword, hmod, hsize left]
    omega

theorem alignsWord_iff (hpage : sys.pagesize = 2 ^ k) (hk : k ≤ 31) (x : BitVec 64) :
    AlignsWord sys x ↔ (x.toNat : ℤ) % 2 ^ 32 ≤ 2 ^ 32 - sys.pagesize := by
  have hp : 0 < sys.pagesize := by
    rw [hpage]
    positivity
  have hdvd : sys.pagesize ∣ 2 ^ 32 := hpage ▸ dvd_two_pow (by omega)
  have hhigh : sys.pagesize ∣ 2 ^ 32 * ((x.toNat : ℤ) / 2 ^ 32) :=
    Int.dvd_trans hdvd (Int.dvd_mul_right _ _)
  have hsum : (x.toNat : ℤ) = 2 ^ 32 * ((x.toNat : ℤ) / 2 ^ 32) + (x.toNat : ℤ) % 2 ^ 32 := by
    omega
  have hlow : 0 ≤ (x.toNat : ℤ) % 2 ^ 32 := by omega
  have hfloor : floorTo sys.pagesize (x.toNat : ℤ) =
      2 ^ 32 * ((x.toNat : ℤ) / 2 ^ 32) + floorTo sys.pagesize ((x.toNat : ℤ) % 2 ^ 32) := by
    rw [← floorTo_add hp _ hhigh, ← hsum]
  have hceil : ceilTo sys.pagesize (x.toNat : ℤ) =
      2 ^ 32 * ((x.toNat : ℤ) / 2 ^ 32) + ceilTo sys.pagesize ((x.toNat : ℤ) % 2 ^ 32) := by
    rw [← ceilTo_add hp _ hhigh, ← hsum]
  rw [AlignsWord, aligned_iff hp, toNat_alignedSize64 hpage hk, toNat_alignedSize64 hpage hk,
    ← ceilTo_lt_iff hp _ hdvd]
  have hfloorLe := floorTo_le hp ((x.toNat : ℤ) % 2 ^ 32)
  have hfloorNonneg := alignedTo_nonneg hp hlow true
  have hceilNonneg := alignedTo_nonneg hp hlow false
  simp only [alignedTo, if_true, Bool.false_eq_true, if_false] at hfloorNonneg hceilNonneg ⊢
  rw [hfloor, hceil]
  omega

/-- Sizes are aligned exactly where a number stays below the sign bit and the low
word of a 64-bit integer has no carry. -/
theorem aligned_size_iff (sys : System) (k : ℕ) (hpage : sys.pagesize = 2 ^ k) (hk : k ≤ 31) :
    (∀ x : ℤ, 0 ≤ x → x ≤ 2 ^ 53 - sys.pagesize →
      (AlignsNumber sys x ↔ x ≤ 2 ^ 31 - sys.pagesize)) ∧
    ∀ x : BitVec 64, (x.toNat : ℤ) ≤ 2 ^ 64 - sys.pagesize →
      (AlignsWord sys x ↔ (x.toNat : ℤ) % 2 ^ 32 ≤ 2 ^ 32 - sys.pagesize) :=
  ⟨fun _ hx _ => alignsNumber_iff hpage hk hx, fun x _ => alignsWord_iff hpage hk x⟩

/-- A system with pages of 4096 bytes, where all calls return zero. -/
def smallPages : System where
  platform := .linux
  pagesize := 4096
  answer _ _ := 0
  errno _ := 0
  strerror _ := ""

theorem smallPages_aligned :
    AlignsNumber smallPages 5000 ∧ AlignsWord smallPages 0x700005000 := by
  obtain ⟨hnumber, hword⟩ := aligned_size_iff smallPages 12 rfl (by decide)
  exact ⟨(hnumber 5000 (by decide) (by decide)).mpr (by decide),
    (hword _ (by decide)).mpr (by decide)⟩

/-- The last page below the low word is aligned to the start of the same 4 GiB. -/
example : smallPages.alignedSize64 0x7fffff001 false = 0x700000000 := by decide

/-- A number of 2 GiB is aligned to a negative one. -/
theorem not_aligned_size :
    ¬ ∀ (sys : System) (k : ℕ), sys.pagesize = 2 ^ k → k ≤ 31 →
      (∀ x : ℤ, 0 ≤ x → x ≤ 2 ^ 53 - sys.pagesize → AlignsNumber sys x) ∧
      ∀ x : BitVec 64, (x.toNat : ℤ) ≤ 2 ^ 64 - sys.pagesize → AlignsWord sys x := by
  intro hclaim
  have haligned := (hclaim smallPages 12 rfl (by decide)).1 (2 ^ 31) (by decide) (by decide)
  have hsize : smallPages.alignedSize (2 ^ 31) false = -2 ^ 31 := by decide
  have hle := haligned.aligned.right.1.2
  rw [hsize] at hle
  omega

end Results

end LuaAttic.Mmap
