import Mathlib.Algebra.BigOperators.Group.List.Basic
import Mathlib.Algebra.Order.Field.Basic

/-!
# Exact numbers with infinities

The arithmetic of floating-point numbers without the rounding: dividing by zero
gives an infinity, what has no value is not a number, and no comparison holds of
that.  There is one zero, which divides as the positive one does.
-/

namespace LuaAttic.Support

/-- The numbers of a field, the infinities, and what is not a number. -/
inductive Extended (K : Type*)
  | num (q : K)
  | posInf
  | negInf
  | nan
  deriving DecidableEq

namespace Extended

variable {K : Type*}

@[simp] theorem num_ne_nan (a : K) : num a ≠ nan := by
  simp

/-! ## Sums -/

section Sums

variable [Field K]

def add : Extended K → Extended K → Extended K
  | num a, num b => num (a + b)
  | nan, _ => nan
  | _, nan => nan
  | posInf, negInf => nan
  | negInf, posInf => nan
  | posInf, _ => posInf
  | negInf, _ => negInf
  | num _, posInf => posInf
  | num _, negInf => negInf

def neg : Extended K → Extended K
  | num a => num (-a)
  | posInf => negInf
  | negInf => posInf
  | nan => nan

instance : Add (Extended K) := ⟨add⟩

instance : Sub (Extended K) := ⟨fun a b => add a (neg b)⟩

/-- Adding up from zero. -/
def total (l : List (Extended K)) : Extended K := l.foldl (· + ·) (num 0)

@[simp] theorem num_add_num (a b : K) : num a + num b = num (a + b) := rfl

@[simp] theorem num_sub_num (a b : K) : num a - num b = num (a - b) := by
  change num (a + -b) = num (a - b)
  rw [sub_eq_add_neg]

@[simp] theorem num_sub_posInf (a : K) : num a - posInf = negInf := rfl

@[simp] theorem total_map_num {α : Type*} (f : α → K) (l : List α) :
    total (l.map fun x => num (f x)) = num (l.map f).sum := by
  have hfrom (c : K) : (l.map fun x => num (f x)).foldl (· + ·) (num c) =
      num (c + (l.map f).sum) := by
    induction l generalizing c with
    | nil => simp
    | cons x l ih => simp [ih, add_assoc]
  rw [total, hfrom, zero_add]

end Sums

/-! ## Comparisons -/

section Comparisons

variable [LinearOrder K]

/-- The comparison `a <= b`. -/
def le : Extended K → Extended K → Bool
  | num a, num b => decide (a ≤ b)
  | nan, _ => false
  | _, nan => false
  | negInf, _ => true
  | _, posInf => true
  | _, _ => false

/-- The comparison `a < b`. -/
def lt : Extended K → Extended K → Bool
  | num a, num b => decide (a < b)
  | negInf, num _ => true
  | negInf, posInf => true
  | num _, posInf => true
  | _, _ => false

instance : LE (Extended K) := ⟨fun a b => le a b = true⟩

instance : LT (Extended K) := ⟨fun a b => lt a b = true⟩

instance (a b : Extended K) : Decidable (a ≤ b) :=
  inferInstanceAs (Decidable (le a b = true))

instance (a b : Extended K) : Decidable (a < b) :=
  inferInstanceAs (Decidable (lt a b = true))

instance : Min (Extended K) := ⟨fun a b => if a ≤ b then a else b⟩

instance : Max (Extended K) := ⟨fun a b => if a ≤ b then b else a⟩

@[simp] theorem num_le_num (a b : K) : num a ≤ num b ↔ a ≤ b := by
  change decide (a ≤ b) = true ↔ a ≤ b
  exact decide_eq_true_iff

@[simp] theorem num_lt_num (a b : K) : num a < num b ↔ a < b := by
  change decide (a < b) = true ↔ a < b
  exact decide_eq_true_iff

protected theorem le_trans {a b c : Extended K} (hab : a ≤ b) (hbc : b ≤ c) :
    a ≤ c := by
  change le a b = true at hab
  change le b c = true at hbc
  change le a c = true
  cases a <;> cases b <;> cases c <;> simp_all only [le, decide_eq_true_eq]
  · exact le_trans hab hbc
  all_goals contradiction

protected theorem lt_asymm {a b : Extended K} (h : a < b) : ¬ b < a := by
  change lt a b = true at h
  change ¬ lt b a = true
  cases a <;> cases b <;> simp_all only [lt, decide_eq_true_eq, reduceCtorEq, not_false_eq_true]
  exact lt_asymm h

/-- What is between two numbers, unless it is not a number. -/
protected theorem lt_cotrans {a b c : Extended K} (hb : b ≠ nan) (h : a < c) : a < b ∨ b < c := by
  change lt a c = true at h
  change lt a b = true ∨ lt b c = true
  cases a <;> cases b <;> cases c <;> simp_all [lt]
  exact (lt_or_ge _ _).imp_right fun hle => hle.trans_lt h

@[simp] theorem not_num_le_negInf (a : K) : ¬ num a ≤ negInf :=
  Bool.false_ne_true

@[simp] theorem min_num_num (a b : K) : min (num a) (num b) = num (min a b) := by
  change (if num a ≤ num b then num a else num b) = num (min a b)
  rw [min_def, apply_ite num]
  simp only [num_le_num]

@[simp] theorem max_num_num (a b : K) : max (num a) (num b) = num (max a b) := by
  change (if num a ≤ num b then num b else num a) = num (max a b)
  rw [max_def, apply_ite num]
  simp only [num_le_num]

/-- A maximum is at least what its first argument is at least. -/
theorem num_le_max_left {a : K} {x : Extended K} (h : num a ≤ x) (y : Extended K) :
    num a ≤ max x y := by
  change num a ≤ if x ≤ y then y else x
  split_ifs with hle
  · exact Extended.le_trans h hle
  · exact h

theorem num_le_max_right {a b : K} {x : Extended K} (h : num a ≤ x) :
    num b ≤ max x (num b) := by
  change num b ≤ if x ≤ num b then num b else x
  split_ifs with hle
  · exact (num_le_num b b).mpr le_rfl
  · cases x with
    | num q =>
        rw [num_le_num] at hle ⊢
        exact (not_le.mp hle).le
    | posInf => rfl
    | negInf => exact absurd h (not_num_le_negInf a)
    | nan => exact absurd h Bool.false_ne_true

@[simp] theorem min_num_posInf (a : K) : min (num a) posInf = num a :=
  if_pos rfl

@[simp] theorem min_posInf_num (a : K) : min posInf (num a) = num a :=
  if_neg Bool.false_ne_true

end Comparisons

/-! ## Products and quotients -/

section Products

variable [Field K] [LinearOrder K]

/-- The infinity with the sign of a number. -/
def infOf (q : K) : Extended K :=
  if q = 0 then nan else if 0 < q then posInf else negInf

def mul : Extended K → Extended K → Extended K
  | num a, num b => num (a * b)
  | nan, _ => nan
  | _, nan => nan
  | num a, posInf => infOf a
  | num a, negInf => infOf (-a)
  | posInf, num b => infOf b
  | negInf, num b => infOf (-b)
  | posInf, posInf => posInf
  | negInf, negInf => posInf
  | posInf, negInf => negInf
  | negInf, posInf => negInf

def div : Extended K → Extended K → Extended K
  | num a, num b => if b = 0 then infOf a else num (a / b)
  | nan, _ => nan
  | _, nan => nan
  | num _, _ => num 0
  | posInf, num b => if 0 ≤ b then posInf else negInf
  | negInf, num b => if 0 ≤ b then negInf else posInf
  | _, _ => nan

instance : Mul (Extended K) := ⟨mul⟩

instance : Div (Extended K) := ⟨div⟩

@[simp] theorem num_mul_num (a b : K) : num a * num b = num (a * b) := rfl

@[simp] theorem num_mul_nan (a : K) : num a * nan = nan := rfl

theorem num_mul_posInf {a : K} (ha : 0 < a) : num a * posInf = posInf := by
  change infOf a = posInf
  rw [infOf, if_neg ha.ne', if_pos ha]

@[simp] theorem zero_mul_posInf : (num 0 * posInf : Extended K) = nan := by
  change infOf (0 : K) = nan
  rw [infOf, if_pos rfl]

theorem num_div_num (a : K) {b : K} (hb : b ≠ 0) : num a / num b = num (a / b) :=
  if_neg hb

theorem num_div_zero {a : K} (ha : 0 < a) : num a / num 0 = posInf := by
  change (if (0 : K) = 0 then infOf a else num (a / 0)) = posInf
  rw [if_pos rfl, infOf, if_neg ha.ne', if_pos ha]

@[simp] theorem zero_div_zero : (num 0 / num 0 : Extended K) = nan := by
  change (if (0 : K) = 0 then infOf 0 else num (0 / 0)) = nan
  rw [if_pos rfl, infOf, if_pos rfl]

/-! ## Bounds of sums -/

section Bounds

variable [IsStrictOrderedRing K]

theorem num_add_le_add {a b : K} {x y : Extended K} (hx : num a ≤ x) (hy : num b ≤ y) :
    num (a + b) ≤ x + y := by
  cases x <;> cases y <;> first | rfl | contradiction | skip
  rw [num_le_num] at hx hy
  exact (num_le_num _ _).mpr (add_le_add hx hy)

theorem num_sum_le_total {qs : List K} {vs : List (Extended K)}
    (h : List.Forall₂ (fun q v => num q ≤ v) qs vs) : num qs.sum ≤ total vs := by
  have hfrom {a : K} {x : Extended K} (hx : num a ≤ x) :
      num (a + qs.sum) ≤ vs.foldl (· + ·) x := by
    induction h generalizing a x with
    | nil => simpa using hx
    | cons hq _ ih =>
        rw [List.sum_cons, ← add_assoc, List.foldl_cons]
        exact ih (num_add_le_add hx hq)
  have hzero : num (0 : K) ≤ num 0 := (num_le_num 0 0).mpr le_rfl
  rw [← zero_add qs.sum]
  exact hfrom hzero

end Bounds

/-- The smaller of two quotients scales two sums down to their limits. -/
theorem exists_scale [IsStrictOrderedRing K] {p q a b : K} (hp : 0 < p) (hq : 0 < q)
    (ha : 0 ≤ a) (hb : 0 ≤ b) (h : p < a ∨ q < b) :
    ∃ s, 0 < s ∧ min (num p / num a) (num q / num b) = num s ∧
      a * s ≤ p ∧ b * s ≤ q := by
  rcases ha.eq_or_lt with rfl | ha
  · have hb' : 0 < b := hq.trans (h.resolve_left hp.not_gt)
    refine ⟨q / b, div_pos hq hb', ?_, ?_, ?_⟩
    · rw [num_div_zero hp, num_div_num _ hb'.ne', min_posInf_num]
    · rw [zero_mul]
      exact hp.le
    · rw [mul_div_cancel₀ q hb'.ne']
  · rcases hb.eq_or_lt with rfl | hb
    · refine ⟨p / a, div_pos hp ha, ?_, ?_, ?_⟩
      · rw [num_div_zero hq, num_div_num _ ha.ne', min_num_posInf]
      · rw [mul_div_cancel₀ p ha.ne']
      · rw [zero_mul]
        exact hq.le
    · refine ⟨min (p / a) (q / b), lt_min (div_pos hp ha) (div_pos hq hb), ?_, ?_, ?_⟩
      · rw [num_div_num _ ha.ne', num_div_num _ hb.ne', min_num_num]
      · rw [← le_div_iff₀' ha]
        exact min_le_left _ _
      · rw [← le_div_iff₀' hb]
        exact min_le_right _ _

end Products

end Extended

end LuaAttic.Support
