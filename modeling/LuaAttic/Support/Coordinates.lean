import Mathlib.Algebra.Order.Group.Abs
import Mathlib.Order.Monotone.Basic

/-!
# Coordinates along a list

Elements that are placed one after another have increasing coordinates.  A search
that finds the two neighbouring coordinates around a given one finds the nearest
coordinate of all.
-/

namespace LuaAttic.Support

/-! ## The nearest of increasing values -/

section Nearest

variable {K : Type*} [AddCommGroup K] [LinearOrder K] [IsOrderedAddMonoid K]
  {f : ℕ → K} {x : K} {k : ℕ}

/-- No value is nearer to `x` than the one at `k`. -/
def IsNearest (f : ℕ → K) (x : K) (k : ℕ) : Prop := ∀ j, |x - f k| ≤ |x - f j|

/-- The lower one of two neighbours, in the lower half between them. -/
theorem isNearest_lower (hf : Monotone f) (hle : f k ≤ x) (hhalf : x - f k ≤ f (k + 1) - x) :
    IsNearest f x k := by
  intro j
  rw [abs_of_nonneg (sub_nonneg.mpr hle)]
  rcases Nat.lt_or_ge k j with hj | hj
  · -- from the upper neighbour on
    calc x - f k ≤ f (k + 1) - x := hhalf
      _ ≤ f j - x := sub_le_sub_right (hf hj) x
      _ ≤ |f j - x| := le_abs_self _
      _ = |x - f j| := abs_sub_comm _ _
  · exact (sub_le_sub_left (hf hj) x).trans (le_abs_self _)

/-- The upper one of two neighbours, in the upper half between them. -/
theorem isNearest_upper (hf : Monotone f) (hle : x ≤ f (k + 1))
    (hhalf : f (k + 1) - x ≤ x - f k) : IsNearest f x (k + 1) := by
  intro j
  rw [abs_sub_comm, abs_of_nonneg (sub_nonneg.mpr hle)]
  rcases Nat.lt_or_ge k j with hj | hj
  · calc f (k + 1) - x ≤ f j - x := sub_le_sub_right (hf hj) x
      _ ≤ |f j - x| := le_abs_self _
      _ = |x - f j| := abs_sub_comm _ _
  · calc f (k + 1) - x ≤ x - f k := hhalf
      _ ≤ x - f j := sub_le_sub_left (hf hj) x
      _ ≤ |x - f j| := le_abs_self _

/-- Before the first value. -/
theorem isNearest_first (hf : Monotone f) (hle : x ≤ f 0) : IsNearest f x 0 := by
  intro j
  rw [abs_sub_comm, abs_of_nonneg (sub_nonneg.mpr hle), abs_sub_comm x]
  exact (sub_le_sub_right (hf (Nat.zero_le j)) x).trans (le_abs_self _)

/-- Behind the last value. -/
theorem isNearest_last (hlast : ∀ j, f j ≤ f k) (hle : f k ≤ x) : IsNearest f x k := by
  intro j
  rw [abs_of_nonneg (sub_nonneg.mpr hle)]
  exact (sub_le_sub_left (hlast j) x).trans (le_abs_self _)

/-- What is nearest from the second value on, when that one is not behind `x`. -/
theorem IsNearest.of_succ (hf : Monotone f) (hle : f 1 ≤ x)
    (h : IsNearest (fun n => f (n + 1)) x k) : IsNearest f x (k + 1) := by
  intro j
  cases j with
  | zero =>
      have hfirst : f 0 ≤ f 1 := hf (Nat.zero_le 1)
      calc |x - f (k + 1)| ≤ |x - f 1| := h 0
        _ = x - f 1 := abs_of_nonneg (sub_nonneg.mpr hle)
        _ ≤ x - f 0 := sub_le_sub_left hfirst x
        _ ≤ |x - f 0| := le_abs_self _
  | succ j => exact h j

/-- A value is nearest to itself, and to nothing else when there are no others
like it. -/
theorem IsNearest.eq (hf : Function.Injective f) {j : ℕ} (h : IsNearest f (f j) k) : k = j := by
  have hzero := h j
  rw [sub_self, abs_zero] at hzero
  have hdiff := abs_eq_zero.mp (le_antisymm hzero (abs_nonneg _))
  exact (hf (sub_eq_zero.mp hdiff)).symm

omit [AddCommGroup K] [IsOrderedAddMonoid K] in
/-- The two neighbours around a value that is not before the first one. -/
theorem exists_neighbours (hle : f 0 ≤ x) (n : ℕ) :
    (∃ m, m < n ∧ f m ≤ x ∧ x < f (m + 1)) ∨ f n ≤ x := by
  induction n with
  | zero => exact Or.inr hle
  | succ n ih =>
      rcases ih with ⟨m, hm, hbetween⟩ | hn
      · exact Or.inl ⟨m, hm.trans (Nat.lt_succ_self n), hbetween⟩
      · rcases lt_or_ge x (f (n + 1)) with hlt | hge
        · exact Or.inl ⟨n, Nat.lt_succ_self n, hn, hlt⟩
        · exact Or.inr hge

end Nearest

/-! ## Placing elements -/

section Coordinates

variable {α K : Type*} {advance : K → α → K} {x : K} {a : α} {s : List α}

/-- The coordinate after `n` elements, each of which advances from its own. -/
def coordAt (advance : K → α → K) (x : K) (s : List α) (n : ℕ) : K :=
  (s.take n).foldl advance x

@[simp] theorem coordAt_zero : coordAt advance x s 0 = x := rfl

@[simp] theorem coordAt_cons_succ (n : ℕ) :
    coordAt advance x (a :: s) (n + 1) = coordAt advance (advance x a) s n := rfl

theorem coordAt_succ {n : ℕ} (h : n < s.length) :
    coordAt advance x s (n + 1) = advance (coordAt advance x s n) s[n] := by
  rw [coordAt, List.take_succ_eq_append_getElem h, List.foldl_append]
  rfl

/-- Behind the last element the coordinate stays. -/
theorem coordAt_of_length_le {n : ℕ} (h : s.length ≤ n) :
    coordAt advance x s n = coordAt advance x s s.length := by
  rw [coordAt, coordAt, List.take_of_length_le h, List.take_length]

theorem coordAt_monotone [Preorder K] (hadvance : ∀ x a, x ≤ advance x a) :
    Monotone (coordAt advance x s) := by
  refine monotone_nat_of_le_succ ?_
  intro n
  rcases Nat.lt_or_ge n s.length with hn | hn
  · rw [coordAt_succ hn]
    exact hadvance _ _
  · rw [coordAt_of_length_le hn, coordAt_of_length_le (hn.trans (Nat.le_succ n))]

theorem coordAt_lt [Preorder K] (hadvance : ∀ x a, x < advance x a) {i j : ℕ} (hij : i < j)
    (hj : j ≤ s.length) : coordAt advance x s i < coordAt advance x s j := by
  have hi : i < s.length := hij.trans_le hj
  calc coordAt advance x s i < coordAt advance x s (i + 1) := by
        rw [coordAt_succ hi]
        exact hadvance _ _
    _ ≤ coordAt advance x s j := coordAt_monotone (fun x a => (hadvance x a).le) hij

/-- No coordinate is behind that of the end. -/
theorem coordAt_le_last [Preorder K] (hadvance : ∀ x a, x ≤ advance x a) (n : ℕ) :
    coordAt advance x s n ≤ coordAt advance x s s.length := by
  rcases Nat.le_total n s.length with hn | hn
  · exact coordAt_monotone hadvance hn
  · exact (coordAt_of_length_le hn).le

/-- A value that no element reaches over is a coordinate, when it lies between the first
and a later one. -/
theorem exists_coordAt_eq [LinearOrder K] {t : K}
    (hstop : ∀ i < s.length, coordAt advance x s i < t → coordAt advance x s (i + 1) ≤ t)
    (hfirst : x ≤ t) {n : ℕ} (hn : n ≤ s.length) (hlast : t ≤ coordAt advance x s n) :
    ∃ k ≤ n, coordAt advance x s k = t := by
  induction n with
  | zero => exact ⟨0, le_refl 0, le_antisymm hfirst hlast⟩
  | succ n ih =>
      rcases lt_or_ge (coordAt advance x s n) t with hlt | hge
      · exact ⟨n + 1, le_refl _, le_antisymm (hstop n hn hlt) hlast⟩
      · obtain ⟨k, hk, heq⟩ := ih (Nat.le_of_succ_le hn) hge
        exact ⟨k, hk.trans (Nat.le_succ n), heq⟩

end Coordinates

end LuaAttic.Support
