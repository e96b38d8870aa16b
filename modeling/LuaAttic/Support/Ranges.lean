import Mathlib.Algebra.Order.Ring.Int
import Mathlib.Tactic.Common

/-!
# Ranges without stops

The largest ranges of indices, in a range, that have no stop in them.
-/

namespace LuaAttic.Support

variable {P : Int → Prop} {start stop j : Int} {r : Int × Int} {rs : List (Int × Int)}

/-- A range is not empty, has no stop, and no larger one has none. -/
structure MaximalRange (P : Int → Prop) (start stop : Int) (r : Int × Int) : Prop where
  le_fst : start ≤ r.1
  fst_le : r.1 ≤ r.2
  le_stop : r.2 ≤ stop
  free : ∀ i, r.1 ≤ i → i ≤ r.2 → ¬ P i
  maximal : ∀ a b, start ≤ a → a ≤ r.1 → r.2 ≤ b → b ≤ stop →
    (∀ i, a ≤ i → i ≤ b → ¬ P i) → a = r.1 ∧ b = r.2

/-- A range ends before a stop or at the end. -/
theorem MaximalRange.right (h : MaximalRange P start stop r) : r.2 = stop ∨ P (r.2 + 1) := by
  by_contra hnot
  obtain ⟨hne, hP⟩ := not_or.mp hnot
  have hlt : r.2 < stop := lt_of_le_of_ne h.le_stop hne
  have hlarger := h.maximal r.1 (r.2 + 1) h.le_fst le_rfl (by omega) (by omega) (by
    intro i hi hi'
    by_cases heq : i = r.2 + 1
    · rwa [heq]
    · exact h.free i hi (by omega))
  omega

theorem MaximalRange.left (h : MaximalRange P start stop r) : r.1 = start ∨ P (r.1 - 1) := by
  by_contra hnot
  obtain ⟨hne, hP⟩ := not_or.mp hnot
  have hlt : start < r.1 := lt_of_le_of_ne h.le_fst (Ne.symm hne)
  have hlarger := h.maximal (r.1 - 1) r.2 (by omega) (by omega) le_rfl h.le_stop (by
    intro i hi hi'
    by_cases heq : i = r.1 - 1
    · rwa [heq]
    · exact h.free i (by omega) hi')
  omega

/-- A range between stops, or ends, is a largest one. -/
theorem MaximalRange.of_bounds (hstart : start ≤ r.1) (hle : r.1 ≤ r.2) (hstop : r.2 ≤ stop)
    (hfree : ∀ i, r.1 ≤ i → i ≤ r.2 → ¬ P i) (hleft : r.1 = start ∨ P (r.1 - 1))
    (hright : r.2 = stop ∨ P (r.2 + 1)) : MaximalRange P start stop r where
  le_fst := hstart
  fst_le := hle
  le_stop := hstop
  free := hfree
  maximal := by
    intro a b ha har hrb hb hab
    constructor
    · rcases hleft with hleft | hleft
      · omega
      · by_contra hne
        exact hab (r.1 - 1) (by omega) (by omega) hleft
    · rcases hright with hright | hright
      · omega
      · by_contra hne
        exact hab (r.2 + 1) (by omega) (by omega) hright

/-- A range is a largest one when it is between stops, or ends. -/
theorem maximalRange_iff : MaximalRange P start stop r ↔
    start ≤ r.1 ∧ r.1 ≤ r.2 ∧ r.2 ≤ stop ∧ (∀ i, r.1 ≤ i → i ≤ r.2 → ¬ P i) ∧
      (r.1 = start ∨ P (r.1 - 1)) ∧ (r.2 = stop ∨ P (r.2 + 1)) :=
  ⟨fun h => ⟨h.le_fst, h.fst_le, h.le_stop, h.free, h.left, h.right⟩,
    fun ⟨hstart, hle, hstop, hfree, hleft, hright⟩ =>
      .of_bounds hstart hle hstop hfree hleft hright⟩

/-- A largest range goes as far as one with a common index. -/
theorem MaximalRange.contains {r' : Int × Int} (h : MaximalRange P start stop r)
    (h' : MaximalRange P start stop r') {i : Int} (hi : r.1 ≤ i ∧ i ≤ r.2)
    (hi' : r'.1 ≤ i ∧ i ≤ r'.2) : r.1 ≤ r'.1 ∧ r'.2 ≤ r.2 := by
  have hstart := h'.le_fst
  have hstop := h'.le_stop
  constructor
  · by_contra hlt
    rcases h.left with hleft | hleft
    · omega
    · exact h'.free (r.1 - 1) (by omega) (by omega) hleft
  · by_contra hlt
    rcases h.right with hright | hright
    · omega
    · exact h'.free (r.2 + 1) (by omega) (by omega) hright

/-! ## Lists of ranges -/

/-- The largest ranges, in order. -/
structure Ranges (P : Int → Prop) (start stop : Int) (rs : List (Int × Int)) : Prop where
  ordered : rs.Pairwise fun r r' => r.2 < r'.1
  mem_iff : ∀ r, r ∈ rs ↔ MaximalRange P start stop r
  covers : ∀ i, start ≤ i → i ≤ stop → ¬ P i → ∃ r ∈ rs, r.1 ≤ i ∧ i ≤ r.2

theorem Ranges.nil (h : stop < start) : Ranges P start stop [] where
  ordered := List.Pairwise.nil
  mem_iff r := by
    refine iff_of_false List.not_mem_nil fun hr => ?_
    have := hr.le_fst
    have := hr.fst_le
    have := hr.le_stop
    omega
  covers i hi hi' := by omega

/-- A stop at the start is passed. -/
theorem Ranges.skip (hP : P start) (h : Ranges P (start + 1) stop rs) :
    Ranges P start stop rs where
  ordered := h.ordered
  mem_iff r := by
    rw [h.mem_iff, maximalRange_iff, maximalRange_iff]
    constructor
    · rintro ⟨hstart, hle, hstop, hfree, hleft, hright⟩
      refine ⟨by omega, hle, hstop, hfree, Or.inr ?_, hright⟩
      rcases hleft with hleft | hleft
      · rwa [hleft, Int.add_sub_cancel]
      · exact hleft
    · rintro ⟨hstart, hle, hstop, hfree, hleft, hright⟩
      have hne : r.1 ≠ start := fun heq => hfree start (by omega) (by omega) hP
      exact ⟨by omega, hle, hstop, hfree, Or.inr (hleft.resolve_left hne), hright⟩
  covers := by
    intro i hi hi' hnot
    have hne : i ≠ start := fun heq => hnot (heq ▸ hP)
    exact h.covers i (by omega) hi' hnot

/-- A largest range after a stop is one in the whole range. -/
theorem MaximalRange.of_next (h : MaximalRange P (j + 2) stop r) (hle : start ≤ j + 2)
    (hright : j = stop ∨ P (j + 1)) : MaximalRange P start stop r := by
  have hfst := h.le_fst
  have hsnd := h.fst_le
  have hstop := h.le_stop
  have hP : P (j + 1) := hright.resolve_left (by omega)
  refine .of_bounds (by omega) hsnd hstop h.free (Or.inr ?_) h.right
  rcases h.left with hleft | hleft
  · rw [hleft]
    convert hP using 1
    omega
  · exact hleft

/-- A largest range that begins after the first one begins after its stop. -/
theorem MaximalRange.of_later (h : MaximalRange P start stop r) (hright : j = stop ∨ P (j + 1))
    (hlt : start ≤ j ∧ j < r.1) : MaximalRange P (j + 2) stop r := by
  have hsnd := h.fst_le
  have hstop := h.le_stop
  have hP : P (j + 1) := hright.resolve_left (by omega)
  have hne : r.1 ≠ j + 1 := fun heq => h.free (j + 1) (by omega) (by omega) hP
  exact .of_bounds (by omega) hsnd hstop h.free (Or.inr (h.left.resolve_left (by omega))) h.right

/-- The range from the start to a stop, or to the end, is the first one. -/
theorem Ranges.cons (hle : start ≤ j) (hstop : j ≤ stop)
    (hfree : ∀ i, start ≤ i → i ≤ j → ¬ P i) (hright : j = stop ∨ P (j + 1))
    (h : Ranges P (j + 2) stop rs) : Ranges P start stop ((start, j) :: rs) where
  ordered := by
    refine List.Pairwise.cons ?_ h.ordered
    intro r hr
    have := ((h.mem_iff r).mp hr).le_fst
    omega
  mem_iff r := by
    rw [List.mem_cons, h.mem_iff]
    constructor
    · rintro (rfl | hr)
      · exact .of_bounds le_rfl hle hstop hfree (Or.inl rfl) hright
      · exact hr.of_next (by omega) hright
    · intro hr
      by_cases hrj : r.1 ≤ j
      · have hfirst : MaximalRange P start stop (start, j) :=
          .of_bounds le_rfl hle hstop hfree (Or.inl rfl) hright
        have hcommon : r.1 ≤ r.1 ∧ r.1 ≤ r.2 := ⟨le_rfl, hr.fst_le⟩
        have hcommon' : start ≤ r.1 ∧ r.1 ≤ j := ⟨hr.le_fst, hrj⟩
        have hin := hfirst.contains hr hcommon' hcommon
        have hout := hr.contains hfirst hcommon hcommon'
        exact Or.inl (Prod.ext (le_antisymm hout.1 hin.1) (le_antisymm hin.2 hout.2))
      · exact Or.inr (hr.of_later hright (by omega))
  covers := by
    intro i hi hi' hnot
    by_cases hij : i ≤ j
    · exact ⟨(start, j), List.mem_cons_self, hi, hij⟩
    · have hne : i ≠ j + 1 := by
        rintro rfl
        rcases hright with rfl | hright
        · omega
        · exact hnot hright
      obtain ⟨r, hr, hri⟩ := h.covers i (by omega) hi' hnot
      exact ⟨r, List.mem_cons_of_mem _ hr, hri⟩

/-- Each index that is not a stop is in one range. -/
theorem Ranges.existsUnique (h : Ranges P start stop rs) {i : Int} (hi : start ≤ i)
    (hi' : i ≤ stop) (hP : ¬ P i) : ∃! r, r ∈ rs ∧ r.1 ≤ i ∧ i ≤ r.2 := by
  obtain ⟨r, hr, hri⟩ := h.covers i hi hi' hP
  refine ⟨r, ⟨hr, hri⟩, ?_⟩
  rintro r' ⟨hr', hri'⟩
  have hmax := (h.mem_iff r).mp hr
  have hmax' := (h.mem_iff r').mp hr'
  have hin := hmax.contains hmax' hri hri'
  have hout := hmax'.contains hmax hri' hri
  exact Prod.ext (le_antisymm hout.1 hin.1) (le_antisymm hin.2 hout.2)

end LuaAttic.Support
