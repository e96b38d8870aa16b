import Mathlib

/-!
# Cursors over one sequence

Some cursors read the same sequence, each at its own pace.  A schedule lists
the reads in their order; how far a cursor has come is how often it is in the
schedule.
-/

namespace LuaAttic.Support

variable {ι : Type} [DecidableEq ι] {cs : Finset ι} {p : List ι} {i : ι}

/-- How far the fastest cursor has come. -/
def fastest (cs : Finset ι) (p : List ι) : ℕ := cs.sup fun i => p.count i

/-- An element that some cursor has read and some has not; the first one has
the number one. -/
def Pending (cs : Finset ι) (p : List ι) (j : ℕ) : Prop :=
  (∃ i ∈ cs, j ≤ p.count i) ∧ ∃ i ∈ cs, p.count i < j

@[simp] theorem fastest_nil : fastest cs [] = 0 :=
  Nat.le_zero.mp (Finset.sup_le fun _ _ => le_rfl)

theorem count_le_fastest (hi : i ∈ cs) : p.count i ≤ fastest cs p :=
  Finset.le_sup (f := (p.count ·)) hi

theorem le_fastest_iff {j : ℕ} (hj : 0 < j) :
    j ≤ fastest cs p ↔ ∃ i ∈ cs, j ≤ p.count i :=
  Finset.le_sup_iff hj

theorem lt_fastest_iff {k : ℕ} : k < fastest cs p ↔ ∃ i ∈ cs, k < p.count i :=
  Finset.lt_sup_iff

theorem count_snoc (p : List ι) (i j : ι) :
    (p ++ [i]).count j = p.count j + if i = j then 1 else 0 := by
  rw [List.count_append, List.count_singleton]
  by_cases h : i = j <;> simp [h]

theorem fastest_snoc (hi : i ∈ cs) :
    fastest cs (p ++ [i]) = max (fastest cs p) (p.count i + 1) := by
  apply le_antisymm
  · refine Finset.sup_le fun j hj => ?_
    simp only [count_snoc]
    split
    · next h =>
        subst h
        exact le_max_right _ _
    · exact le_max_of_le_left (count_le_fastest hj)
  · refine max_le (Finset.sup_mono_fun fun j _ => ?_) ?_
    · simp only [count_snoc]
      exact Nat.le_add_right _ _
    · have h := count_le_fastest (p := p ++ [i]) hi
      rwa [count_snoc, if_pos rfl] at h

theorem fastest_mono {q : List ι} (h : p <+: q) : fastest cs p ≤ fastest cs q :=
  Finset.sup_mono_fun fun _ _ => h.sublist.count_le _

/-- If all cursors move, one of them is the last to do so. -/
theorem exists_last_to_move (hne : cs.Nonempty) (hall : ∀ i ∈ cs, i ∈ p) :
    ∃ q i, q ++ [i] <+: p ∧ i ∈ cs ∧ i ∉ q ∧ ∀ j ∈ cs, j ∈ q ++ [i] := by
  induction p using List.reverseRecOn with
  | nil =>
      obtain ⟨i, hi⟩ := hne
      exact absurd (hall i hi) List.not_mem_nil
  | append_singleton r a ih =>
      by_cases hr : ∀ i ∈ cs, i ∈ r
      · obtain ⟨q, i, hq, h⟩ := ih hr
        exact ⟨q, i, hq.trans (List.prefix_append r [a]), h⟩
      · push Not at hr
        obtain ⟨i, hi, hir⟩ := hr
        obtain rfl : i = a := by simpa [hir] using hall i hi
        exact ⟨r, i, List.prefix_rfl, hi, hir, hall⟩

end LuaAttic.Support
