import Mathlib.Data.Nat.ModEq
import LuaAttic.Support.RobinHood

/-!
# Linear probing

An entry is in the first slot from its home on that was free when it was put there; the slots
wrap around.  As long as nothing is taken out, the search for a key ends at its slot, or at the
first free one.
-/

namespace LuaAttic.Support.LinearProbing

open RobinHood (filled mem_filled)

variable {E K : Type*} {home : E → ℕ} {n : ℕ} {s : ℕ → Option E}

/-! ## Going around -/

theorem eq_of_add_mod_eq {h c d : ℕ} (hc : c < n) (hd : d < n)
    (heq : (h + c) % n = (h + d) % n) : c = d := by
  have hmod : c % n = d % n := Nat.ModEq.add_left_cancel' h heq
  rwa [Nat.mod_eq_of_lt hc, Nat.mod_eq_of_lt hd] at hmod

/-- All slots are met from any slot on. -/
theorem exists_add_mod_eq (h : ℕ) {i : ℕ} (hi : i < n) : ∃ d < n, (h + d) % n = i := by
  have hpos : 0 < n := Nat.zero_lt_of_lt hi
  -- the slot `i` is met after going on by `i - h`, or after wrapping around
  refine ⟨(i + (n - h % n)) % n, Nat.mod_lt _ hpos, ?_⟩
  have hh := Nat.mod_lt h hpos
  rw [Nat.add_mod, Nat.mod_mod, ← Nat.add_mod]
  have hsum : h + (i + (n - h % n)) = i + n * (h / n + 1) := by
    have := Nat.div_add_mod h n
    rw [Nat.mul_succ]
    omega
  rw [hsum, Nat.add_mul_mod_self_left, Nat.mod_eq_of_lt hi]

/-! ## Searches -/

/-- All slots from the home of an entry up to its own are taken. -/
def Probed (home : E → ℕ) (n : ℕ) (s : ℕ → Option E) : Prop :=
  ∀ i a, s i = some a → ∃ d, i = (home a + d) % n ∧ ∀ c < d, s ((home a + c) % n) ≠ none

theorem probed_empty (home : E → ℕ) (n : ℕ) : Probed home n fun _ => none :=
  fun _ _ h => nomatch h

/-- A free slot is met from any slot on. -/
theorem exists_free {h : ℕ} (hfree : (filled s n).card < n) :
    ∃ d < n, s ((h + d) % n) = none := by
  by_contra hnone
  push Not at hnone
  have hsub : Finset.range n ⊆ filled s n := by
    intro i hi
    obtain ⟨d, hd, rfl⟩ := exists_add_mod_eq h (Finset.mem_range.mp hi)
    exact mem_filled.mpr ⟨Finset.mem_range.mp hi, hnone d hd⟩
  have hcard := Finset.card_le_card hsub
  rw [Finset.card_range] at hcard
  omega

/-- A key that has not been met before a free slot is not there. -/
theorem Probed.ne_of_free (hs : Probed home n s) {h d : ℕ} (hfree : s ((h + d) % n) = none)
    {P : E → Prop} (hhome : ∀ a, P a → home a = h)
    (hbefore : ∀ c < d, ∀ a, s ((h + c) % n) = some a → ¬ P a) {i : ℕ} {a : E}
    (ha : s i = some a) : ¬ P a := by
  intro hP
  obtain ⟨e, rfl, hfull⟩ := hs i a ha
  rw [hhome a hP] at ha hfull
  rcases lt_trichotomy e d with hlt | rfl | hgt
  · exact hbefore e hlt a ha hP
  · rw [hfree] at ha
    cases ha
  · exact hfull d hgt hfree

/-- An entry is put into the first free slot from its home on. -/
theorem Probed.update (hs : Probed home n s) {x : E} {d : ℕ}
    (hbefore : ∀ c < d, s ((home x + c) % n) ≠ none) :
    Probed home n (Function.update s ((home x + d) % n) (some x)) := by
  have hkeep : ∀ j, s j ≠ none → Function.update s ((home x + d) % n) (some x) j ≠ none := by
    intro j hj
    by_cases heq : j = (home x + d) % n
    · rw [heq, Function.update_self]
      exact Option.some_ne_none x
    · rwa [Function.update_of_ne heq]
  intro i a ha
  by_cases heq : i = (home x + d) % n
  · subst heq
    rw [Function.update_self] at ha
    obtain rfl := Option.some.inj ha
    exact ⟨d, rfl, fun c hc => hkeep _ (hbefore c hc)⟩
  · rw [Function.update_of_ne heq] at ha
    obtain ⟨e, rfl, hfull⟩ := hs i a ha
    exact ⟨e, rfl, fun c hc => hkeep _ (hfull c hc)⟩

theorem filled_update {p : ℕ} {x : E} (hp : p < n) :
    filled (Function.update s p (some x)) n = insert p (filled s n) := by
  ext i
  rw [Finset.mem_insert, mem_filled, mem_filled]
  by_cases heq : i = p
  · rw [heq, Function.update_self]
    exact iff_of_true ⟨hp, Option.some_ne_none x⟩ (Or.inl rfl)
  · rw [Function.update_of_ne heq]
    exact (or_iff_right heq).symm

end LuaAttic.Support.LinearProbing
