import Mathlib.Tactic.Linarith
import Mathlib.Tactic.Positivity
import LuaAttic.Ctable.Ctable
import LuaAttic.Support.RobinHood

/-!
# Slots and loops of a table

The loops over the slots of a table find where an entry belongs, put it there and take it
out again, as in a table that is sorted by hash.
-/

namespace LuaAttic.Ctable

open LuaAttic.Support

/-! ## Indices -/

theorem hashToIndex_mono {size : ℚ} (hsize : 0 ≤ size) : Monotone (hashToIndex size) := by
  intro a b hab
  have hscale : 0 ≤ size / hashMax := by positivity
  have hle : (a : ℚ) * (size / hashMax) ≤ b * (size / hashMax) :=
    mul_le_mul_of_nonneg_right (by exact_mod_cast hab) hscale
  exact Int.toNat_le_toNat (Int.floor_le_floor (by linarith))

theorem hashToIndex_le {n hash : ℕ} (h : hash < hashMax) : hashToIndex n hash ≤ n := by
  have hmax : (0 : ℚ) < hashMax := by norm_num [hashMax]
  have hle : (hash : ℚ) * (n / hashMax) ≤ n := by
    rw [mul_div_assoc', div_le_iff₀ hmax, mul_comm]
    exact mul_le_mul_of_nonneg_left (by exact_mod_cast h.le) (by positivity)
  have hfloor : ⌊(hash : ℚ) * (n / hashMax) + 1 / 2⌋ ≤ n := by
    rw [← Int.lt_add_one_iff, Int.floor_lt]
    push_cast
    linarith
  exact Int.toNat_le.mpr hfloor

variable {K V : Type} {t : CTable K V} {i index : ℕ} {e : Entry K V}

namespace CTable

theorem count_of_size {n : ℕ} (h : t.size = n) : t.count = 2 * n := by
  have hcast : t.size * 2 = ((2 * n : ℕ) : ℚ) := by
    rw [h]
    push_cast
    ring
  rw [count, hcast, Int.floor_natCast, Int.toNat_natCast]

/-- A slot that is not free. -/
def slot (t : CTable K V) (i : ℕ) : Option (Entry K V) :=
  if (t.entries i).hash = hashMax then none else some (t.entries i)

theorem slot_eq_none_iff : t.slot i = none ↔ (t.entries i).hash = hashMax := by
  by_cases h : (t.entries i).hash = hashMax
  · exact iff_of_true (if_pos h) h
  · refine iff_of_false ?_ h
    rw [slot, if_neg h]
    exact Option.some_ne_none _

theorem slot_eq_some_iff : t.slot i = some e ↔ t.entries i = e ∧ e.hash ≠ hashMax := by
  rw [slot]
  split_ifs with h
  · refine iff_of_false nofun ?_
    rintro ⟨rfl, hne⟩
    exact hne h
  · rw [Option.some.injEq]
    exact ⟨fun he => ⟨he, he ▸ h⟩, And.left⟩

theorem slot_of_ne (h : (t.entries i).hash ≠ hashMax) : t.slot i = some (t.entries i) := if_neg h

theorem slot_congr {t' : CTable K V} {j : ℕ} (h : t'.entries i = t.entries j) :
    t'.slot i = t.slot j := by
  rw [slot, slot, h]

/-! ## Going on -/

/-- A loop that ends somewhere ends at the first slot where its condition fails. -/
theorem exists_skipWhile (cond : Entry K V → Bool) {stop : ℕ} (hle : index ≤ stop)
    (hstop : stop < t.count) (hcond : cond (t.entries stop) = false) :
    ∃ p, t.skipWhile cond index = .ok p ∧ index ≤ p ∧ p ≤ stop ∧
      cond (t.entries p) = false ∧ ∀ k, index ≤ k → k < p → cond (t.entries k) = true := by
  fun_induction CTable.skipWhile t cond index with
  | case1 index hlt htrue ih =>
      have hne : index ≠ stop := by
        rintro rfl
        rw [hcond] at htrue
        cases htrue
      obtain ⟨p, hp, hip, hps, hfalse, hbefore⟩ := ih (by omega)
      refine ⟨p, hp, by omega, hps, hfalse, ?_⟩
      intro k hk hkp
      rcases hk.lt_or_eq with hlt | rfl
      · exact hbefore k hlt hkp
      · exact htrue
  | case2 index hlt hfalse =>
      exact ⟨index, rfl, le_rfl, hle, Bool.eq_false_iff.mpr hfalse, fun k hk hlt => by omega⟩
  | case3 index hge => omega

/-! ## Moving entries on -/

/-- The entries that are moved, and how far they are from their homes then. -/
theorem moveUp_spec (t : CTable K V) (p e : ℕ) :
    (∀ i, (t.moveUp p e).entries i = if p < i ∧ i ≤ e then t.entries (i - 1) else t.entries i) ∧
      (t.moveUp p e).size = t.size ∧ (t.moveUp p e).occupancy = t.occupancy ∧
      t.maxDisplacement ≤ (t.moveUp p e).maxDisplacement ∧
      (∀ i, p < i → i ≤ e → i ≤ hashToIndex t.size (t.entries (i - 1)).hash +
        (t.moveUp p e).maxDisplacement) ∧
      ∀ B, t.maxDisplacement ≤ B →
        (∀ i, p < i → i ≤ e → i ≤ hashToIndex t.size (t.entries (i - 1)).hash + B) →
        (t.moveUp p e).maxDisplacement ≤ B := by
  induction e generalizing t with
  | zero =>
      refine ⟨fun i => ?_, rfl, rfl, le_rfl, fun i hp hi => by omega, fun B hB _ => hB⟩
      rw [if_neg (by omega)]
      rfl
  | succ e ih =>
      by_cases hpe : p < e + 1
      · rw [moveUp, if_pos hpe]
        obtain ⟨hentries, hsize, hocc, hle, hdisp, hbound⟩ := ih ((t.setEntry (e + 1)
          (t.entries e)).displace (e + 1 - hashToIndex t.size (t.entries e).hash))
        have hold : ∀ i ≤ e, ((t.setEntry (e + 1) (t.entries e)).displace
            (e + 1 - hashToIndex t.size (t.entries e).hash)).entries i = t.entries i :=
          fun i hi => Function.update_of_ne (by omega) _ _
        have hmax := le_max_right t.maxDisplacement
          (e + 1 - hashToIndex t.size (t.entries e).hash)
        refine ⟨fun i => ?_, hsize, hocc, (le_max_left _ _).trans hle, ?_, ?_⟩
        · rw [hentries]
          by_cases hi : p < i ∧ i ≤ e
          · rw [if_pos hi, if_pos ⟨hi.1, by omega⟩, hold _ (by omega)]
          · rw [if_neg hi]
            by_cases hie : i = e + 1
            · subst hie
              rw [if_pos ⟨hpe, le_rfl⟩]
              exact Function.update_self _ _ _
            · rw [if_neg (by omega)]
              exact Function.update_of_ne hie _ _
        · intro i hp hi
          rcases hi.lt_or_eq with hlt | rfl
          · have := hdisp i hp (by omega)
            rwa [hold _ (by omega)] at this
          · have hdispl := hmax.trans hle
            rw [Nat.add_sub_cancel]
            change e + 1 ≤ hashToIndex t.size (t.entries e).hash +
              (((t.setEntry (e + 1) (t.entries e)).displace
                (e + 1 - hashToIndex t.size (t.entries e).hash)).moveUp p e).maxDisplacement
            omega
        · intro B hB hall
          apply hbound B
          · have := hall (e + 1) hpe le_rfl
            rw [Nat.add_sub_cancel] at this
            exact max_le hB (by omega)
          · intro i hp hi
            rw [hold _ (by omega)]
            exact hall i hp (by omega)
      · rw [moveUp, if_neg hpe]
        refine ⟨fun i => ?_, rfl, rfl, le_rfl, fun i hp hi => by omega, fun B hB _ => hB⟩
        rw [if_neg (by omega)]

theorem moveUp_self (t : CTable K V) (p : ℕ) : t.moveUp p p = t := by
  cases p with
  | zero => rfl
  | succ p => exact if_neg (Nat.lt_irrefl _)

/-! ## Moving entries back -/

/-- An entry that is not moved back: the slot is free, or it is at home. -/
def Stays (t : CTable K V) (i : ℕ) : Prop :=
  (t.entries i).hash = hashMax ∨ hashToIndex t.size (t.entries i).hash = i

/-- Entries are moved back up to the first one that stays. -/
theorem exists_moveDown {stop : ℕ} (hlt : index < stop) (hstop : stop < t.count)
    (hstays : t.Stays stop) :
    ∃ e t', t.moveDown index = .ok t' ∧ index < e ∧ e ≤ stop ∧ t.Stays e ∧
      (∀ k, index < k → k < e → ¬ t.Stays k) ∧
      (t.slot index = none → t'.slot = RobinHood.drop t.slot index e) ∧
      t'.size = t.size ∧ t'.occupancy = t.occupancy ∧
      t'.maxDisplacement = t.maxDisplacement := by
  fun_induction CTable.moveDown t index with
  | case1 t index h entry hentry =>
      refine ⟨index + 1, t, rfl, by omega, by omega, hentry, fun k hk hk' => by omega, ?_, rfl,
        rfl, rfl⟩
      intro hfree
      funext i
      rcases Nat.lt_or_ge i index with hi | hi
      · exact (RobinHood.drop_of_lt hi).symm
      · rcases hi.lt_or_eq with hi | rfl
        · exact (RobinHood.drop_of_ge (Nat.lt_succ_self _) (by omega)).symm
        · exact hfree.trans (RobinHood.drop_last le_rfl rfl).symm
  | case2 t index h entry hentry ih =>
      have hne : index + 1 ≠ stop := by
        rintro rfl
        exact hentry hstays
      let moved := (t.setEntry index entry).setEntry (index + 1) { entry with hash := hashMax }
      have hat : moved.entries index = entry := by
        change Function.update (Function.update t.entries index entry) (index + 1) _ index = entry
        rw [Function.update_of_ne (by omega), Function.update_self]
      have hfree : moved.entries (index + 1) = { entry with hash := hashMax } :=
        Function.update_self _ _ _
      have hrest : ∀ i, i ≠ index → i ≠ index + 1 → moved.entries i = t.entries i := by
        intro i hi hi'
        change Function.update (Function.update t.entries index entry) (index + 1) _ i = _
        rw [Function.update_of_ne hi', Function.update_of_ne hi]
      have hstays' : ∀ i, index + 1 < i → (moved.Stays i ↔ t.Stays i) := by
        intro i hi
        rw [Stays, Stays, hrest i (by omega) (by omega)]
        rfl
      obtain ⟨e, t', hok, hlt', hle, hstop', hbefore, hslot, hsize, hocc, hdisp⟩ :=
        ih (by omega) hstop ((hstays' stop (by omega)).mpr hstays)
      refine ⟨e, t', hok, by omega, hle, (hstays' e hlt').mp hstop', ?_, ?_, hsize, hocc, hdisp⟩
      · intro k hk hke
        rcases Nat.lt_or_ge (index + 1) k with hk' | hk'
        · exact fun h => hbefore k hk' hke ((hstays' k hk').mpr h)
        · obtain rfl : k = index + 1 := by omega
          exact hentry
      · intro _
        rw [hslot (slot_eq_none_iff.mpr (by rw [hfree]))]
        have hmoved : ∀ i, i ≠ index → i ≠ index + 1 → moved.slot i = t.slot i :=
          fun i hi hi' => by rw [slot, slot, hrest i hi hi']
        funext i
        rcases Nat.lt_or_ge i index with hi | hi
        · rw [RobinHood.drop_of_lt hi, RobinHood.drop_of_lt (by omega)]
          exact hmoved i (by omega) (by omega)
        · rcases hi.lt_or_eq with hi | rfl
          · rcases lt_trichotomy (i + 1) e with hie | hie | hie
            · rw [RobinHood.drop_moved (by omega) hie, RobinHood.drop_moved (by omega) hie]
              exact hmoved _ (by omega) (by omega)
            · rw [RobinHood.drop_last (by omega) hie, RobinHood.drop_last (by omega) hie]
            · rw [RobinHood.drop_of_ge hlt' (by omega), RobinHood.drop_of_ge (by omega) (by omega)]
              exact hmoved i (by omega) (by omega)
          · rw [RobinHood.drop_of_lt (Nat.lt_succ_self _),
              RobinHood.drop_moved le_rfl hlt']
            change (if (moved.entries index).hash = hashMax then none
              else some (moved.entries index)) = _
            rw [hat]
            rfl
  | case3 t index h => omega

end CTable

end LuaAttic.Ctable
