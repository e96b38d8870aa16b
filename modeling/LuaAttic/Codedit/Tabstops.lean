import LuaAttic.Codedit.HitTesting

/-!
# Tabstops

The coordinates of the characters of a line are multiples of the width of a space, and
so are the tabstops; where the margin of a tabstop is not wider than a space, no
character reaches over a tabstop, and the tabstops before and after a character are
the nearest ones.
-/

namespace LuaAttic.Codedit.View

open LuaAttic.Support LuaAttic.Lua Str

variable {v : View} {x t : Int}

/-! ## The nearest tabstops -/

theorem dvd_nextTabstopX (v : View) (x : Int) : v.tabstopWidth ∣ v.nextTabstopX x :=
  Dvd.intro_left _ rfl

theorem dvd_prevTabstopX (v : View) (x : Int) : v.tabstopWidth ∣ v.prevTabstopX x :=
  Dvd.intro_left _ rfl

theorem charW_dvd_of_stop (ht : v.tabstopWidth ∣ t) : v.charW ∣ t :=
  (Dvd.intro v.tabsize rfl : v.charW ∣ v.tabstopWidth).trans ht

/-- Two multiples of the width of a space are no nearer than that. -/
theorem add_charW_le (hx : v.charW ∣ x) (ht : v.charW ∣ t) (hlt : x < t) : x + v.charW ≤ t := by
  have hdiff := Int.le_of_dvd (sub_pos.mpr hlt) (Int.dvd_sub ht hx)
  omega

theorem nextTabstopX_le (hmargin : v.tabstopMargin ≤ v.charW) (hx : v.charW ∣ x)
    (ht : v.tabstopWidth ∣ t) (hlt : x < t) : v.nextTabstopX x ≤ t := by
  have hgap := add_charW_le hx (charW_dvd_of_stop ht) hlt
  obtain ⟨k, rfl⟩ := ht
  have hquot : -k ≤ -(x + v.tabstopMargin) / v.tabstopWidth := by
    rw [Int.le_ediv_iff_mul_le v.tabstopWidth_pos, neg_mul, mul_comm]
    omega
  rw [nextTabstopX, mul_comm v.tabstopWidth k]
  apply mul_le_mul_of_nonneg_right _ v.tabstopWidth_pos.le
  omega

theorem prevTabstopX_lt (hmargin : 1 ≤ v.tabstopMargin) (x : Int) : v.prevTabstopX x < x := by
  have hfloor := Int.ediv_mul_le (x - v.tabstopMargin) v.tabstopWidth_pos.ne'
  rw [prevTabstopX]
  omega

theorem le_prevTabstopX (hmargin : v.tabstopMargin ≤ v.charW) (hx : v.charW ∣ x)
    (ht : v.tabstopWidth ∣ t) (hlt : t < x) : t ≤ v.prevTabstopX x := by
  have hgap := add_charW_le (charW_dvd_of_stop ht) hx hlt
  obtain ⟨k, rfl⟩ := ht
  have hquot : k ≤ (x - v.tabstopMargin) / v.tabstopWidth := by
    rw [Int.le_ediv_iff_mul_le v.tabstopWidth_pos, mul_comm]
    omega
  rw [prevTabstopX, mul_comm v.tabstopWidth k]
  exact mul_le_mul_of_nonneg_right hquot v.tabstopWidth_pos.le

/-! ## Characters and tabstops -/

theorem nextX_le (hmargin : v.tabstopMargin ≤ v.charW) (hx : v.charW ∣ x)
    (ht : v.tabstopWidth ∣ t) (hlt : x < t) (c : UInt8) : v.nextX x c ≤ t := by
  rw [nextX]
  split_ifs
  · exact nextTabstopX_le hmargin hx ht hlt
  · exact add_charW_le hx (charW_dvd_of_stop ht) hlt

theorem charW_dvd_xAt (v : View) (s : Bytes) (n : ℕ) : v.charW ∣ v.xAt s n := by
  induction n with
  | zero => exact dvd_zero _
  | succ n ih =>
      rcases Nat.lt_or_ge n s.length with hn | hn
      · rw [xAt, coordAt_succ hn, nextX]
        split_ifs
        · exact charW_dvd_of_stop (v.dvd_nextTabstopX _)
        · exact Int.dvd_add ih (dvd_refl _)
      · rw [xAt, coordAt_of_length_le (hn.trans (Nat.le_succ n)), ← coordAt_of_length_le hn]
        exact ih

/-- No character reaches over a tabstop. -/
theorem xAt_succ_le (hmargin : v.tabstopMargin ≤ v.charW) (ht : v.tabstopWidth ∣ t)
    {s : Bytes} {n : ℕ} (hn : n < s.length) (hlt : v.xAt s n < t) : v.xAt s (n + 1) ≤ t := by
  rw [xAt, coordAt_succ hn]
  exact nextX_le hmargin (v.charW_dvd_xAt s n) ht hlt _

theorem xAt_lt (hmargin : 1 ≤ v.tabstopMargin) {s : Bytes} {j n : ℕ} (hjn : j < n)
    (hn : n ≤ s.length) : v.xAt s j < v.xAt s n :=
  coordAt_lt (v.lt_nextX hmargin) hjn hn

section Line

variable {b : Buffer} {line : Int} {s : Bytes}

/-- Looking for a coordinate finds the last character that is not behind it. -/
theorem charAtLine_spec (hmargin : 1 ≤ v.tabstopMargin) (hs : b.lineAt line = some s)
    (hone : AtMostOneTerminator s) (hx : 0 ≤ x) :
    ∃ k ≤ (contents s).length, v.charAtLine b line x false = some (1 + (k : Int)) ∧
      v.xAt (contents s) k ≤ x ∧
      (k < (contents s).length → x < v.xAt (contents s) (k + 1)) := by
  rw [charAtLine_eq]
  rcases exists_neighbours (f := v.xAt (contents s)) hx (contents s).length with
    ⟨k, hk, hle, hlt⟩ | hle
  · have hfound := v.charAtLineOf_between (K := ℤ) false hmargin hs hone hk hle hlt
    simp only [chosen, Bool.false_eq_true, false_and, if_false] at hfound
    exact ⟨k, hk.le, hfound, hle, fun _ => hlt⟩
  · exact ⟨(contents s).length, le_refl _, v.charAtLineOf_behind hmargin hs hone hle, hle,
      fun h => absurd h (lt_irrefl _)⟩

/-- There is a character at the tabstop before a character. -/
theorem exists_prevTabstop (hone : 1 ≤ v.tabstopMargin) (hmargin : v.tabstopMargin ≤ v.charW)
    (hs : b.lineAt line = some s) (hline : AtMostOneTerminator s) {n : ℕ} (hpos : 0 < n)
    (hle : n ≤ (contents s).length) :
    ∃ k < n, v.charAtLine b line (v.prevTabstopX (v.xAt (contents s) n)) false =
        some (1 + (k : Int)) ∧
      v.prevTabstopX (v.xAt (contents s) n) = v.xAt (contents s) k := by
  have hfirst : 0 ≤ v.prevTabstopX (v.xAt (contents s) n) :=
    le_prevTabstopX hmargin (v.charW_dvd_xAt _ _) (dvd_zero _) (xAt_lt hone hpos hle)
  have hbefore := prevTabstopX_lt hone (v.xAt (contents s) n)
  have hstop : ∀ i < (contents s).length,
      coordAt v.nextX 0 (contents s) i < v.prevTabstopX (v.xAt (contents s) n) →
        coordAt v.nextX 0 (contents s) (i + 1) ≤ v.prevTabstopX (v.xAt (contents s) n) :=
    fun i hi hlt => xAt_succ_le hmargin (v.dvd_prevTabstopX _) hi hlt
  obtain ⟨k, hk, heq⟩ := exists_coordAt_eq hstop hfirst hle hbefore.le
  have hkn : k < n := by
    refine lt_of_le_of_ne hk ?_
    rintro rfl
    exact hbefore.ne' heq
  refine ⟨k, hkn, ?_, heq.symm⟩
  rw [← heq, charAtLine_eq]
  exact v.charAtLineOf_xAt (K := ℤ) false hone hs hline (hkn.le.trans hle)

/-- From the tabstop before a character, or from between the two, the next tabstop is
not before that character, and it is the place of it only if that is a tabstop or the
end of the line. -/
theorem exists_nextTabstop (hone : 1 ≤ v.tabstopMargin) (hmargin : v.tabstopMargin ≤ v.charW)
    (hs : b.lineAt line = some s) (hline : AtMostOneTerminator s) {q n : ℕ} (hqn : q < n)
    (hn : n ≤ (contents s).length)
    (hq : v.prevTabstopX (v.xAt (contents s) n) ≤ v.xAt (contents s) q) :
    ∃ k, n ≤ k ∧ k ≤ (contents s).length ∧
      v.charAtLine b line (v.nextTabstopX (v.xAt (contents s) q)) false = some (1 + (k : Int)) ∧
      (k = n ↔ n = (contents s).length ∨ v.tabstopWidth ∣ v.xAt (contents s) n) := by
  have hmono := v.xAt_monotone hone (contents s)
  have hstop := v.dvd_nextTabstopX (v.xAt (contents s) q)
  have hbehind := v.le_nextTabstopX (v.xAt (contents s) q)
  have hle : v.xAt (contents s) n ≤ v.nextTabstopX (v.xAt (contents s) q) := by
    by_contra hlt
    have hprev := le_prevTabstopX hmargin (v.charW_dvd_xAt _ n) hstop (lt_of_not_ge hlt)
    omega
  have hpos : 0 ≤ v.nextTabstopX (v.xAt (contents s) q) :=
    (hmono (Nat.zero_le n)).trans hle
  obtain ⟨k, hk, hfound, hxk, hnext⟩ := charAtLine_spec hone hs hline hpos
  have hnk : n ≤ k := by
    by_contra hlt
    have hkn : k < n := Nat.lt_of_not_le hlt
    have hxn := hmono (Nat.succ_le_of_lt hkn)
    exact absurd (hnext (hkn.trans_le hn)) (not_lt_of_ge (hxn.trans hle))
  refine ⟨k, hnk, hk, hfound, ?_, ?_⟩
  · rintro rfl
    by_cases hlast : k = (contents s).length
    · exact Or.inl hlast
    · -- the character at `k` starts at the tabstop, or it would not end behind it
      have hklt : k < (contents s).length := lt_of_le_of_ne hk hlast
      rcases hle.lt_or_eq with hlt | heq
      · exact absurd (xAt_succ_le hmargin hstop hklt hlt) (not_le_of_gt (hnext hklt))
      · exact Or.inr (heq.symm ▸ hstop)
  · rintro (hlast | hdvd)
    · exact le_antisymm (hlast ▸ hk) hnk
    · have heq := nextTabstopX_le hmargin (v.charW_dvd_xAt _ q) hdvd (xAt_lt hone hqn hn)
      by_contra hne
      have hlt := xAt_lt hone (lt_of_le_of_ne hnk (Ne.symm hne)) hk
      omega

end Line

end LuaAttic.Codedit.View
