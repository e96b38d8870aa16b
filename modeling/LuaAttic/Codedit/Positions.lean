import LuaAttic.Codedit.Lines
import LuaAttic.Codedit.Buffer

/-!
# Positions in the text

A position is valid when its line exists and its index is that of a character
of the line or of the end of the line.  Clamping produces valid positions and
keeps the valid ones.
-/

namespace LuaAttic.Codedit

open LuaAttic.Lua Str

/-- The position `(line, i)` is in the text. -/
def ValidPos (b : Buffer) (line i : Int) : Prop :=
  1 ≤ line ∧ line ≤ b.lines.length ∧ 1 ≤ i ∧
    ∀ e, b.eol line = some e → i ≤ e

namespace Buffer

theorem lineAt_split {b : Buffer} {pre post : List Bytes} {s : Bytes}
    (h : b.lines = pre ++ s :: post) :
    b.lineAt (pre.length + 1) = some s := by
  rw [lineAt, h, tableGet_split]

theorem eol_of_lineAt {b : Buffer} {line : Int} {s : Bytes}
    (h : b.lineAt line = some s) : b.eol line = some (termChar s) := by
  rw [eol, h, Option.map_some]

theorem textAt_of_lineAt {b : Buffer} {line : Int} {s : Bytes}
    (h : b.lineAt line = some s) : b.textAt line = s := by
  rw [textAt, h, Option.getD_some]

theorem mem_of_lineAt {b : Buffer} {line : Int} {s : Bytes}
    (h : b.lineAt line = some s) : s ∈ b.lines := by
  obtain ⟨pre, post, hlines, -⟩ := tableGet_eq_some_iff.mp h
  rw [hlines]
  exact List.mem_append_right _ List.mem_cons_self

theorem range_of_lineAt {b : Buffer} {line : Int} {s : Bytes}
    (h : b.lineAt line = some s) : 1 ≤ line ∧ line ≤ b.lines.length := by
  by_contra hnot
  rw [lineAt, (tableGet_eq_none_iff _ _).mpr hnot] at h
  cases h

theorem lineAt_of_range {b : Buffer} {line : Int}
    (h : 1 ≤ line ∧ line ≤ b.lines.length) :
    ∃ s, b.lineAt line = some s := by
  cases hget : b.lineAt line with
  | none => exact absurd h ((tableGet_eq_none_iff _ _).mp hget)
  | some s => exact ⟨s, rfl⟩

theorem lineAt_last (b : Buffer) :
    b.lineAt b.lines.length = some (b.lines.getLast b.linesNonempty) := by
  have hsplit := List.dropLast_concat_getLast b.linesNonempty
  have hlen : (b.lines.length : Int) = (b.lines.dropLast.length : Int) + 1 := by
    have hpos := List.length_pos_of_ne_nil b.linesNonempty
    rw [List.length_dropLast]
    omega
  rw [hlen]
  exact lineAt_split hsplit.symm

theorem validPos_iff {b : Buffer} {line i : Int} :
    ValidPos b line i ↔
      ∃ s, b.lineAt line = some s ∧ 1 ≤ i ∧ i ≤ termChar s := by
  constructor
  · rintro ⟨h1, h2, hi, heol⟩
    obtain ⟨s, hs⟩ := lineAt_of_range ⟨h1, h2⟩
    exact ⟨s, hs, hi, heol _ (eol_of_lineAt hs)⟩
  · rintro ⟨s, hs, hi, hle⟩
    obtain ⟨h1, h2⟩ := range_of_lineAt hs
    refine ⟨h1, h2, hi, ?_⟩
    intro e he
    rw [eol_of_lineAt hs] at he
    cases he
    exact hle

theorem validPos_endPos (b : Buffer) : ValidPos b b.endPos.1 b.endPos.2 :=
  validPos_iff.mpr ⟨_, b.lineAt_last, termChar_pos _, le_refl _⟩

theorem clampCol_bounds (i : Option Int) {e : Int} (he : 1 ≤ e) :
    1 ≤ clampCol i e ∧ clampCol i e ≤ e := by
  cases i with
  | none => exact ⟨he, le_refl e⟩
  | some i =>
      simp only [clampCol]
      omega

theorem validPos_first (b : Buffer) : ValidPos b 1 1 := by
  have hpos := List.length_pos_of_ne_nil b.linesNonempty
  obtain ⟨s, hs⟩ : ∃ s, b.lineAt 1 = some s := lineAt_of_range (by omega)
  exact validPos_iff.mpr ⟨s, hs, le_refl 1, termChar_pos s⟩

/-- Clamping a position always gives a position of the text. -/
theorem validPos_clampPos (b : Buffer) (line : Int) (i : Option Int) :
    ValidPos b (b.clampPos line i).1 (b.clampPos line i).2 := by
  unfold clampPos
  by_cases hline : line < 1
  · rw [if_pos hline]
    exact validPos_first b
  · rw [if_neg hline]
    cases hs : b.lineAt line with
    | none =>
        have heol : b.eol line = none := by rw [eol, hs, Option.map_none]
        rw [heol]
        exact validPos_endPos b
    | some s =>
        rw [eol_of_lineAt hs]
        have hbounds := clampCol_bounds i (termChar_pos s)
        exact validPos_iff.mpr ⟨s, hs, hbounds⟩

theorem clampPos_of_lineAt {b : Buffer} {line : Int} {s : Bytes}
    (h : b.lineAt line = some s) (i : Option Int) :
    b.clampPos line i = (line, clampCol i (termChar s)) := by
  have hrange := range_of_lineAt h
  rw [clampPos, if_neg (by omega), eol_of_lineAt h]

/-- A position of the text is kept. -/
theorem clampPos_of_validPos {b : Buffer} {line i : Int}
    (h : ValidPos b line i) : b.clampPos line (some i) = (line, i) := by
  obtain ⟨s, hs, hi, hle⟩ := validPos_iff.mp h
  rw [clampPos_of_lineAt hs]
  simp only [clampCol, Prod.mk.injEq, true_and]
  omega

theorem selectLine_of_lineAt {b : Buffer} {line : Int} {s : Bytes}
    (h : b.lineAt line = some s) : b.selectLine line = contents s := by
  have hpos := termChar_pos s
  have hcol : clampCol (some 1) (termChar s) = 1 := by
    simp only [clampCol]
    omega
  rw [selectLine, clampPos_of_lineAt h, hcol]
  simp only [clampPos_of_lineAt h, textAt_of_lineAt h, clampCol]
  rw [sub_take s hpos, take_termChar]

/-- The selected text of any line is plain when the lines are well formed. -/
theorem plain_selectLine {b : Buffer} (h : WellFormed b.lines) (line : Int) :
    Plain (b.selectLine line) := by
  have h1 := validPos_iff.mp (validPos_clampPos b line (some 1))
  obtain ⟨s, hs, hi, hle⟩ := h1
  rw [selectLine]
  simp only [clampPos_of_lineAt hs, textAt_of_lineAt hs, clampCol]
  exact plain_sub_before (h.atMostOne (mem_of_lineAt hs)) hi
    (termChar_pos s) (le_refl _)

end Buffer

end LuaAttic.Codedit
