import LuaAttic.Codedit.Positions
import LuaAttic.Codedit.Cursor

/-!
# Movements land in the text

A restricted cursor that is told to move to any position at all lands on a
position of the text, and measuring the text at that position raises nothing.
So a movement that raises does so before it has moved the cursor.
-/

namespace LuaAttic.Codedit

open LuaAttic.Support LuaAttic.Lua Str
open MonadExcept (ofExcept)

/-! ## Reading characters -/

namespace Str

variable {s : Bytes} {i : Int}

theorem gives_nextChar (hi : 0 ≤ i) :
    Gives (nextChar s i) fun j => ∀ k ∈ j, k = i + 1 ∧ k ≤ s.length := by
  refine ⟨_, if_pos hi, ?_⟩
  intro k hk
  by_cases hlen : (s.length : Int) ≤ i
  · simp [hlen] at hk
  · simp only [if_neg hlen, Option.mem_some_iff] at hk
    omega

theorem gives_ischar (hi : 1 ≤ i ∧ i ≤ s.length) (c : UInt8) :
    Gives (ischar s i c) fun _ => True := by
  have hlt : (i - 1).toNat < s.length := by omega
  have hbyte : byteAt s i = some s[(i - 1).toNat] := by
    rw [byteAt, if_pos hi.1, List.getElem?_eq_getElem hlt]
  rw [ischar, hbyte]
  exact Gives.ok trivial

theorem gives_iswhitespace (hi : 1 ≤ i ∧ i ≤ s.length) :
    Gives (iswhitespace s i) fun _ => True := by
  refine Gives.bind (gives_ischar hi SPACE) fun space _ => ?_
  cases space with
  | true => exact Gives.pure trivial
  | false =>
      refine Gives.bind (gives_ischar hi TAB) fun tab _ => ?_
      cases tab with
      | true => exact Gives.pure trivial
      | false =>
          refine Gives.bind (gives_ischar hi CR) fun cr _ => ?_
          cases cr with
          | true => exact Gives.pure trivial
          | false => exact gives_ischar hi LF

theorem gives_nextNonspaceChar (hi : 0 ≤ i) :
    Gives (nextNonspaceChar s i) fun _ => True := by
  unfold nextNonspaceChar
  generalize s.length + 1 = fuel
  induction fuel generalizing i with
  | zero => exact Gives.ok trivial
  | succ fuel ih =>
      refine Gives.bind (gives_nextChar hi) fun j hj => ?_
      cases j with
      | none => exact Gives.pure trivial
      | some j =>
          obtain ⟨rfl, hlen⟩ := hj j rfl
          have hwhite := gives_iswhitespace (s := s) (i := i + 1) (by omega)
          refine Gives.bind (Gives.bind hwhite fun _ _ => Gives.pure trivial)
            fun nonspace (_ : True) => ?_
          cases nonspace with
          | true => exact Gives.pure trivial
          | false => exact ih (by omega)

end Str

theorem gives_nonNil {α : Type} {o : Option α} {a : α} (h : o = some a)
    (e : Error) : Gives (nonNil e o) fun b => a = b := by
  rw [h]
  exact Gives.ok rfl

theorem Buffer.gives_indenting (b : Buffer) (line i : Int) :
    Gives (b.indenting line i) fun _ => True := by
  unfold indenting Buffer.nextNonspaceChar
  cases b.lineAt line with
  | none => exact Gives.ok trivial
  | some s =>
      refine Gives.bind (gives_nextNonspaceChar (le_refl 0)) fun nsi _ => ?_
      cases nsi with
      | none => exact Gives.pure trivial
      | some nsi => exact Gives.pure trivial

/-! ## Measuring -/

namespace View

variable (v : View) {b : Buffer} {line : Int}

theorem gives_charX {i : Int} (hi : 1 ≤ i) (hline : 1 ≤ line) :
    Gives (v.charX b line i) fun _ => True :=
  ⟨_, if_pos ⟨hi, hline⟩, trivial⟩

theorem gives_lineY (hline : 1 ≤ line) :
    Gives (v.lineY line) fun _ => True :=
  ⟨_, if_pos hline, trivial⟩

theorem gives_charCoords {i : Int} (hi : 1 ≤ i) (hline : 1 ≤ line) :
    Gives (v.charCoords b line i) fun _ => True := by
  refine Gives.bind (v.gives_lineY hline) fun _ _ => ?_
  exact Gives.bind (v.gives_charX hi hline) fun _ _ => Gives.pure trivial

theorem charAtLoop_isSome (x : Int) (closest : Bool) (eol xi x0 i0 i : Int)
    (s : Bytes) :
    ∃ j, v.charAtLoop x closest (some eol) xi x0 i0 i s = some j := by
  induction s generalizing xi x0 i0 i with
  | nil =>
      unfold charAtLoop
      split_ifs <;> exact ⟨_, rfl⟩
  | cons c s ih =>
      unfold charAtLoop
      split_ifs <;> first | exact ⟨_, rfl⟩ | exact ih _ _ _ _

theorem charAtLine_isSome {s : Bytes} (h : b.lineAt line = some s) (x : Int)
    (closest : Bool) : ∃ j, v.charAtLine b line x closest = some j := by
  rw [charAtLine, Buffer.eol_of_lineAt h]
  exact v.charAtLoop_isSome x closest _ 0 0 1 1 _

/-- Below the first line, hit testing for the cursor raises nothing. -/
theorem gives_cursorCharAtLine (hline : 1 ≤ line) (x : Int) :
    Gives (v.cursorCharAtLine b line x false) fun _ => True := by
  unfold cursorCharAtLine
  by_cases hout : line > b.lines.length
  · rw [if_pos ⟨hout, rfl⟩]
    exact Gives.ok trivial
  · rw [if_neg (by simp [hout]), if_neg hout]
    obtain ⟨s, hs⟩ : ∃ s, b.lineAt line = some s :=
      Buffer.lineAt_of_range (by omega)
    obtain ⟨j, hj⟩ := v.charAtLine_isSome hs x true
    refine Gives.bind (gives_nonNil hj _) ?_
    rintro _ rfl
    by_cases heol : some j = b.eol line
    · rw [if_pos heol]
      rw [Buffer.eol_of_lineAt hs, Option.some.injEq] at heol
      have hj1 : 1 ≤ j := heol ▸ termChar_pos s
      exact Gives.bind (v.gives_charX hj1 hline) fun _ _ => Gives.pure trivial
    · rw [if_neg heol]
      exact Gives.pure trivial

end View

/-! ## The next position -/

namespace Cursor

variable {c : Cursor} {b : Buffer} (v : View)

theorem gives_tabstopIndex {s : Bytes} (h : b.lineAt c.line = some s)
    (x : Int) (next : Int → Int) :
    Gives (c.tabstopIndex b v x next) fun _ => True := by
  unfold tabstopIndex
  obtain ⟨i, hi⟩ := v.charAtLine_isSome h x false
  obtain ⟨j, hj⟩ := v.charAtLine_isSome h (next x) false
  by_cases hsame : v.charAtLine b c.line x false = some c.i
  · simp only [if_pos hsame]
    exact (gives_nonNil hj _).mono fun _ _ => trivial
  · simp only [if_neg hsame]
    exact (gives_nonNil hi _).mono fun _ _ => trivial

theorem gives_nextTab {s : Bytes} (h : b.lineAt c.line = some s)
    (hi : 1 ≤ c.i ∧ c.i ≤ s.length) (jump : Tabstops) :
    Gives (c.nextTab b v jump s) fun i => ∀ j ∈ i, c.i < j := by
  have hline := (Buffer.range_of_lineAt h).1
  refine Gives.bind (Q := fun _ => True) ?_ fun jump _ => ?_
  · cases jump with
    | always => exact Gives.pure trivial
    | indent =>
        refine Gives.bind (gives_nextChar (by omega)) fun i _ => ?_
        cases i with
        | none => exact Gives.pure trivial
        | some i => exact b.gives_indenting c.line i
    | never => exact Gives.pure trivial
  have hwhite : Gives (if jump then iswhitespace s c.i else pure false)
      fun _ => True := by
    cases jump with
    | true => exact gives_iswhitespace hi
    | false => exact Gives.pure trivial
  refine Gives.bind hwhite fun jump _ => ?_
  cases jump with
  | false => exact Gives.pure (by simp)
  | true =>
      refine Gives.bind (v.gives_charX hi.1 hline) fun x0 _ => ?_
      refine Gives.bind (gives_tabstopIndex v h _ _) fun tsI _ => ?_
      refine Gives.bind (gives_nonNil (Buffer.eol_of_lineAt h) _) fun eol _ => ?_
      refine Gives.bind (gives_nextNonspaceChar (by omega)) fun nsI _ => ?_
      refine Gives.pure ?_
      intro j hj
      simp only [Option.mem_def, Option.ite_none_right_eq_some,
        Option.some.injEq] at hj
      omega

/-- From a position of the text there is a next position. -/
theorem gives_nextPos (h : ValidPos b c.line c.i) (restrictEol : Bool)
    (jump : Tabstops) :
    Gives (c.nextPos b v restrictEol jump) fun p => 1 ≤ p.2 := by
  obtain ⟨s, hs, hi, hle⟩ := Buffer.validPos_iff.mp h
  have hrange := Buffer.range_of_lineAt hs
  unfold nextPos
  rw [if_neg (by omega)]
  refine Gives.bind (gives_nonNil (Buffer.eol_of_lineAt hs) _) ?_
  rintro _ rfl
  by_cases hend : c.i ≥ termChar s
  · rw [if_pos hend]
    refine Gives.pure ?_
    split_ifs
    · exact (Buffer.validPos_endPos b).2.2.1
    · exact le_refl 1
    · simp only
      omega
  · rw [if_neg hend]
    have hlen := termChar_le s
    refine Gives.bind (gives_nonNil hs _) ?_
    rintro _ rfl
    refine Gives.bind (gives_nextTab v hs (by omega) jump) fun i hi' => ?_
    cases i with
    | some i =>
        have hlt := hi' i rfl
        exact Gives.pure (by simp only; omega)
    | none =>
        refine Gives.bind (gives_nextChar (by omega)) fun j hj => ?_
        refine Gives.pure ?_
        cases j with
        | none => simp only [Option.getD_none]; omega
        | some j =>
            have := hj j rfl
            simp only [Option.getD_some]
            omega

theorem gives_coordX (h : ValidPos b c.line c.i) :
    Gives (c.coordX b v) fun _ => True := by
  obtain ⟨s, hs, hi, hle⟩ := Buffer.validPos_iff.mp h
  have hrange := Buffer.range_of_lineAt hs
  unfold coordX
  refine Gives.bind (v.gives_lineY hrange.1) fun _ _ => ?_
  rw [if_neg (by omega)]
  refine Gives.bind (v.gives_charX hi hrange.1) fun x _ => ?_
  refine Gives.bind (gives_nonNil (Buffer.eol_of_lineAt hs) _) ?_
  rintro _ rfl
  by_cases hend : c.i - termChar s ≥ 0
  · simp only [if_pos hend]
    exact Gives.pure trivial
  · simp only [if_neg hend]
    refine Gives.bind (gives_nextPos v h false _) fun p hp => ?_
    exact Gives.bind (v.gives_charCoords hp hrange.1) fun _ _ =>
      Gives.pure trivial

/-! ## Landing -/

/-- The options that keep a cursor in the text are set. -/
structure Restricted (c : Cursor) : Prop where
  eof : c.restrictEof = true
  eol : c.restrictEol ≠ some false

theorem Restricted.restrictsEol (h : c.Restricted) : c.restrictsEol = true := by
  have heol := h.eol
  unfold Cursor.restrictsEol
  cases hown : c.restrictEol with
  | none => rfl
  | some own =>
      rw [hown] at heol
      simpa using heol

theorem gives_land (h : c.Restricted) (b : Buffer) (line i : Int)
    (keepX : Bool) :
    Gives (c.land b line i keepX) fun p =>
      (1 ≤ p.1 ∧ p.1 ≤ b.lines.length) ∧ 1 ≤ p.2.1 := by
  have hpos := List.length_pos_of_ne_nil b.linesNonempty
  have hi : 1 ≤ if i < 1 then 1 else i := by
    split_ifs
    · exact le_refl 1
    · omega
  unfold land
  by_cases hfirst : line < 1
  · rw [if_pos hfirst]
    refine Gives.ok ⟨⟨le_refl 1, by simp only; omega⟩, ?_⟩
    cases c.landBof with
    | true => exact le_refl 1
    | false => exact hi
  · rw [if_neg hfirst]
    by_cases hlast : line > b.lines.length
    · rw [if_pos ⟨h.eof, hlast⟩]
      have hrange : (1 : Int) ≤ b.lines.length := by omega
      cases c.landEof with
      | true =>
          refine Gives.bind (gives_nonNil
            (Buffer.eol_of_lineAt b.lineAt_last) _) ?_
          rintro _ rfl
          exact Gives.pure ⟨⟨hrange, le_refl _⟩, termChar_pos _⟩
      | false => exact Gives.ok ⟨⟨hrange, le_refl _⟩, hi⟩
    · rw [if_neg (by simp [hlast])]
      exact Gives.ok ⟨⟨by simp only; omega, by simp only; omega⟩, hi⟩

theorem gives_withinLine (h : c.Restricted) {line i : Int}
    (hline : 1 ≤ line ∧ line ≤ b.lines.length) (hi : 1 ≤ i) :
    Gives (c.withinLine b line i) fun i' => ValidPos b line i' := by
  obtain ⟨s, hs⟩ := Buffer.lineAt_of_range hline
  have hpos := termChar_pos s
  unfold withinLine
  rw [if_pos h.restrictsEol, if_pos hline.2]
  refine Gives.bind (gives_nonNil (Buffer.eol_of_lineAt hs) _) ?_
  rintro _ rfl
  exact Gives.pure (Buffer.validPos_iff.mpr
    ⟨s, hs, by omega, min_le_right _ _⟩)

end Cursor

/-! ## Moving -/

namespace Editor

/-- The cursor has landed on a position of the text, which is unchanged, and
the selection is unchanged too. -/
structure Landed (e t : Editor) : Prop where
  buffer : t.buffer = e.buffer
  selection : t.selection = e.selection
  restricted : t.cursor.Restricted
  pos : ValidPos t.buffer t.cursor.line t.cursor.i

/-- A restricted cursor can be moved to any position. -/
theorem ends_move {e : Editor} (h : e.cursor.Restricted) (line i : Int)
    (keepX : Bool) :
    Ends (move line i keepX) e (fun _ => Landed e) fun _ => False := by
  refine Ends.get_bind ?_
  refine Ends.bind (Ends.of_gives (Cursor.gives_land h e.buffer line i keepX)) ?_
  rintro ⟨line', i', keepX'⟩ _ ⟨rfl, hline, hi⟩
  refine Ends.bind (Ends.of_gives (Cursor.gives_withinLine h hline hi)) ?_
  rintro i'' _ ⟨rfl, hpos⟩
  refine Ends.bind (Ends.set (Q := fun _ t =>
    { e with cursor := { e.cursor with line := line', i := i'' } } = t) rfl) ?_
  rintro _ _ rfl
  cases keepX' with
  | true => exact Ends.pure ⟨rfl, rfl, ⟨h.eof, h.eol⟩, hpos⟩
  | false =>
      refine Ends.bind (Ends.of_gives (Cursor.gives_coordX e.view hpos)) ?_
      rintro x _ ⟨rfl, -⟩
      exact Ends.set ⟨rfl, rfl, ⟨h.eof, h.eol⟩, hpos⟩

/-- Nor does a vertical movement raise. -/
theorem ends_moveVert {e : Editor} (h : e.cursor.Restricted) (lines : Int) :
    Ends (moveVert lines) e (fun _ => Landed e) fun _ => False := by
  refine Ends.get_bind ?_
  refine Ends.bind (Ends.of_gives
    (View.gives_cursorCharAtLine e.view (le_max_left _ _) e.cursor.x)) ?_
  rintro i _ ⟨rfl, -⟩
  exact ends_move h _ i true

end Editor

end LuaAttic.Codedit
