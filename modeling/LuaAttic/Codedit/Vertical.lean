import LuaAttic.Codedit.HitTesting
import LuaAttic.Codedit.Landing
import LuaAttic.Codedit.Editor
import LuaAttic.Codedit.WellFormed

/-!
# Vertical movements

A movement that is not vertical stores the coordinate of the position it ends at as
the wanted one.  Vertical movements inside the text keep it, whatever shorter lines
they land on, and on the line they started from hit testing finds the position
again.
-/

namespace LuaAttic.Codedit

open LuaAttic.Support LuaAttic.Lua Str
open MonadExcept (ofExcept)

/-! ## The wanted coordinate -/

namespace Cursor

variable {c : Cursor} {b : Buffer} (v : View)

/-- The coordinate of a cursor in the text is that of its character. -/
theorem gives_coordX_eq (h : ValidPos b c.line c.i) :
    Gives (c.coordX b v) fun x => v.charX b c.line c.i = .ok x := by
  obtain ⟨s, hs, hi, hle⟩ := Buffer.validPos_iff.mp h
  have hrange := Buffer.range_of_lineAt hs
  unfold coordX
  refine Gives.bind (v.gives_lineY hrange.1) fun _ _ => ?_
  rw [if_neg (by omega), v.charX_eq hs hi]
  refine Gives.bind (Q := fun x => v.xAt (View.nonterm s) (c.i - 1).toNat = x) (Gives.ok rfl) ?_
  rintro _ rfl
  refine Gives.bind (gives_nonNil (Buffer.eol_of_lineAt hs) _) ?_
  rintro _ rfl
  by_cases hend : c.i - termChar s ≥ 0
  · have hextra : ¬ c.i - termChar s > 0 := by omega
    simp only [if_pos hend, if_neg hextra]
    exact Gives.pure rfl
  · simp only [if_neg hend]
    refine Gives.bind (gives_nextPos v h false _) fun p hp => ?_
    exact Gives.bind (v.gives_charCoords hp hrange.1) fun _ _ => Gives.pure rfl

end Cursor

namespace Editor

/-- The wanted coordinate is that of the cursor. -/
def Settled (e : Editor) : Prop := e.cursor.coordX e.buffer e.view = .ok e.cursor.x

/-- The vertical directions. -/
def Direction.Vertical : Direction → Prop
  | .up | .down | .upPage | .downPage => True
  | _ => False

/-- The movements that are not vertical. -/
inductive NonVertical : Program Editor Unit → Prop
  | move (line i : Int) : NonVertical (move line i false)
  | method {direction : Direction} (h : ¬ direction.Vertical) :
      NonVertical direction.method
  | toSelection : NonVertical moveToSelection
  | toCoords (x y : Int) : NonVertical (moveToCoords x y)

/-- Where the program returns, the wanted coordinate is that of the cursor. -/
def Settles (m : Program Editor Unit) : Prop := ∀ e t, m e = .ok () t → Settled t

theorem Settles.bind {α : Type} {m : Program Editor α} {f : α → Program Editor Unit}
    (h : ∀ a, Settles (f a)) : Settles (m >>= f) := by
  intro e t hok
  obtain ⟨a, u, -, hrest⟩ := exists_of_bind_ok hok
  exact h a u t hrest

theorem not_keepX_of_land {c : Cursor} {b : Buffer} {line i : Int} {p : Int × Int × Bool}
    (h : c.land b line i false = .ok p) : p.2.2 = false := by
  unfold Cursor.land at h
  simp only [Bool.false_and] at h
  split_ifs at h
  all_goals try (cases h; rfl)
  obtain ⟨_, -, hp⟩ := exists_of_bind_eq_ok h
  cases hp
  rfl

theorem settles_move (line i : Int) : Settles (move line i false) := by
  intro e t hok
  obtain ⟨_, _, hget, hok⟩ := exists_of_bind_ok hok
  cases hget
  obtain ⟨p, u, hland, hok⟩ := exists_of_bind_ok hok
  obtain ⟨hp, rfl⟩ := of_ofExcept_ok hland
  obtain ⟨i', u, hwithin, hok⟩ := exists_of_bind_ok hok
  obtain ⟨-, rfl⟩ := of_ofExcept_ok hwithin
  rw [set_bind_apply, not_keepX_of_land hp] at hok
  obtain ⟨x, u, hcoord, hok⟩ := exists_of_bind_ok hok
  obtain ⟨hx, rfl⟩ := of_ofExcept_ok hcoord
  cases hok
  exact hx

theorem settles_moveToPos (p : Int × Int) : Settles (moveToPos p) := settles_move p.1 p.2

theorem settles_movePrevPos : Settles movePrevPos :=
  Settles.bind fun _ => Settles.bind settles_moveToPos

theorem settles_movePrevWordBreak : Settles movePrevWordBreak := by
  refine Settles.bind fun e => Settles.bind fun wbI => ?_
  cases wbI with
  | some i => exact settles_move _ i
  | none =>
      simp only
      split_ifs
      · exact settles_move _ _
      · exact settles_move _ _
      · refine Settles.bind fun eol => ?_
        split_ifs
        · exact settles_move _ _
        · exact settles_movePrevPos

theorem settles_moveNextWordBreak : Settles moveNextWordBreak := by
  refine Settles.bind fun e => Settles.bind fun wbI => ?_
  cases wbI with
  | some i => exact settles_move _ i
  | none => exact Settles.bind settles_moveToPos

/-- Each movement that is not vertical ends in `move`. -/
theorem NonVertical.settles {m : Program Editor Unit} (h : NonVertical m) : Settles m := by
  cases h with
  | move line i => exact settles_move line i
  | toSelection => exact Settles.bind fun _ => settles_move _ _
  | toCoords x y =>
      exact Settles.bind fun _ => Settles.bind fun _ => Settles.bind settles_moveToPos
  | method hdirection =>
      rename_i direction
      cases direction with
      | prevPos => exact settles_movePrevPos
      | nextPos => exact Settles.bind fun _ => Settles.bind settles_moveToPos
      | up => exact absurd trivial hdirection
      | down => exact absurd trivial hdirection
      | prevWordBreak => exact settles_movePrevWordBreak
      | nextWordBreak => exact settles_moveNextWordBreak
      | home => exact settles_move _ _
      | endPos => exact Settles.bind fun _ => settles_moveToPos _
      | bol => exact Settles.bind fun _ => settles_move _ _
      | eol => exact Settles.bind fun _ => settles_moveToPos _
      | upPage => exact absurd trivial hdirection
      | downPage => exact absurd trivial hdirection

/-! ## Walking over the lines -/

/-- On the way from `e` the cursor is in a line of the text, the wanted coordinate
is unchanged, and back in the line of `e` the cursor is at its place. -/
structure Passing (e t : Editor) (line : Int) : Prop where
  state : t = { e with cursor := { e.cursor with line := line, i := t.cursor.i } }
  back : line = e.cursor.line → t.cursor.i = e.cursor.i

theorem Passing.refl (e : Editor) : Passing e e e.cursor.line := ⟨rfl, fun _ => rfl⟩

/-- Back in its line the cursor is where it was. -/
theorem Passing.eq {e t : Editor} (h : Passing e t e.cursor.line) : t = e := by
  rw [h.state, h.back rfl]

/-- On its own line the wanted coordinate is that of the cursor. -/
theorem cursorCharAtLine_back {e : Editor} (hmargin : 1 ≤ e.view.tabstopMargin)
    (hb : WellFormed e.buffer.lines)
    (hpos : ValidPos e.buffer e.cursor.line e.cursor.i) (hsettled : Settled e) :
    e.view.cursorCharAtLine e.buffer e.cursor.line e.cursor.x false =
      .ok e.cursor.i := by
  obtain ⟨s, hs, hi, hle⟩ := Buffer.validPos_iff.mp hpos
  have hrange := Buffer.range_of_lineAt hs
  have hone := hb.atMostOne (Buffer.mem_of_lineAt hs)
  obtain ⟨x, hx, hchar⟩ := Cursor.gives_coordX_eq e.view hpos
  obtain rfl : x = e.cursor.x := Except.ok.inj (hx.symm.trans hsettled)
  have hfound := e.view.charAtLine_charX true hmargin hs hone hi hle hchar
  rw [View.cursorCharAtLine, if_neg (by omega), if_neg (by omega)]
  simp only [hfound]
  by_cases heol : some e.cursor.i = e.buffer.eol e.cursor.line
  · have hwidth : ¬ e.cursor.x - e.cursor.x > 0 := by omega
    simp only [nonNil, bind, Except.bind, if_pos heol, hchar, if_neg hwidth]
    rfl
  · simp only [nonNil, bind, Except.bind, if_neg heol]
    rfl

/-- An index in the line is kept within the line. -/
theorem exists_withinLine {c : Cursor} {b : Buffer} {line : Int}
    (hline : 1 ≤ line ∧ line ≤ b.lines.length) (i : Int) :
    ∃ i', c.withinLine b line i = .ok i' ∧ (ValidPos b line i → i' = i) := by
  obtain ⟨s, hs⟩ := Buffer.lineAt_of_range hline
  have heol := Buffer.eol_of_lineAt hs
  unfold Cursor.withinLine
  rw [if_pos hline.2, heol]
  cases c.restrictsEol with
  | true =>
      refine ⟨min i (termChar s), rfl, ?_⟩
      rintro ⟨-, -, -, hle⟩
      exact min_eq_left (hle _ heol)
  | false => exact ⟨i, rfl, fun _ => rfl⟩

/-- A vertical movement inside the text goes to its line and keeps the rest. -/
theorem moveVert_inside {t : Editor} {lines : Int}
    (hline : 1 ≤ t.cursor.line + lines ∧ t.cursor.line + lines ≤ t.buffer.lines.length) :
    ∃ i i', moveVert lines t =
        .ok () { t with cursor := { t.cursor with line := t.cursor.line + lines, i := i' } } ∧
      t.view.cursorCharAtLine t.buffer (t.cursor.line + lines) t.cursor.x false = .ok i ∧
      (ValidPos t.buffer (t.cursor.line + lines) i → i' = i) := by
  obtain ⟨i, hi, -⟩ := t.view.gives_cursorCharAtLine (b := t.buffer) hline.1 t.cursor.x
  obtain ⟨i', hi', hkept⟩ :=
    exists_withinLine (c := t.cursor) hline (if i < 1 then 1 else i)
  have hmax : max 1 (t.cursor.line + lines) = t.cursor.line + lines := max_eq_right hline.1
  have hland : t.cursor.land t.buffer (t.cursor.line + lines) i true =
      .ok (t.cursor.line + lines, if i < 1 then 1 else i, true) := by
    rw [Cursor.land, if_neg (by omega), if_neg (by omega)]
  refine ⟨i, i', ?_, hi, ?_⟩
  · simp only [moveVert, move, get_bind_apply, hmax, hi, ofExcept_ok_bind, hland, hi']
    rfl
  · intro hpos
    have hone := hpos.2.2.1
    rw [if_neg (by omega)] at hkept
    exact hkept hpos

section Walk

variable {e t : Editor} {line : Int}

/-- One line up or down on the way. -/
theorem Passing.step (h : Passing e t line) (hmargin : 1 ≤ e.view.tabstopMargin)
    (hb : WellFormed e.buffer.lines)
    (hpos : ValidPos e.buffer e.cursor.line e.cursor.i) (hsettled : Settled e) {lines : Int}
    (hline : 1 ≤ line + lines ∧ line + lines ≤ e.buffer.lines.length) :
    ∃ u, moveVert lines t = .ok () u ∧ Passing e u (line + lines) := by
  have hbuffer : t.buffer = e.buffer := by rw [h.state]
  have hview : t.view = e.view := by rw [h.state]
  have hx : t.cursor.x = e.cursor.x := by rw [h.state]
  have hat : t.cursor.line = line := by rw [h.state]
  obtain ⟨i, i', hmove, hi, hkept⟩ :=
    moveVert_inside (show 1 ≤ t.cursor.line + lines ∧
      t.cursor.line + lines ≤ t.buffer.lines.length by rwa [hat, hbuffer])
  rw [hat] at hmove hi hkept
  rw [hbuffer, hview, hx] at hi
  rw [hbuffer] at hkept
  refine ⟨_, hmove, ?_, ?_⟩
  · rw [h.state]
  · intro hback
    rw [hback, cursorCharAtLine_back hmargin hb hpos hsettled] at hi
    cases hi
    rw [hback] at hkept
    exact hkept hpos

/-- The method, a number of times. -/
def times (m : Program Editor Unit) : ℕ → Program Editor Unit
  | 0 => pure ()
  | n + 1 => do
      m
      times m n

/-- A number of lines up or down on the way. -/
theorem Passing.walk (h : Passing e t line) (hmargin : 1 ≤ e.view.tabstopMargin)
    (hb : WellFormed e.buffer.lines)
    (hpos : ValidPos e.buffer e.cursor.line e.cursor.i) (hsettled : Settled e) (lines : Int)
    {n : ℕ} (hline : ∀ j : ℕ, 1 ≤ j → j ≤ n →
      1 ≤ line + lines * j ∧ line + lines * j ≤ e.buffer.lines.length) :
    ∃ u, times (moveVert lines) n t = .ok () u ∧ Passing e u (line + lines * n) := by
  induction n generalizing t line with
  | zero => exact ⟨t, rfl, by simpa using h⟩
  | succ n ih =>
      have hfirst := hline 1 (le_refl 1) (Nat.succ_le_succ (Nat.zero_le n))
      rw [Nat.cast_one, mul_one] at hfirst
      obtain ⟨u, hmove, hu⟩ := h.step hmargin hb hpos hsettled hfirst
      have hshift : ∀ j : ℕ, line + lines + lines * j = line + lines * (j + 1 : ℕ) := by
        intro j
        push_cast
        ring
      obtain ⟨w, htimes, hw⟩ := ih hu (by
        intro j _ hj
        rw [hshift]
        exact hline (j + 1) (Nat.succ_le_succ (Nat.zero_le j)) (Nat.succ_le_succ hj))
      refine ⟨w, ?_, hshift n ▸ hw⟩
      rw [times, bind_of_ok hmove, htimes]

end Walk

/-- After a movement that is not vertical, any number of lines down and up again,
inside the text, lead back to where the cursor was, and so do lines up and down. -/
theorem vertical_moves_return {m : Program Editor Unit} (hm : NonVertical m) {e0 e : Editor}
    (hmove : m e0 = .ok () e) (hmargin : 1 ≤ e.view.tabstopMargin)
    (hb : WellFormed e.buffer.lines)
    (hpos : ValidPos e.buffer e.cursor.line e.cursor.i) (k : ℕ) :
    (e.cursor.line + k ≤ e.buffer.lines.length →
      (do times moveDown k; times moveUp k : Program Editor Unit) e = .ok () e) ∧
    (1 ≤ e.cursor.line - k →
      (do times moveUp k; times moveDown k : Program Editor Unit) e = .ok () e) := by
  have hsettled : Settled e := hm.settles e0 e hmove
  have hfirst := hpos.1
  have hlast := hpos.2.1
  constructor
  · intro hk
    obtain ⟨t, hdown, ht⟩ := (Passing.refl e).walk hmargin hb hpos hsettled 1 (n := k)
      (by intro j _ hj; omega)
    obtain ⟨u, hup, hu⟩ := ht.walk hmargin hb hpos hsettled (-1) (n := k)
      (by intro j _ hj; omega)
    have hback : e.cursor.line + 1 * (k : Int) + -1 * k = e.cursor.line := by ring
    rw [hback] at hu
    rw [moveDown, moveUp, bind_of_ok hdown, hup, hu.eq]
  · intro hk
    obtain ⟨t, hup, ht⟩ := (Passing.refl e).walk hmargin hb hpos hsettled (-1) (n := k)
      (by intro j _ hj; omega)
    obtain ⟨u, hdown, hu⟩ := ht.walk hmargin hb hpos hsettled 1 (n := k)
      (by intro j _ hj; omega)
    have hback : e.cursor.line + -1 * (k : Int) + 1 * k = e.cursor.line := by ring
    rw [hback] at hu
    rw [moveDown, moveUp, bind_of_ok hup, hdown, hu.eq]

/-- From behind a tab over an empty line to a shorter one and back. -/
theorem vertical_moves_return_short_lines :
    let e0 := new [LF] [TAB, 97, 98, 99, LF, LF, 120] View.new []
    let e := { e0 with cursor := { e0.cursor with line := 1, i := 4, x := 40 } }
    (e.cursor.line + ((2 : ℕ) : Int) ≤ (e.buffer.lines.length : Int) →
      (do times moveDown 2; times moveUp 2 : Program Editor Unit) e = .ok () e) ∧
    (1 ≤ e.cursor.line - ((2 : ℕ) : Int) →
      (do times moveUp 2; times moveDown 2 : Program Editor Unit) e = .ok () e) := by
  intro e0 e
  have hmove : move 1 4 false e0 = .ok () e := rfl
  exact vertical_moves_return (NonVertical.move 1 4) hmove (by decide)
    (sound_loadString [TAB, 97, 98, 99, LF, LF, 120] (Or.inl rfl)).lines
    (Buffer.validPos_iff.mpr ⟨[TAB, 97, 98, 99, LF], by decide, by decide, by decide⟩) 2

end Editor

end LuaAttic.Codedit
