import LuaAttic.Codedit.Editor
import LuaAttic.Codedit.Landing
import LuaAttic.Codedit.Insert
import LuaAttic.Codedit.Undo

/-!
# The cursor and the selection stay in the text

Every command brings the cursor and the selection back into the text that it
leaves, but for undo and redo: these change the text alone.  Between an edit
and the movement that follows it a command may be in a state where one or both
are outside the text; nothing raises there.
-/

namespace LuaAttic.Codedit

open LuaAttic.Support LuaAttic.Lua Str
open MonadExcept (ofExcept)

theorem validPos_congr {b b' : Buffer} (h : b'.lines = b.lines)
    {line i : Int} : ValidPos b' line i ↔ ValidPos b line i := by
  simp only [ValidPos, Buffer.eol, Buffer.lineAt, h]

theorem Sound.congr {b b' : Buffer} (hb : Sound b) (h : b'.lines = b.lines)
    (hterm : b'.lineTerminator = b.lineTerminator) : Sound b' where
  lineTerminator := hterm.symm ▸ hb.lineTerminator
  lines := h.symm ▸ hb.lines

namespace Editor

/-! ## Valid editors -/

/-- Both endpoints of the selection are positions of the text. -/
structure SelectionInText (e : Editor) : Prop where
  anchor : ValidPos e.buffer e.selection.line1 e.selection.i1
  free : ValidPos e.buffer e.selection.line2 e.selection.i2

def CursorInText (e : Editor) : Prop :=
  ValidPos e.buffer e.cursor.line e.cursor.i

/-- The text is well formed and the cursor is restricted to it. -/
structure Ready (e : Editor) : Prop where
  sound : Sound e.buffer
  restricted : e.cursor.Restricted

/-- The invariant. -/
structure Valid (e : Editor) : Prop extends Ready e where
  cursor : CursorInText e
  selection : SelectionInText e

theorem Landed.ready {e t : Editor} (h : Landed e t) (he : Ready e) :
    Ready t where
  sound := h.buffer.symm ▸ he.sound
  restricted := h.restricted

theorem Landed.selectionInText {e t : Editor} (h : Landed e t)
    (he : SelectionInText e) : SelectionInText t := by
  constructor
  · rw [h.buffer, h.selection]
    exact he.anchor
  · rw [h.buffer, h.selection]
    exact he.free

theorem Landed.valid {e t : Editor} (h : Landed e t) (he : Ready e)
    (hsel : SelectionInText e) : Valid t :=
  ⟨h.ready he, h.pos, h.selectionInText hsel⟩

/-- A buffer with the same text keeps the editor valid. -/
theorem Valid.congr {e : Editor} (h : Valid e) {b : Buffer}
    (hlines : b.lines = e.buffer.lines)
    (hterm : b.lineTerminator = e.buffer.lineTerminator) :
    Valid { e with buffer := b } where
  sound := h.sound.congr hlines hterm
  restricted := h.restricted
  cursor := (validPos_congr hlines).mpr h.cursor
  selection := ⟨(validPos_congr hlines).mpr h.selection.anchor,
    (validPos_congr hlines).mpr h.selection.free⟩

theorem selectionInText_reset (e : Editor) (line i : Int) :
    SelectionInText
      { e with selection := Selection.reset e.buffer line i } :=
  ⟨Buffer.validPos_clampPos _ _ _, Buffer.validPos_clampPos _ _ _⟩

theorem selectionInText_set (e : Editor) (line1 i1 line2 i2 : Int)
    (forward : Option Bool) :
    SelectionInText { e with
      selection := e.selection.set e.buffer line1 i1 line2 i2 forward } := by
  have h1 := Buffer.validPos_clampPos e.buffer line1 (some i1)
  have h2 := Buffer.validPos_clampPos e.buffer line2 (some i2)
  unfold Selection.set
  simp only
  split_ifs
  · exact ⟨h2, h1⟩
  · exact ⟨h1, h2⟩

/-! ## Programs that keep the editor valid -/

/-- From a valid editor the program ends in one, whether it returns or
raises. -/
def KeepsValid {α : Type} (m : Program Editor α) : Prop :=
  ∀ e, Valid e → Ends m e (fun _ => Valid) Valid

section KeepsValid

variable {α β : Type}

theorem KeepsValid.pure (a : α) : KeepsValid (Pure.pure a) :=
  fun _ h => Ends.pure h

theorem KeepsValid.ofExcept (x : Except Error α) :
    KeepsValid (MonadExcept.ofExcept x) :=
  fun _ h => Ends.ofExcept (fun _ _ => h) h

theorem KeepsValid.bind {m : Program Editor α} {f : α → Program Editor β}
    (hm : KeepsValid m) (hf : ∀ a, KeepsValid (f a)) : KeepsValid (m >>= f) :=
  fun e h => Ends.bind (hm e h) fun a t ht => hf a t ht

theorem KeepsValid.get_bind {f : Editor → Program Editor α}
    (hf : ∀ e, KeepsValid (f e)) : KeepsValid (get >>= f) :=
  fun e h => Ends.get_bind (hf e e h)

theorem KeepsValid.modify {g : Editor → Editor}
    (hg : ∀ e, Valid e → Valid (g e)) :
    KeepsValid (modify g : Program Editor Unit) :=
  fun e h => Ends.modify (hg e h)

theorem KeepsValid.ite {p : Prop} [Decidable p] {m m' : Program Editor α}
    (hm : KeepsValid m) (hm' : KeepsValid m') :
    KeepsValid (if p then m else m') := by
  split_ifs
  · exact hm
  · exact hm'

end KeepsValid

/-! ## Navigation -/

theorem keepsValid_move (line i : Int) (keepX : Bool) :
    KeepsValid (move line i keepX) := by
  intro e h
  refine (ends_move h.restricted line i keepX).mono ?_ fun _ => False.elim
  intro _ t ht
  exact ht.valid h.toReady h.selection

/-- So do all methods that navigate. -/
theorem navigational_keepsValid : Navigational @KeepsValid where
  pure := KeepsValid.pure
  get := fun _ h => h
  ofExcept := KeepsValid.ofExcept
  bind := KeepsValid.bind
  move := keepsValid_move

/-- Scrolling changes the view alone. -/
theorem keepsValid_makeVisible : KeepsValid makeVisible := by
  intro e h
  refine Ends.get_bind ?_
  cases e.cursor.visible with
  | false => exact Ends.pure h
  | true =>
      refine Ends.bind (Ends.ofExcept (Q := fun _ t => e = t)
        (fun _ _ => rfl) h) ?_
      rintro v _ rfl
      exact Ends.set ⟨⟨h.sound, h.restricted⟩, h.cursor,
        ⟨h.selection.anchor, h.selection.free⟩⟩

theorem keepsValid_startUndoGroup (type : String) :
    KeepsValid (startUndoGroup type) :=
  KeepsValid.modify fun _ h => h.congr (Buffer.startUndoGroup_lines type _)
    (Buffer.startUndoGroup_lineTerminator type _)

theorem keepsValid_restrictCursor : KeepsValid (restrictCursor .select) := by
  intro e h
  refine Ends.get_bind ?_
  refine Ends.bind (Ends.set (Q := fun _ t => Valid t) ?_) fun _ t ht => ?_
  · exact ⟨⟨h.sound, ⟨h.restricted.eof, by simp [Cursor.restrictsEol]⟩⟩,
      h.cursor, ⟨h.selection.anchor, h.selection.free⟩⟩
  · exact KeepsValid.ite (keepsValid_move _ _ _) (KeepsValid.pure _) t ht

theorem keepsValid_beforeMoveCursor {mode : Mode} (hmode : mode ≠ .unrestricted) :
    KeepsValid (beforeMoveCursor mode) := by
  refine KeepsValid.bind (keepsValid_startUndoGroup "move") fun _ => ?_
  cases mode with
  | restricted =>
      refine KeepsValid.bind (KeepsValid.modify fun e h => ?_) fun _ =>
        KeepsValid.pure _
      exact ⟨⟨h.sound, ⟨h.restricted.eof, by simp⟩⟩, h.cursor,
        ⟨h.selection.anchor, h.selection.free⟩⟩
  | select =>
      refine KeepsValid.bind (KeepsValid.modify fun e h => ?_) fun _ =>
        keepsValid_restrictCursor
      exact ⟨⟨h.sound, h.restricted⟩, h.cursor, selectionInText_set e _ _ _ _ _⟩
  | unrestricted => exact absurd rfl hmode

theorem keepsValid_afterMoveCursor (mode : Mode) :
    KeepsValid (afterMoveCursor mode) := by
  have hreset : KeepsValid resetToCursor := KeepsValid.modify fun e h =>
    ⟨⟨h.sound, h.restricted⟩, h.cursor, selectionInText_reset e _ _⟩
  have hextend : KeepsValid extendToCursor := KeepsValid.modify fun e h =>
    ⟨⟨h.sound, h.restricted⟩, h.cursor,
      ⟨h.selection.anchor, Buffer.validPos_clampPos _ _ _⟩⟩
  cases mode with
  | restricted => exact KeepsValid.bind hreset fun _ => keepsValid_makeVisible
  | select => exact KeepsValid.bind hextend fun _ => keepsValid_makeVisible
  | unrestricted => exact KeepsValid.bind hreset fun _ => keepsValid_makeVisible

theorem keepsValid_moveCursor (direction : Direction) {mode : Mode}
    (hmode : mode ≠ .unrestricted) : KeepsValid (moveCursor direction mode) :=
  KeepsValid.bind (keepsValid_beforeMoveCursor hmode) fun _ =>
    KeepsValid.bind (navigational_keepsValid.method direction) fun _ =>
      keepsValid_afterMoveCursor mode

theorem keepsValid_moveCursorToCoords (x y : Int) {mode : Mode}
    (hmode : mode ≠ .unrestricted) : KeepsValid (moveCursorToCoords x y mode) :=
  KeepsValid.bind (keepsValid_beforeMoveCursor hmode) fun _ =>
    KeepsValid.bind (navigational_keepsValid.moveToCoords x y) fun _ =>
      keepsValid_afterMoveCursor mode

/-! ## Edits at the cursor -/

/-- The text is well formed and the cursor is in it; where the selection is
does not matter. -/
def Placed (e : Editor) : Prop := Ready e ∧ CursorInText e

/-- The text is well formed and the selection is in it; where the cursor is
does not matter. -/
def Selected (e : Editor) : Prop := Ready e ∧ SelectionInText e

theorem Valid.placed {e : Editor} (h : Valid e) : Placed e :=
  ⟨h.toReady, h.cursor⟩

theorem Landed.placed {e t : Editor} (h : Landed e t) (he : Ready e) :
    Placed t :=
  ⟨h.ready he, h.pos⟩

theorem ends_onBuffer {α : Type} {m : Program Buffer α} {e : Editor}
    {ok : α → Buffer → Prop} (h : Ends m e.buffer ok fun _ => False) :
    Ends (onBuffer m) e (fun a t => ∃ b, ok a b ∧ { e with buffer := b } = t)
      fun _ => False := by
  obtain ⟨a, b, hok, hb⟩ := h.exists_ok
  have hcall : onBuffer m e = .ok a { e with buffer := b } := by
    simp only [onBuffer, hok]
  exact Ends.of_ok hcall ⟨b, hb, rfl⟩

/-- An edit at the cursor may leave the selection anywhere. -/
theorem keepsValid_editAtCursor (type : String) {m : Program Editor Unit}
    (hm : ∀ e, Valid e → Ends m e (fun _ => Placed) Valid) :
    KeepsValid (editAtCursor type m) := by
  refine KeepsValid.bind (keepsValid_startUndoGroup type) fun _ e h => ?_
  refine Ends.bind (hm e h) fun _ t ht => Ends.modify ?_
  exact ⟨⟨ht.1.sound, ht.1.restricted⟩, ht.2, selectionInText_reset t _ _⟩

theorem ends_moveToSelection {e : Editor} (h : Selected e) :
    Ends moveToSelection e (fun _ => Valid) fun _ => False := by
  refine Ends.get_bind ?_
  refine (ends_move h.1.restricted _ _ _).mono ?_ fun _ => id
  intro _ t ht
  exact ht.valid h.1 h.2

/-- An edit of the selection may leave the cursor anywhere. -/
theorem keepsValid_editSelection (type : String) {m : Program Editor Unit}
    (hm : ∀ e, Valid e → Ends m e (fun _ => Selected) fun _ => False) :
    KeepsValid (editSelection type m) := by
  refine KeepsValid.bind (keepsValid_startUndoGroup type) fun _ e h => ?_
  refine (Ends.bind (hm e h) ?_).mono (fun _ _ => id) fun _ => False.elim
  intro _ t ht
  exact ends_moveToSelection ht

theorem ends_cursorInsert {e : Editor} (h : Placed e) (s : Bytes) :
    Ends (cursorInsert s) e (fun _ => Placed) fun _ => False := by
  refine Ends.get_bind ?_
  refine Ends.bind (ends_onBuffer (Buffer.ends_insert h.1.sound h.2 s)) ?_
  rintro p _ ⟨b, hb, rfl⟩
  refine (ends_move (e := { e with buffer := b }) h.1.restricted p.1 p.2
    false).mono ?_ fun _ => id
  intro _ t ht
  exact ht.placed ⟨hb, h.1.restricted⟩

theorem ends_cursorDeletePos {e : Editor} (h : Valid e) (restrictEol : Bool) :
    Ends (cursorDeletePos restrictEol) e (fun _ => Placed) Valid := by
  refine Ends.get_bind ?_
  refine Ends.bind (Ends.ofExcept (Q := fun _ t => e = t)
    (fun _ _ => rfl) h) ?_
  rintro p _ rfl
  refine (ends_onBuffer
    (Buffer.ends_remove h.sound h.cursor p.1 p.2)).mono ?_ fun _ => False.elim
  rintro _ _ ⟨b, ⟨hpos, hb⟩, rfl⟩
  exact ⟨⟨hb, h.restricted⟩, hpos⟩

theorem ends_cursorInsertChar {e : Editor} (h : Valid e) (s : Bytes) :
    Ends (cursorInsertChar s) e (fun _ => Placed) Valid := by
  have hinsert : ∀ t, Placed t →
      Ends (cursorInsert s) t (fun _ => Placed) Valid := fun t ht =>
    (ends_cursorInsert ht s).mono (fun _ _ => id) fun _ => False.elim
  refine Ends.get_bind ?_
  cases e.cursor.insertMode with
  | true =>
      exact Ends.bind (Ends.pure (Q := fun _ => Placed) h.placed)
        fun _ t ht => hinsert t ht
  | false =>
      exact Ends.bind (ends_cursorDeletePos h false) fun _ t ht => hinsert t ht

theorem ends_deleteAtCursor {e : Editor} (h : Valid e) (prev : Bool) :
    Ends (deleteAtCursor prev) e (fun _ => Placed) Valid := by
  refine Ends.get_bind ?_
  cases prev with
  | true =>
      by_cases hfirst : e.cursor.line = 1 ∧ e.cursor.i = 1
      · simp only [if_pos hfirst, if_true]
        exact Ends.pure h.placed
      · simp only [if_neg hfirst, if_true]
        refine Ends.get_bind (Ends.bind (KeepsValid.ofExcept _ e h) ?_)
        intro p t ht
        refine Ends.bind (navigational_keepsValid.moveToPos p t ht) ?_
        intro _ u hu
        exact ends_cursorDeletePos hu true
  | false => exact ends_cursorDeletePos h true

theorem ends_cursorInsertNewline {e : Editor} (h : Valid e) :
    Ends cursorInsertNewline e (fun _ => Placed) Valid := by
  have hinsert : ∀ t, Placed t → ∀ s,
      Ends (cursorInsert s) t (fun _ => Placed) Valid := fun t ht s =>
    (ends_cursorInsert ht s).mono (fun _ _ => id) fun _ => False.elim
  refine Ends.get_bind ?_
  by_cases hauto : e.cursor.autoIndent = true
  · simp only [if_pos hauto]
    -- there is nothing to extend
    have hextend : onBuffer (Buffer.extend e.cursor.line e.cursor.i) e =
        .ok () e := by
      simp only [onBuffer, Buffer.extend_of_validPos h.cursor]
    refine Ends.bind (Ends.of_ok (Q := fun _ => Valid) hextend h) ?_
    intro _ t ht
    refine Ends.get_bind (Ends.bind (KeepsValid.ofExcept _ t ht) ?_)
    intro indent u hu
    refine Ends.bind (KeepsValid.ofExcept _ u hu) ?_
    intro indent v hv
    exact hinsert v hv.placed _
  · simp only [if_neg hauto]
    exact hinsert e h.placed [LF]

/-- A line is moved, and then the cursor, which may be behind its end. -/
theorem ends_moveLine_moveVert {e : Editor} (h : Valid e) (line1 line2 : Int)
    (lines : Int) :
    Ends (do
      onBuffer (Buffer.moveLine line1 line2)
      moveVert lines) e (fun _ => Placed) Valid := by
  refine Ends.bind ((ends_onBuffer (Buffer.ends_moveLine h.sound line1
    line2)).mono (fun _ _ => id) fun _ => False.elim) ?_
  rintro _ _ ⟨b, hb, rfl⟩
  refine (ends_moveVert (e := { e with buffer := b }) h.restricted lines).mono
    ?_ fun _ => False.elim
  intro _ t ht
  exact ht.placed ⟨hb, h.restricted⟩

/-! ## Edits of the selection -/

theorem SelectionInText.endpoints {e : Editor} (h : SelectionInText e) :
    ValidPos e.buffer e.selection.endpoints.1 e.selection.endpoints.2.1 := by
  unfold Selection.endpoints
  split_ifs
  · exact h.anchor
  · exact h.free

theorem ends_selectionRemove {e : Editor} (h : Valid e) :
    Ends selectionRemove e (fun _ => Selected) fun _ => False := by
  refine Ends.get_bind ?_
  split_ifs
  · exact Ends.pure ⟨h.toReady, h.selection⟩
  · refine Ends.bind (ends_onBuffer
      (Buffer.ends_remove h.sound h.selection.endpoints _ _)) ?_
    rintro _ _ ⟨b, ⟨-, hb⟩, rfl⟩
    exact Ends.modify ⟨⟨hb, h.restricted⟩, selectionInText_reset _ _ _⟩

theorem ends_moveEachUp {b : Buffer} (hb : Sound b) (line : Int) (n : ℕ) :
    Ends (moveEachUp line n) b (fun _ => Sound) fun _ => False := by
  induction n generalizing b line with
  | zero => exact Ends.pure hb
  | succ n ih =>
      exact Ends.bind (Buffer.ends_moveLine hb line (line - 1))
        fun _ t ht => ih ht (line + 1)

theorem ends_moveEachDown {b : Buffer} (hb : Sound b) (line : Int) (n : ℕ) :
    Ends (moveEachDown line n) b (fun _ => Sound) fun _ => False := by
  induction n generalizing b line with
  | zero => exact Ends.pure hb
  | succ n ih =>
      exact Ends.bind (Buffer.ends_moveLine hb line (line + 1))
        fun _ t ht => ih ht (line - 1)

theorem ends_selectionMoveUp {e : Editor} (h : Valid e) :
    Ends selectionMoveUp e (fun _ => Selected) fun _ => False := by
  refine Ends.get_bind ?_
  simp only
  split_ifs
  · exact Ends.pure ⟨h.toReady, h.selection⟩
  · refine Ends.bind (ends_onBuffer (ends_moveEachUp h.sound _ _)) ?_
    rintro _ _ ⟨b, hb, rfl⟩
    exact Ends.modify
      ⟨⟨hb, h.restricted⟩, selectionInText_set _ _ _ _ _ _⟩

theorem ends_selectionMoveDown {e : Editor} (h : Valid e) :
    Ends selectionMoveDown e (fun _ => Selected) fun _ => False := by
  refine Ends.get_bind ?_
  simp only
  split_ifs
  · exact Ends.pure ⟨h.toReady, h.selection⟩
  · refine Ends.bind (ends_onBuffer (ends_moveEachDown h.sound _ _)) ?_
    rintro _ _ ⟨b, hb, rfl⟩
    exact Ends.modify
      ⟨⟨hb, h.restricted⟩, selectionInText_set _ _ _ _ _ _⟩

/-! ## Commands -/

theorem keepsValid_removeSelection : KeepsValid removeSelection :=
  KeepsValid.get_bind fun _ => KeepsValid.ite (KeepsValid.pure _)
    (keepsValid_editSelection _ fun _ => ends_selectionRemove)

theorem keepsValid_insertChar (s : Bytes) : KeepsValid (insertChar s) :=
  KeepsValid.bind keepsValid_removeSelection fun _ =>
    KeepsValid.bind (keepsValid_editAtCursor _
      fun _ h => ends_cursorInsertChar h s) fun _ => keepsValid_makeVisible

theorem keepsValid_newline : KeepsValid newline :=
  KeepsValid.bind keepsValid_removeSelection fun _ =>
    KeepsValid.bind (keepsValid_editAtCursor _
      fun _ => ends_cursorInsertNewline) fun _ => keepsValid_makeVisible

theorem keepsValid_deletePos (prev : Bool) : KeepsValid (deletePos prev) :=
  KeepsValid.get_bind fun _ => KeepsValid.bind (KeepsValid.ite
    (keepsValid_editAtCursor _ fun _ h => ends_deleteAtCursor h prev)
    keepsValid_removeSelection) fun _ => keepsValid_makeVisible

theorem keepsValid_moveLinesUp : KeepsValid moveLinesUp :=
  KeepsValid.get_bind fun _ => KeepsValid.bind (KeepsValid.ite
    (keepsValid_editAtCursor _ fun _ h =>
      Ends.get_bind (ends_moveLine_moveVert h _ _ _))
    (keepsValid_editSelection _ fun _ => ends_selectionMoveUp))
    fun _ => keepsValid_makeVisible

theorem keepsValid_moveLinesDown : KeepsValid moveLinesDown :=
  KeepsValid.get_bind fun _ => KeepsValid.bind (KeepsValid.ite
    (keepsValid_editAtCursor _ fun _ h =>
      Ends.get_bind (ends_moveLine_moveVert h _ _ _))
    (keepsValid_editSelection _ fun _ => ends_selectionMoveDown))
    fun _ => keepsValid_makeVisible

theorem Valid.clipboard {e : Editor} (h : Valid e) (s : Bytes) :
    Valid { e with clipboard := s } :=
  ⟨⟨h.sound, h.restricted⟩, h.cursor, ⟨h.selection.anchor, h.selection.free⟩⟩

theorem keepsValid_cut : KeepsValid cut := by
  intro e h
  refine Ends.get_bind ?_
  split_ifs
  · exact Ends.pure h
  · refine Ends.bind (Ends.set (Q := fun _ => Valid) (h.clipboard _)) ?_
    exact fun _ => keepsValid_editSelection _ fun _ => ends_selectionRemove

theorem keepsValid_copy : KeepsValid copy :=
  KeepsValid.get_bind fun _ => KeepsValid.ite (KeepsValid.pure _)
    (KeepsValid.bind (keepsValid_startUndoGroup _) fun _ =>
      KeepsValid.modify fun _ h => h.clipboard _)

/-- A paste replaces the selection in one group. -/
theorem keepsValid_paste : KeepsValid paste := by
  refine KeepsValid.get_bind fun e => ?_
  refine KeepsValid.bind (keepsValid_startUndoGroup "paste") fun _ t ht => ?_
  refine (Ends.bind (ends_selectionRemove ht) fun _ u hu => ?_).mono
    (fun _ _ => id) fun _ => False.elim
  refine Ends.bind (ends_moveToSelection hu) fun _ v hv => ?_
  refine Ends.bind (ends_cursorInsert hv.placed _) fun _ w hw => ?_
  exact Ends.modify
    ⟨⟨hw.1.sound, hw.1.restricted⟩, hw.2, selectionInText_reset w _ _⟩

end Editor

end LuaAttic.Codedit
