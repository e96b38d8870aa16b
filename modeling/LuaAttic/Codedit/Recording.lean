import LuaAttic.Codedit.Editor
import LuaAttic.Codedit.UndoLog

/-!
# Editor commands record their edits

A method of the editor that edits the text opens a group first, and makes its
edits by methods of the buffer that keep the log.  None of them is an insertion
at the first line, so whatever they record can be replayed.
-/

namespace LuaAttic.Codedit

open LuaAttic.Support LuaAttic.Lua
open MonadExcept (ofExcept)

namespace Editor

/-! ## Methods that keep the log of the open group -/

/-- The log of the open group is kept. -/
def Records (e t : Editor) : Prop := Logged True e.buffer t.buffer

instance : IsPreorder Editor Records where
  refl e := refl_of (Logged True) e.buffer
  trans _ _ _ h k := trans_of (Logged True) h k

theorem records_of_same {e t : Editor} (h : t.buffer = e.buffer) :
    Records e t := by
  rw [Records, h]
  exact refl_of (Logged True) e.buffer

def KeepsLog {α : Type} (m : Program Editor α) : Prop :=
  ∀ e, Relates Records m e

section KeepsLog

variable {α β : Type}

theorem KeepsLog.pure (a : α) : KeepsLog (Pure.pure a) :=
  fun e => Relates.pure a e

theorem KeepsLog.ofExcept (x : Except Error α) :
    KeepsLog (MonadExcept.ofExcept x) :=
  fun e => Relates.ofExcept x e

theorem KeepsLog.bind {m : Program Editor α} {f : α → Program Editor β}
    (hm : KeepsLog m) (hf : ∀ a, KeepsLog (f a)) : KeepsLog (m >>= f) :=
  fun e => Relates.bind (hm e) fun a t _ => hf a t

theorem KeepsLog.get_bind {f : Editor → Program Editor α}
    (hf : ∀ e, KeepsLog (f e)) : KeepsLog (get >>= f) :=
  fun e => Relates.get_bind (hf e e)

theorem KeepsLog.modify {g : Editor → Editor}
    (hg : ∀ e, (g e).buffer = e.buffer) :
    KeepsLog (modify g : Program Editor Unit) :=
  fun e => records_of_same (hg e)

end KeepsLog

theorem keepsLog_move (line i : Int) (keepX : Bool) :
    KeepsLog (move line i keepX) := by
  intro e
  refine Relates.get_bind (Relates.ofExcept_bind ?_)
  rintro ⟨line', i', keepX'⟩ -
  refine Relates.ofExcept_bind fun i'' _ => ?_
  refine Relates.set_bind (records_of_same rfl) ?_
  cases keepX' with
  | true => exact Relates.pure _ _
  | false =>
      refine Relates.ofExcept_bind fun x _ => ?_
      exact records_of_same rfl

theorem navigational_keepsLog : Navigational @KeepsLog where
  pure := KeepsLog.pure
  get := fun e => refl_of Records e
  ofExcept := KeepsLog.ofExcept
  bind := KeepsLog.bind
  move := keepsLog_move

theorem keepsLog_onBuffer {α : Type} {m : Program Buffer α}
    (hm : ∀ b, Relates (Logged True) m b) : KeepsLog (onBuffer m) := by
  intro e
  rw [Relates, finalState_onBuffer]
  exact hm e.buffer

/-- Scrolling does not change the buffer. -/
theorem makeVisible_buffer (e : Editor) :
    (finalState makeVisible e).buffer = e.buffer := by
  refine Ends.final (I := fun t : Editor => t.buffer = e.buffer) ?_
  refine Ends.get_bind ?_
  cases e.cursor.visible with
  | false => exact Ends.pure rfl
  | true =>
      refine Ends.bind (Ends.ofExcept (Q := fun _ t => e = t)
        (fun _ _ => rfl) rfl) ?_
      rintro v _ rfl
      exact Ends.set rfl

/-! ## Edits at the cursor -/

theorem keepsLog_cursorInsert (s : Bytes) : KeepsLog (cursorInsert s) :=
  KeepsLog.get_bind fun e => KeepsLog.bind
    (keepsLog_onBuffer (Buffer.relates_insert e.cursor.line e.cursor.i s))
    navigational_keepsLog.moveToPos

theorem keepsLog_cursorDeletePos (restrictEol : Bool) :
    KeepsLog (cursorDeletePos restrictEol) :=
  KeepsLog.get_bind fun e => KeepsLog.bind (KeepsLog.ofExcept _) fun p =>
    keepsLog_onBuffer (Buffer.relates_remove e.cursor.line e.cursor.i p.1 p.2)

theorem keepsLog_cursorInsertChar (s : Bytes) :
    KeepsLog (cursorInsertChar s) := by
  refine KeepsLog.get_bind fun e => KeepsLog.bind ?_ fun _ =>
    keepsLog_cursorInsert s
  split_ifs
  · exact KeepsLog.pure _
  · exact keepsLog_cursorDeletePos false

theorem keepsLog_deleteAtCursor (prev : Bool) :
    KeepsLog (deleteAtCursor prev) := by
  refine KeepsLog.get_bind fun e => ?_
  split_ifs
  · exact KeepsLog.pure _
  · refine KeepsLog.get_bind fun _ => KeepsLog.bind (KeepsLog.ofExcept _) ?_
    intro p
    exact KeepsLog.bind (navigational_keepsLog.moveToPos p)
      fun _ => keepsLog_cursorDeletePos true
  · exact keepsLog_cursorDeletePos true

theorem keepsLog_cursorInsertNewline : KeepsLog cursorInsertNewline := by
  refine KeepsLog.get_bind fun e => ?_
  simp only
  split_ifs
  · refine KeepsLog.bind (keepsLog_onBuffer
      (Buffer.relates_extend e.cursor.line e.cursor.i)) fun _ => ?_
    refine KeepsLog.get_bind fun _ => KeepsLog.bind (KeepsLog.ofExcept _) ?_
    intro indent
    exact KeepsLog.bind (KeepsLog.ofExcept _)
      fun _ => keepsLog_cursorInsert _
  · exact keepsLog_cursorInsert [Str.LF]

/-- A line is moved, and then the cursor. -/
theorem keepsLog_moveLine_moveVert (line1 line2 : Editor → Int)
    (lines : Int) :
    KeepsLog (do
      let e ← get
      onBuffer (Buffer.moveLine (line1 e) (line2 e))
      moveVert lines) :=
  KeepsLog.get_bind fun _ => KeepsLog.bind
    (keepsLog_onBuffer (Buffer.relates_moveLine _ _))
    fun _ => navigational_keepsLog.moveVert lines

/-! ## Edits of the selection -/

theorem keepsLog_resetToCursor : KeepsLog resetToCursor :=
  KeepsLog.modify fun _ => rfl

theorem keepsLog_moveToSelection : KeepsLog moveToSelection :=
  KeepsLog.get_bind fun _ => keepsLog_move _ _ _

theorem keepsLog_selectionRemove : KeepsLog selectionRemove := by
  refine KeepsLog.get_bind fun e => ?_
  split_ifs
  · exact KeepsLog.pure _
  · exact KeepsLog.bind (keepsLog_onBuffer (Buffer.relates_remove _ _ _ _))
      fun _ => KeepsLog.modify fun _ => rfl

theorem relates_moveEachUp (line : Int) (n : ℕ) (b : Buffer) :
    Relates (Logged True) (moveEachUp line n) b := by
  induction n generalizing line b with
  | zero => exact Relates.pure _ b
  | succ n ih =>
      exact Relates.bind (Buffer.relates_moveLine line (line - 1) b)
        fun _ t _ => ih (line + 1) t

theorem relates_moveEachDown (line : Int) (n : ℕ) (b : Buffer) :
    Relates (Logged True) (moveEachDown line n) b := by
  induction n generalizing line b with
  | zero => exact Relates.pure _ b
  | succ n ih =>
      exact Relates.bind (Buffer.relates_moveLine line (line + 1) b)
        fun _ t _ => ih (line - 1) t

theorem keepsLog_selectionMoveUp : KeepsLog selectionMoveUp := by
  refine KeepsLog.get_bind fun e => ?_
  simp only
  split_ifs
  · exact KeepsLog.pure _
  · exact KeepsLog.bind (keepsLog_onBuffer (relates_moveEachUp _ _))
      fun _ => KeepsLog.modify fun _ => rfl

theorem keepsLog_selectionMoveDown : KeepsLog selectionMoveDown := by
  refine KeepsLog.get_bind fun e => ?_
  simp only
  split_ifs
  · exact KeepsLog.pure _
  · exact KeepsLog.bind (keepsLog_onBuffer (relates_moveEachDown _ _))
      fun _ => KeepsLog.modify fun _ => rfl

/-! ## Commands -/

/-- The method makes its edits in a group that it starts first. -/
def InOneGroup {α : Type} (m : Program Editor α) : Prop :=
  ∀ e, OneGroup e.buffer (finalState m e).buffer

theorem inOneGroup_startUndoGroup {α : Type} (type : String)
    {f : Unit → Program Editor α} (hf : KeepsLog (f ())) :
    InOneGroup (startUndoGroup type >>= f) :=
  fun e => Or.inr ⟨type, hf { e with buffer := e.buffer.startUndoGroup type }⟩

theorem InOneGroup.pure (a : Unit) : InOneGroup (Pure.pure a) :=
  fun _ => Or.inl rfl

theorem InOneGroup.get_bind {α : Type} {f : Editor → Program Editor α}
    (hf : ∀ e, InOneGroup (f e)) : InOneGroup (get >>= f) :=
  fun e => hf e e

theorem InOneGroup.makeVisible {m : Program Editor Unit} (hm : InOneGroup m) :
    InOneGroup (m >>= fun _ => makeVisible) := by
  intro e
  have hgroup := hm e
  cases h : m e with
  | ok a t =>
      rw [finalState_of_ok h] at hgroup
      rwa [finalState_bind_of_ok h, makeVisible_buffer]
  | error err t =>
      rw [finalState_of_error h] at hgroup
      rwa [finalState_of_error (bind_of_error h)]

theorem inOneGroup_editAtCursor (type : String) {m : Program Editor Unit}
    (hm : KeepsLog m) : InOneGroup (editAtCursor type m) :=
  inOneGroup_startUndoGroup type
    (KeepsLog.bind hm fun _ => keepsLog_resetToCursor)

theorem inOneGroup_editSelection (type : String) {m : Program Editor Unit}
    (hm : KeepsLog m) : InOneGroup (editSelection type m) :=
  inOneGroup_startUndoGroup type
    (KeepsLog.bind hm fun _ => keepsLog_moveToSelection)

theorem keepsLog_restrictCursor (mode : Mode) :
    KeepsLog (restrictCursor mode) := by
  intro e
  refine Relates.get_bind (Relates.set_bind (records_of_same rfl) ?_)
  split_ifs
  · exact keepsLog_move _ _ _ _
  · exact Relates.pure _ _

theorem keepsLog_afterMoveCursor (mode : Mode) :
    KeepsLog (afterMoveCursor mode) := by
  have hvisible : KeepsLog Editor.makeVisible :=
    fun e => records_of_same (makeVisible_buffer e)
  cases mode with
  | restricted => exact KeepsLog.bind keepsLog_resetToCursor fun _ => hvisible
  | select =>
      exact KeepsLog.bind (KeepsLog.modify fun _ => rfl) fun _ => hvisible
  | unrestricted => exact KeepsLog.bind keepsLog_resetToCursor fun _ => hvisible

/-- A movement edits nothing. -/
theorem inOneGroup_beforeMoveCursor (mode : Mode) {m : Program Editor Unit}
    (hm : KeepsLog m) :
    InOneGroup (beforeMoveCursor mode >>= fun _ => m) := by
  unfold beforeMoveCursor
  rw [bind_assoc]
  refine inOneGroup_startUndoGroup "move" (KeepsLog.bind ?_ fun _ => hm)
  cases mode with
  | restricted =>
      exact KeepsLog.bind (KeepsLog.modify fun _ => rfl)
        fun _ => KeepsLog.pure _
  | select =>
      exact KeepsLog.bind (KeepsLog.modify fun _ => rfl)
        fun _ => keepsLog_restrictCursor _
  | unrestricted =>
      exact KeepsLog.bind (KeepsLog.modify fun _ => rfl)
        fun _ => keepsLog_restrictCursor _

theorem inOneGroup_moveCursor (direction : Direction) (mode : Mode) :
    InOneGroup (moveCursor direction mode) :=
  inOneGroup_beforeMoveCursor mode
    (KeepsLog.bind (navigational_keepsLog.method direction)
      fun _ => keepsLog_afterMoveCursor mode)

theorem inOneGroup_moveCursorToCoords (x y : Int) (mode : Mode) :
    InOneGroup (moveCursorToCoords x y mode) :=
  inOneGroup_beforeMoveCursor mode
    (KeepsLog.bind (navigational_keepsLog.moveToCoords x y)
      fun _ => keepsLog_afterMoveCursor mode)

theorem inOneGroup_removeSelection : InOneGroup removeSelection := by
  refine InOneGroup.get_bind fun e => ?_
  split_ifs
  · exact InOneGroup.pure _
  · exact inOneGroup_editSelection _ keepsLog_selectionRemove

theorem inOneGroup_deletePos (prev : Bool) : InOneGroup (deletePos prev) := by
  refine InOneGroup.get_bind fun e => InOneGroup.makeVisible ?_
  split_ifs
  · exact inOneGroup_editAtCursor _ (keepsLog_deleteAtCursor prev)
  · exact inOneGroup_removeSelection

theorem inOneGroup_moveLinesUp : InOneGroup moveLinesUp := by
  refine InOneGroup.get_bind fun e => InOneGroup.makeVisible ?_
  split_ifs
  · exact inOneGroup_editAtCursor _ (keepsLog_moveLine_moveVert _ _ _)
  · exact inOneGroup_editSelection _ keepsLog_selectionMoveUp

theorem inOneGroup_moveLinesDown : InOneGroup moveLinesDown := by
  refine InOneGroup.get_bind fun e => InOneGroup.makeVisible ?_
  split_ifs
  · exact inOneGroup_editAtCursor _ (keepsLog_moveLine_moveVert _ _ _)
  · exact inOneGroup_editSelection _ keepsLog_selectionMoveDown

theorem inOneGroup_cut : InOneGroup cut := by
  intro e
  change OneGroup e.buffer (finalState (if e.selection.isempty = true then _
    else _) e).buffer
  split_ifs
  · exact Or.inl rfl
  · exact inOneGroup_editSelection "cut" keepsLog_selectionRemove
      { e with clipboard := e.selection.contents e.buffer }

theorem inOneGroup_copy : InOneGroup copy := by
  refine InOneGroup.get_bind fun e => ?_
  split_ifs
  · exact InOneGroup.pure _
  · exact inOneGroup_startUndoGroup "copy" (KeepsLog.modify fun _ => rfl)

theorem inOneGroup_paste : InOneGroup paste :=
  InOneGroup.get_bind fun _ => inOneGroup_startUndoGroup "paste"
    (KeepsLog.bind keepsLog_selectionRemove fun _ =>
      KeepsLog.bind keepsLog_moveToSelection fun _ =>
        KeepsLog.bind (keepsLog_cursorInsert _) fun _ =>
          keepsLog_resetToCursor)

end Editor

end LuaAttic.Codedit
