import LuaAttic.Codedit.Cursor

/-!
# Selection and editor commands (`codedit_selection.lua`, `codedit_editor.lua`)

The commands of the editor with a line selection.  Block selections, and the
commands that need one, are left out.  The line selection is visible all the
time, so the flag that hides it while it is replaced is left out too.
-/

namespace LuaAttic.Codedit

open LuaAttic.Lua Str
open MonadExcept (ofExcept)

namespace Selection

/-- A new selection. -/
def new : Selection := ⟨1, 1, 1, 1⟩

variable (sel : Selection) (b : Buffer)

/-! ## Boundaries -/

def isempty : Bool := sel.line2 = sel.line1 ∧ sel.i2 = sel.i1

/-- Goes top-down and left-to-right. -/
def isforward : Bool :=
  sel.line1 < sel.line2 ∨ (sel.line1 = sel.line2 ∧ sel.i1 ≤ sel.i2)

/-- The endpoints, ordered. -/
def endpoints : Int × Int × Int × Int :=
  if sel.isforward then (sel.line1, sel.i1, sel.line2, sel.i2)
  else (sel.line2, sel.i2, sel.line1, sel.i1)

/-- The range of lines that the selection covers fully or partially. -/
def lineRange : Int × Int :=
  let (line1, _, line2, i2) := sel.endpoints
  if !sel.isempty ∧ i2 = 1 then (line1, line2 - 1) else (line1, line2)

def contents : Bytes :=
  let (line1, i1, line2, i2) := sel.endpoints
  b.select line1 i1 line2 (some i2)

/-! ## Changing the selection -/

/-- Empty and re-anchor the selection. -/
def reset (line i : Int) : Selection :=
  let p := b.clampPos line (some i)
  ⟨p.1, p.2, p.1, p.2⟩

/-- Move the free endpoint. -/
def extend (line i : Int) : Selection :=
  let p := b.clampPos line (some i)
  { sel with line2 := p.1, i2 := p.2 }

def reverse : Selection := ⟨sel.line2, sel.i2, sel.line1, sel.i1⟩

/-- Set the endpoints, preserving or setting the direction. -/
def set (line1 i1 line2 i2 : Int) (forward : Option Bool) : Selection :=
  let forward := forward.getD sel.isforward
  let new := (reset b line1 i1).extend b line2 i2
  if forward ≠ new.isforward then new.reverse else new

def setToSelection (old : Selection) : Selection :=
  sel.set b old.line1 old.i1 old.line2 old.i2 (some old.isforward)

end Selection

namespace Editor

/-! ## Selection-based editing -/

def resetToCursor : Program Editor Unit :=
  modify fun e =>
    { e with selection := Selection.reset e.buffer e.cursor.line e.cursor.i }

def extendToCursor : Program Editor Unit :=
  modify fun e =>
    { e with selection := e.selection.extend e.buffer e.cursor.line e.cursor.i }

def selectionRemove : Program Editor Unit := do
  let e ← get
  if e.selection.isempty then pure ()
  else do
    let (line1, i1, line2, i2) := e.selection.endpoints
    onBuffer (Buffer.remove line1 i1 line2 i2)
    modify fun e => { e with selection := Selection.reset e.buffer line1 i1 }

/-- The loop of the selection's `move_up` over `n` lines from `line` on. -/
def moveEachUp (line : Int) : ℕ → Program Buffer Unit
  | 0 => pure ()
  | n + 1 => do
      Buffer.moveLine line (line - 1)
      moveEachUp (line + 1) n

/-- The loop of the selection's `move_down` over `n` lines up from `line`. -/
def moveEachDown (line : Int) : ℕ → Program Buffer Unit
  | 0 => pure ()
  | n + 1 => do
      Buffer.moveLine line (line + 1)
      moveEachDown (line - 1) n

def selectionMoveUp : Program Editor Unit := do
  let e ← get
  let (line1, line2) := e.selection.lineRange
  if line1 = 1 then pure ()
  else do
    onBuffer (moveEachUp line1 (line2 - line1 + 1).toNat)
    modify fun e => { e with
      selection := e.selection.set e.buffer (line1 - 1) 1 (line2 - 1 + 1) 1 none }

def selectionMoveDown : Program Editor Unit := do
  let e ← get
  let (line1, line2) := e.selection.lineRange
  if line2 = e.buffer.lines.length then pure ()
  else do
    onBuffer (moveEachDown line2 (line2 - line1 + 1).toNat)
    modify fun e => { e with
      selection := e.selection.set e.buffer (line1 + 1) 1 (line2 + 1 + 1) 1 none }

/-! ## Undo and redo commands -/

/-- Neither the cursor nor the selection is restored: loading the state that
belongs to a group is left to do in the source. -/
def undo : Program Editor Unit := onBuffer Buffer.undo

def redo : Program Editor Unit := onBuffer Buffer.redo

/-! ## Navigation and selection commands -/

/-- The modes of a movement, but for that of block selections. -/
inductive Mode
  | restricted
  | select
  | unrestricted
  deriving DecidableEq, Repr

/-- The methods `move_..` of the cursor that `move_cursor` can be given. -/
inductive Direction
  | prevPos
  | nextPos
  | up
  | down
  | prevWordBreak
  | nextWordBreak
  | home
  /-- `end` -/
  | endPos
  | bol
  | eol
  | upPage
  | downPage
  deriving DecidableEq, Repr

def Direction.method : Direction → Program Editor Unit
  | .prevPos => movePrevPos
  | .nextPos => moveNextPos
  | .up => moveUp
  | .down => moveDown
  | .prevWordBreak => movePrevWordBreak
  | .nextWordBreak => moveNextWordBreak
  | .home => moveHome
  | .endPos => moveEnd
  | .bol => moveBol
  | .eol => moveEol
  | .upPage => moveUpPage
  | .downPage => moveDownPage

def startUndoGroup (type : String) : Program Editor Unit :=
  modify fun e => { e with buffer := e.buffer.startUndoGroup type }

/-- The restriction of the cursor for a mode that sets it, which may move the
cursor back into its line. -/
def restrictCursor (mode : Mode) : Program Editor Unit := do
  let e ← get
  let oldRestrictEol := e.cursor.restrictsEol
  let restrictEol :=
    { e.cursor with restrictEol := none }.restrictsEol && mode != .unrestricted
  set { e with cursor := { e.cursor with restrictEol := some restrictEol } }
  if !oldRestrictEol && restrictEol then move e.cursor.line e.cursor.i false
  else pure ()

/-- The field `block` of a line selection is nil, never false, so the mode
`select` sets the line selection to itself each time. -/
def beforeMoveCursor (mode : Mode) : Program Editor Unit := do
  startUndoGroup "move"
  (match mode with
  | .select => modify fun e =>
      { e with selection := e.selection.setToSelection e.buffer e.selection }
  | _ => modify fun e =>
      { e with cursor := { e.cursor with restrictEol := none } })
  (match mode with
  | .restricted => pure ()
  | _ => restrictCursor mode)

def afterMoveCursor (mode : Mode) : Program Editor Unit := do
  (match mode with
  | .select => extendToCursor
  | _ => resetToCursor)
  makeVisible

def moveCursorToCoords (x y : Int) (mode : Mode) : Program Editor Unit := do
  beforeMoveCursor mode
  moveToCoords x y
  afterMoveCursor mode

def moveCursor (direction : Direction) (mode : Mode) : Program Editor Unit := do
  beforeMoveCursor mode
  direction.method
  afterMoveCursor mode

def selectAll : Program Editor Unit := do
  moveCursor .home .restricted
  moveCursor .endPos .select

/-- The buffer has no method `word_cols`. -/
def selectWordAtCursor : Program Editor Unit := throw .nilCall

def selectLineAtCursor : Program Editor Unit := do
  moveCursor .bol .restricted
  moveCursor .eol .select

/-! ## Editing commands -/

/-- An edit of the selected text in a group of the given type; the cursor
follows the selection. -/
def editSelection (type : String) (m : Program Editor Unit) :
    Program Editor Unit := do
  startUndoGroup type
  m
  moveToSelection

def removeSelection : Program Editor Unit := do
  let e ← get
  if e.selection.isempty then pure ()
  else editSelection "remove_selection" selectionRemove

/-- An edit at the cursor in a group of the given type; the selection follows
the cursor. -/
def editAtCursor (type : String) (m : Program Editor Unit) :
    Program Editor Unit := do
  startUndoGroup type
  m
  resetToCursor

def insertChar (s : Bytes) : Program Editor Unit := do
  removeSelection
  editAtCursor "insert_char" (cursorInsertChar s)
  makeVisible

/-- The deletion that `delete_pos` does without a selection. -/
def deleteAtCursor (prev : Bool) : Program Editor Unit := do
  let e ← get
  if prev then
    if e.cursor.line = 1 ∧ e.cursor.i = 1 then pure ()
    else cursorDeletePrevPos
  else cursorDeletePos true

def deletePos (prev : Bool) : Program Editor Unit := do
  let e ← get
  (if e.selection.isempty then
      editAtCursor "delete_position" (deleteAtCursor prev)
    else removeSelection)
  makeVisible

def deletePrevPos : Program Editor Unit := deletePos true

def newline : Program Editor Unit := do
  removeSelection
  editAtCursor "insert_newline" cursorInsertNewline
  makeVisible

def moveLinesUp : Program Editor Unit := do
  let e ← get
  (if e.selection.isempty then editAtCursor "move_line_up" cursorMoveLineUp
    else editSelection "move_selection_up" selectionMoveUp)
  makeVisible

def moveLinesDown : Program Editor Unit := do
  let e ← get
  (if e.selection.isempty then editAtCursor "move_line_down" cursorMoveLineDown
    else editSelection "move_selection_down" selectionMoveDown)
  makeVisible

/-! ## Clipboard commands -/

def cut : Program Editor Unit := do
  let e ← get
  if e.selection.isempty then pure ()
  else do
    set { e with clipboard := e.selection.contents e.buffer }
    editSelection "cut" selectionRemove

def copy : Program Editor Unit := do
  let e ← get
  if e.selection.isempty then pure ()
  else do
    startUndoGroup "copy"
    modify fun e => { e with clipboard := e.selection.contents e.buffer }

def paste : Program Editor Unit := do
  let e ← get
  let s := e.clipboard
  startUndoGroup "paste"
  selectionRemove
  moveToSelection
  cursorInsert s
  resetToCursor

end Editor

/-! ## Commands -/

/-- The commands of the editor. -/
inductive Command
  | insertChar (s : Bytes)
  | newline
  | deletePos
  | deletePrevPos
  | moveCursor (direction : Editor.Direction) (mode : Editor.Mode)
  | moveCursorToCoords (x y : Int) (mode : Editor.Mode)
  | selectAll
  | selectWordAtCursor
  | selectLineAtCursor
  | moveLinesUp
  | moveLinesDown
  | cut
  | copy
  | paste
  | undo
  | redo
  deriving DecidableEq, Repr

def Command.call : Command → Program Editor Unit
  | .insertChar s => Editor.insertChar s
  | .newline => Editor.newline
  | .deletePos => Editor.deletePos false
  | .deletePrevPos => Editor.deletePrevPos
  | .moveCursor direction mode => Editor.moveCursor direction mode
  | .moveCursorToCoords x y mode => Editor.moveCursorToCoords x y mode
  | .selectAll => Editor.selectAll
  | .selectWordAtCursor => Editor.selectWordAtCursor
  | .selectLineAtCursor => Editor.selectLineAtCursor
  | .moveLinesUp => Editor.moveLinesUp
  | .moveLinesDown => Editor.moveLinesDown
  | .cut => Editor.cut
  | .copy => Editor.copy
  | .paste => Editor.paste
  | .undo => Editor.undo
  | .redo => Editor.redo

namespace Editor

/-- A new editor of a text, with the options of the classes.  The clipboard is
shared with other editors. -/
def new (lineTerminator text : Bytes) (view : View) (clipboard : Bytes) :
    Editor where
  buffer := (Buffer.new lineTerminator).loadString text
  view := view
  cursor := Cursor.new true
  selection := Selection.new
  clipboard := clipboard

/-- The editor after a command, which may have raised. -/
def execute (e : Editor) (c : Command) : Editor :=
  Support.finalState c.call e

end Editor

/-!
## Methods that are built on `move`

All navigation ends in `move`, after computations that change nothing.  What
sequences inherit and `move` has is therefore true of every method that
navigates.
-/
open MonadExcept (ofExcept)

namespace Editor

/-- A property of programs that sequences inherit, and that reading the state,
computing and `move` have. -/
structure Navigational (P : ∀ {α : Type}, Program Editor α → Prop) : Prop where
  pure : ∀ {α : Type} (a : α), P (Pure.pure a)
  get : P get
  ofExcept : ∀ {α : Type} (x : Except Error α), P (ofExcept x)
  bind : ∀ {α β : Type} {m : Program Editor α} {f : α → Program Editor β},
    P m → (∀ a, P (f a)) → P (m >>= f)
  move : ∀ (line i : Int) (keepX : Bool), P (move line i keepX)

namespace Navigational

variable {P : ∀ {α : Type}, Program Editor α → Prop} (h : Navigational P)

include h

theorem moveToPos (p : Int × Int) : P (moveToPos p) := h.move p.1 p.2 false

/-- Navigation to a computed position. -/
theorem moveToComputed (x : Editor → Except Error (Int × Int)) :
    P (MonadState.get >>= fun e =>
      MonadExcept.ofExcept (x e) >>= Editor.moveToPos) :=
  h.bind h.get fun _ => h.bind (h.ofExcept _) h.moveToPos

theorem movePrevPos : P movePrevPos := h.moveToComputed _

theorem moveVert (lines : Int) : P (moveVert lines) :=
  h.bind h.get fun _ => h.bind (h.ofExcept _) fun _ => h.move _ _ _

theorem movePrevWordBreak : P movePrevWordBreak := by
  refine h.bind h.get fun e => ?_
  refine h.bind (h.ofExcept _) fun wbI => ?_
  cases wbI with
  | some i => exact h.move _ _ _
  | none =>
      simp only
      split_ifs
      · exact h.move _ _ _
      · exact h.move _ _ _
      · refine h.bind (h.ofExcept _) fun eol => ?_
        split_ifs
        · exact h.move _ _ _
        · exact h.movePrevPos

theorem moveNextWordBreak : P moveNextWordBreak := by
  refine h.bind h.get fun e => ?_
  refine h.bind (h.ofExcept _) fun wbI => ?_
  cases wbI with
  | some i => exact h.move _ _ _
  | none => exact h.bind (h.ofExcept _) h.moveToPos

theorem moveToCoords (x y : Int) : P (moveToCoords x y) :=
  h.bind h.get fun _ => h.bind (h.ofExcept _) fun _ =>
    h.bind (h.ofExcept _) h.moveToPos

theorem method (direction : Direction) : P direction.method := by
  cases direction with
  | prevPos => exact h.movePrevPos
  | nextPos => exact h.moveToComputed _
  | up => exact h.moveVert _
  | down => exact h.moveVert _
  | prevWordBreak => exact h.movePrevWordBreak
  | nextWordBreak => exact h.moveNextWordBreak
  | home => exact h.move _ _ _
  | endPos => exact h.bind h.get fun _ => h.moveToPos _
  | bol => exact h.bind h.get fun _ => h.move _ _ _
  | eol => exact h.bind h.get fun _ => h.moveToPos _
  | upPage =>
      exact h.bind h.get fun _ => h.bind (h.ofExcept _) fun _ => h.moveVert _
  | downPage =>
      exact h.bind h.get fun _ => h.bind (h.ofExcept _) fun _ => h.moveVert _

end Navigational

end Editor

end LuaAttic.Codedit
