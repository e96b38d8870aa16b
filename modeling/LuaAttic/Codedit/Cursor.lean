import LuaAttic.Codedit.View

/-!
# Caret-based navigation and editing (`codedit_cursor.lua`)

A cursor refers to a buffer and a view, so its methods are programs over the
editor that owns the three.  The records of the editor are defined here; the
flags that tell observers of a cursor or a selection that it has changed are
left out.
-/

namespace LuaAttic.Codedit

open LuaAttic.Lua Str
open MonadExcept (ofExcept)

/-- Where tabstops are taken into account. -/
inductive Tabstops
  | always
  | indent
  | never
  deriving DecidableEq, Repr

structure Cursor where
  /-- the field that movements set; nil stands for the class's own value -/
  restrictEol : Option Bool
  restrictEof : Bool
  landBof : Bool
  landEof : Bool
  wordChars : UInt8 → Bool
  jumpTabstops : Tabstops
  deleteTabstops : Tabstops
  insertMode : Bool
  autoIndent : Bool
  visible : Bool
  line : Int
  i : Int
  /-- the wanted offset when navigating up or down -/
  x : Int

/-- A line selection: the anchor and the free endpoint. -/
structure Selection where
  line1 : Int
  i1 : Int
  line2 : Int
  i2 : Int
  deriving DecidableEq, Repr

structure Editor where
  buffer : Buffer
  view : View
  cursor : Cursor
  selection : Selection
  clipboard : Bytes

namespace Cursor

/-- A new cursor with the options of the class. -/
def new (visible : Bool) : Cursor where
  restrictEol := none
  restrictEof := true
  landBof := true
  landEof := true
  -- the pattern `^[a-zA-Z]`
  wordChars := fun c => (65 ≤ c && c ≤ 90) || (97 ≤ c && c ≤ 122)
  jumpTabstops := .always
  deleteTabstops := .always
  insertMode := true
  autoIndent := true
  visible := visible
  line := 1
  i := 1
  x := 0

/-- `restrict_eol` is true in the class. -/
def restrictsEol (c : Cursor) : Bool := c.restrictEol.getD true

variable (c : Cursor) (b : Buffer) (v : View)

/-! ## Neighbouring positions -/

/-- The index of the tabstop at `x`, or of the one beyond it, given by `next`,
if that is where the cursor is. -/
def tabstopIndex (x : Int) (next : Int → Int) : Except Error Int :=
  let i := v.charAtLine b c.line x false
  nonNil .nilCompare <|
    if i = some c.i then v.charAtLine b c.line (next x) false else i

/-- The index that `prev_pos` jumps to with tabstops, if it does. -/
def prevTab (jump : Tabstops) (s : Bytes) : Except Error (Option Int) := do
  let jump ←
    (match jump with
    | .always => pure true
    | .indent => b.indenting c.line c.i
    | .never => pure false)
  if jump then
    let x0 ← v.charX b c.line c.i
    let tsI ← c.tabstopIndex b v (v.prevTabstopX x0) v.prevTabstopX
    let nsI ← prevNonspaceChar s c.i
    let psI := (← nextChar s (nsI.getD 0)).getD (s.length + 1)
    let prevI := max psI tsI
    return if prevI < c.i then some prevI else none
  else return none

def prevPos (jump : Tabstops) : Except Error (Int × Int) :=
  if c.i = 1 then
    if c.line = 1 then .ok (1, 1)
    else if c.line - 1 > b.lines.length then .ok (c.line - 1, 1)
    else do
      return (c.line - 1, ← nonNil .nilCompare (b.eol (c.line - 1)))
  else if c.line > b.lines.length then .ok (c.line, c.i - 1)
  else do
    let eol ← nonNil .nilCompare (b.eol c.line)
    if c.i > eol then return (c.line, c.i - 1)
    else
      let s ← nonNil .nilIndex (b.lineAt c.line)
      match ← c.prevTab b v jump s with
      | some i => return (c.line, i)
      | none => return (c.line, ← nonNil .nilCompare (← prevChar s c.i))

/-- The index that `next_pos` jumps to with tabstops, if it does. -/
def nextTab (jump : Tabstops) (s : Bytes) : Except Error (Option Int) := do
  let jump ←
    (match jump with
    | .always => pure true
    | .indent => do
        match ← nextChar s c.i with
        | some i => b.indenting c.line i
        | none => pure false
    | .never => pure false)
  let jump ← (if jump then iswhitespace s c.i else pure false)
  if jump then
    let x0 ← v.charX b c.line c.i
    let tsI ← c.tabstopIndex b v (v.nextTabstopX x0) v.nextTabstopX
    let eol ← nonNil .nilCompare (b.eol c.line)
    let nsI := (← Str.nextNonspaceChar s c.i).getD eol
    let nextI := min tsI nsI
    return if nextI > c.i then some nextI else none
  else return none

def nextPos (restrictEol : Bool) (jump : Tabstops) : Except Error (Int × Int) :=
  if c.line > b.lines.length then
    .ok <|
      if c.restrictEof then b.endPos
      else if restrictEol then (c.line + 1, 1)
      else (c.line, c.i + 1)
  else do
    let eol ← nonNil .nilCompare (b.eol c.line)
    if c.i ≥ eol then
      return (
        if restrictEol then
          if c.restrictEof ∧ c.line = b.lines.length then b.endPos
          else (c.line + 1, 1)
        else (c.line, c.i + 1))
    else
      let s ← nonNil .nilIndex (b.lineAt c.line)
      match ← c.nextTab b v jump s with
      | some i => return (c.line, i)
      | none => return (c.line, (← nextChar s c.i).getD (s.length + 1))

/-! ## Coordinates -/

/-- The horizontal coordinate that `view:cursor_coords` returns for a cursor.
Computing its width looks for the next position. -/
def coordX : Except Error Int := do
  let _ ← v.lineY c.line
  if c.line > b.lines.length then return v.spaceWidth (c.i - 1)
  else
    let x ← v.charX b c.line c.i
    let eol ← nonNil .nilArith (b.eol c.line)
    let extraSpaces := c.i - eol
    if extraSpaces ≥ 0 then
      return if extraSpaces > 0 then x + v.spaceWidth extraSpaces else x
    else
      let p ← c.nextPos b v false c.jumpTabstops
      let _ ← v.charCoords b c.line p.2
      return x

/-! ## Moving to a position -/

/-- The position that `move` lands on before the end of the line is taken into
account, and whether the wanted offset is kept. -/
def land (line i : Int) (keepX : Bool) : Except Error (Int × Int × Bool) :=
  let i := if i < 1 then 1 else i
  if line < 1 then
    .ok (1, if c.landBof then 1 else i, keepX && !c.landBof)
  else if c.restrictEof ∧ line > b.lines.length then
    let last : Int := b.lines.length
    if c.landEof then do
      return (last, ← nonNil .nilCompare (b.eol last), false)
    else .ok (last, i, keepX)
  else .ok (line, i, keepX)

/-- The index that is kept within the line when the cursor is restricted. -/
def withinLine (line i : Int) : Except Error Int :=
  if c.restrictsEol then
    if line ≤ b.lines.length then do
      return min i (← nonNil .nilCompare (b.eol line))
    else .ok 1
  else .ok i

end Cursor

namespace Editor

/-! ## Navigation -/

/-- Move to a position in the text, restricted according to the boundaries of
the buffer and the navigation options. -/
def move (line i : Int) (keepX : Bool) : Program Editor Unit := do
  let e ← get
  let (line, i, keepX) ← ofExcept (e.cursor.land e.buffer line i keepX)
  let i ← ofExcept (e.cursor.withinLine e.buffer line i)
  let c := { e.cursor with line := line, i := i }
  set { e with cursor := c }
  (if keepX then pure ()
    else do
      let x ← ofExcept (c.coordX e.buffer e.view)
      set { e with cursor := { c with x := x } })

def moveToPos (p : Int × Int) : Program Editor Unit := move p.1 p.2 false

def movePrevPos : Program Editor Unit := do
  let e ← get
  moveToPos (← ofExcept
    (e.cursor.prevPos e.buffer e.view e.cursor.jumpTabstops))

def moveNextPos : Program Editor Unit := do
  let e ← get
  let c := e.cursor
  moveToPos (← ofExcept
    (c.nextPos e.buffer e.view c.restrictsEol c.jumpTabstops))

def movePrevWordBreak : Program Editor Unit := do
  let e ← get
  let c := e.cursor
  let b := e.buffer
  let wbI ← ofExcept
    (match b.lineAt c.line with
    | some s => prevWordBreakChar s c.i c.wordChars
    | none => .ok none)
  match wbI with
  | some i => move c.line i false
  | none =>
      if c.line > b.lines.length then
        if c.i = 1 then move (c.line - 1) ((b.eol (c.line - 1)).getD 1) false
        else move c.line 1 false
      else do
        let eol ← ofExcept (nonNil .nilCompare (b.eol c.line))
        if c.i > eol then move c.line eol false
        else movePrevPos

def moveNextWordBreak : Program Editor Unit := do
  let e ← get
  let c := e.cursor
  let wbI ← ofExcept
    (match e.buffer.lineAt c.line with
    | some s => nextWordBreakChar s c.i c.wordChars
    | none => .ok none)
  match wbI with
  | some i => move c.line i false
  | none => do
      moveToPos (← ofExcept (c.nextPos e.buffer e.view true c.jumpTabstops))

/-- Navigate vertically, with the wanted offset as target. -/
def moveVert (lines : Int) : Program Editor Unit := do
  let e ← get
  let line := e.cursor.line + lines
  let i ← ofExcept
    (e.view.cursorCharAtLine e.buffer (max 1 line) e.cursor.x false)
  move line i true

def moveUp : Program Editor Unit := moveVert (-1)

def moveDown : Program Editor Unit := moveVert 1

def moveHome : Program Editor Unit := move 1 1 false

def moveBol : Program Editor Unit := do
  let e ← get
  move e.cursor.line 1 false

def moveEnd : Program Editor Unit := do
  let e ← get
  moveToPos e.buffer.endPos

def moveEol : Program Editor Unit := do
  let e ← get
  moveToPos (e.buffer.clampPos e.cursor.line none)

def moveUpPage : Program Editor Unit := do
  let e ← get
  moveVert (-(← ofExcept e.view.pagesize))

def moveDownPage : Program Editor Unit := do
  let e ← get
  moveVert (← ofExcept e.view.pagesize)

def moveToSelection : Program Editor Unit := do
  let e ← get
  move e.selection.line2 e.selection.i2 false

def moveToCoords (x y : Int) : Program Editor Unit := do
  let e ← get
  let p ← ofExcept (e.view.screenToClient x y)
  moveToPos (← ofExcept
    (e.view.cursorCharAt e.buffer p.1 p.2 e.cursor.restrictEof))

/-! ## Editing -/

/-- Run a method of the buffer. -/
def onBuffer {α : Type} (m : Program Buffer α) : Program Editor α := fun e =>
  match m e.buffer with
  | .ok a b => .ok a { e with buffer := b }
  | .error err b => .error err { e with buffer := b }

theorem finalState_onBuffer {α : Type} (m : Program Buffer α) (e : Editor) :
    Support.finalState (onBuffer m) e =
      { e with buffer := Support.finalState m e.buffer } := by
  unfold Support.finalState onBuffer
  cases m e.buffer <;> rfl

/-- Insert a string at the cursor and move the cursor after the string. -/
def cursorInsert (s : Bytes) : Program Editor Unit := do
  let e ← get
  moveToPos (← onBuffer (Buffer.insert e.cursor.line e.cursor.i s))

/-- Delete the text up to the next cursor position. -/
def cursorDeletePos (restrictEol : Bool) : Program Editor Unit := do
  let e ← get
  let c := e.cursor
  let p ← ofExcept (c.nextPos e.buffer e.view restrictEol c.deleteTabstops)
  onBuffer (Buffer.remove c.line c.i p.1 p.2)

/-- Insert or overwrite a character at the cursor. -/
def cursorInsertChar (s : Bytes) : Program Editor Unit := do
  let e ← get
  (if e.cursor.insertMode then pure () else cursorDeletePos false)
  cursorInsert s

/-- Delete the character before the cursor position. -/
def cursorDeletePrevPos : Program Editor Unit := do
  let e ← get
  moveToPos (← ofExcept
    (e.cursor.prevPos e.buffer e.view e.cursor.deleteTabstops))
  cursorDeletePos true

/-- Add a new line, optionally with the indent of the current line. -/
def cursorInsertNewline : Program Editor Unit := do
  let e ← get
  let c := e.cursor
  if c.autoIndent then do
    onBuffer (Buffer.extend c.line c.i)
    let e ← get
    let indent ← ofExcept (e.buffer.selectIndent c.line c.i)
    let indent ← ofExcept (nonNil .nilConcat indent)
    cursorInsert ([LF] ++ indent)
  else cursorInsert [LF]

def cursorMoveLineUp : Program Editor Unit := do
  let e ← get
  onBuffer (Buffer.moveLine e.cursor.line (e.cursor.line - 1))
  moveUp

def cursorMoveLineDown : Program Editor Unit := do
  let e ← get
  onBuffer (Buffer.moveLine e.cursor.line (e.cursor.line + 1))
  moveDown

/-! ## Scrolling -/

def makeVisible : Program Editor Unit := do
  let e ← get
  if e.cursor.visible then do
    let v ← ofExcept
      (e.view.cursorMakeVisible e.buffer e.cursor.line e.cursor.i)
    set { e with view := v }
  else pure ()

end Editor

end LuaAttic.Codedit
