import LuaAttic.Codedit.Str

/-!
# The text buffer (`codedit_buffer.lua`)

The buffer keeps its text as a list of lines and records, while an undo group
is open, the commands that take its low-level edits back.  A method that can
raise is a program over the buffer, one that cannot is a function on it.

Stacks and groups are listed latest first.  The event handlers that
`trigger` calls are observers of the buffer and are left out.
-/

namespace LuaAttic.Codedit

open LuaAttic.Lua Str

/-- The low-level commands that an undo group records. -/
inductive Cmd
  /-- `_ins(line, s)` -/
  | ins (line : Int) (s : Bytes)
  /-- `_rem(line)` -/
  | rem (line : Int)
  /-- `_upd(line, s)` -/
  | upd (line : Int) (s : Bytes)
  deriving DecidableEq, Repr

/-- An undo group: its type and the recorded commands, latest first. -/
structure Group where
  type : String
  cmds : List Cmd
  deriving DecidableEq, Repr

/-- The fields of a buffer.  There is always at least one line. -/
structure Buffer where
  /-- the terminator to use when inserting text -/
  lineTerminator : Bytes
  lines : List Bytes
  linesNonempty : lines ≠ []
  undoStack : List Group
  redoStack : List Group
  undoGroup : Option Group
  /-- the registered flags, set when the buffer changes -/
  changed : List (String × Bool)
  deriving DecidableEq

namespace Buffer

/-! ## Instantiation -/

/-- The lines that `_init` stores: it cannot have zero lines. -/
def initLines (lines : List Bytes) : List Bytes :=
  if lines = [] then [[]] else lines

theorem initLines_ne_nil (lines : List Bytes) : initLines lines ≠ [] := by
  unfold initLines
  split
  · exact List.cons_ne_nil _ _
  next h => exact h

/-- `_init`: the given lines, no history, and the default flag alone. -/
def init (lines : List Bytes) (b : Buffer) : Buffer :=
  { b with
    lines := initLines lines
    linesNonempty := initLines_ne_nil lines
    undoStack := []
    redoStack := []
    undoGroup := none
    changed := [("file", false)] }

/-- `new`, with the line terminator of the class it is called on. -/
def new (lineTerminator : Bytes) : Buffer where
  lineTerminator := lineTerminator
  lines := [[]]
  linesNonempty := List.cons_ne_nil _ _
  undoStack := []
  redoStack := []
  undoGroup := none
  changed := [("file", false)]

/-! ## Invalidation -/

/-- Set all the changed flags. -/
def invalidate (b : Buffer) : Buffer :=
  { b with changed := b.changed.map fun p => (p.1, true) }

/-! ## Serialization -/

/-- The strings handed to `write` by `save`. -/
def save (b : Buffer) : List Bytes := b.lines.filter fun s => s ≠ []

/-- The inner loop of `_load_stream` over the lines of one chunk.  `s0` is the
last line loaded before the chunk.  The source stores the stitched line in
`lubes`, a global that nothing defines. -/
def loadChunk (s0 : Option Bytes) : List Bytes → List Bytes →
    Except Error (List Bytes)
  | [], lines => .ok lines
  | s :: rest, lines =>
      match s0 with
      | some (_ :: _) => .error .nilIndex
      | _ => loadChunk s0 rest (lines ++ [s])

/-- The outer loop of `_load_stream`, over the strings that `read` returns. -/
def loadChunks : List Bytes → List Bytes → Except Error (List Bytes)
  | [], lines => .ok lines
  | s :: chunks, lines => do
      let lines ← loadChunk lines.getLast? (lineStrings s) lines
      loadChunks chunks lines

def loadStream (chunks : List Bytes) : Program Buffer Unit := do
  match loadChunks chunks [] with
  | .ok lines => modify (init lines)
  | .error e => throw e

def loadString (s : Bytes) (b : Buffer) : Buffer := init (lineStrings s) b

/-! ## Undo groups -/

def endUndoGroup (b : Buffer) : Buffer :=
  match b.undoGroup with
  | none => b
  | some group =>
      { b with
        undoStack :=
          if group.cmds = [] then b.undoStack else group :: b.undoStack
        undoGroup := none }

/-- Continue a group of the same type; otherwise close the current group and
open a new one. -/
def startUndoGroup (groupType : String) (b : Buffer) : Buffer :=
  if b.undoGroup.map Group.type = some groupType then b
  else { endUndoGroup b with undoGroup := some ⟨groupType, []⟩ }

/-- Add an undo command to the current undo group, if any. -/
def undoCommand (cmd : Cmd) (b : Buffer) : Buffer :=
  { b with
    undoGroup := b.undoGroup.map fun g => { g with cmds := cmd :: g.cmds } }

def lastUndoCommand (b : Buffer) : Option Cmd :=
  b.undoGroup.bind fun g => g.cmds.head?

/-! ## Low-level undo-able commands -/

def ins (line : Int) (s : Bytes) : Program Buffer Unit := do
  let b ← get
  if 1 ≤ line ∧ line ≤ b.lines.length + 1 then
    set { b with
      lines := tableInsert b.lines line s
      linesNonempty := tableInsert_ne_nil b.linesNonempty line s }
    modify (undoCommand (.rem line))
  else throw .assertionFailed

def rem (line : Int) : Program Buffer Unit := do
  let b ← get
  if h : 2 ≤ line ∧ line ≤ b.lines.length then
    let s := (tableGet b.lines line).getD []
    set { b with
      lines := tableRemove b.lines line
      linesNonempty := tableRemove_ne_nil h }
    modify (undoCommand (.ins line s))
  else throw .assertionFailed

/-- The last recorded command is an `_upd` of the same line. -/
def updRecorded (line : Int) (b : Buffer) : Bool :=
  match b.lastUndoCommand with
  | some (.upd l _) => l = line
  | _ => false

def upd (line : Int) (s : Bytes) : Program Buffer Unit := do
  let b ← get
  -- nil exactly when the assertion on the line number fails
  match tableGet b.lines line with
  | none => throw .assertionFailed
  | some s0 =>
      if s0 = s then pure ()
      else
        (if updRecorded line b then pure ()
          else modify (undoCommand (.upd line s0)))
        modify fun b => { b with
          lines := tableSet b.lines line s
          linesNonempty := tableSet_ne_nil b.linesNonempty line s }

/-! ## Undo and redo -/

/-- Execute a recorded command: a method call on the buffer. -/
def call : Cmd → Program Buffer Unit
  | .ins line s => ins line s
  | .rem line => rem line
  | .upd line s => upd line s

/-- Execute recorded commands in reverse order of recording. -/
def callAll : List Cmd → Program Buffer Unit
  | [] => pure ()
  | cmd :: cmds => do
      call cmd
      callAll cmds

/-- Remove and return the top group of the undo stack. -/
def popUndo (b : Buffer) : Option (Group × Buffer) :=
  match b.undoStack with
  | [] => none
  | group :: rest => some (group, { b with undoStack := rest })

/-- Remove and return the top group of the redo stack. -/
def popRedo (b : Buffer) : Option (Group × Buffer) :=
  match b.redoStack with
  | [] => none
  | group :: rest => some (group, { b with redoStack := rest })

/-- `undo_from`, given how to pop the stack that it is passed. -/
def undoFrom (pop : Buffer → Option (Group × Buffer)) :
    Program Buffer Unit := do
  modify endUndoGroup
  match pop (← get) with
  | none => pure ()
  | some (group, b) =>
      set b
      modify (startUndoGroup group.type)
      callAll group.cmds
      modify endUndoGroup

/-- Move the top group of the undo stack, if any, to the redo stack. -/
def moveToRedo (b : Buffer) : Buffer :=
  match b.undoStack with
  | [] => b
  | group :: rest =>
      { b with undoStack := rest, redoStack := group :: b.redoStack }

def undo : Program Buffer Unit := do
  undoFrom popUndo
  modify moveToRedo

def redo : Program Buffer Unit := undoFrom popRedo

/-! ## Buffer boundaries -/

def lineAt (b : Buffer) (line : Int) : Option Bytes := tableGet b.lines line

/-- Byte index at the line terminator, or at `#s + 1`; nil outside the text. -/
def eol (b : Buffer) (line : Int) : Option Int := (b.lineAt line).map termChar

/-- The position after the last character in the text. -/
def endPos (b : Buffer) : Int × Int :=
  (b.lines.length, termChar (b.lines.getLast b.linesNonempty))

/-- A column, with `none` for the infinite one. -/
def clampCol (i : Option Int) (eol : Int) : Int :=
  match i with
  | some i => min (max i 1) eol
  | none => eol

/-- Clamp a position to the available text. -/
def clampPos (b : Buffer) (line : Int) (i : Option Int) : Int × Int :=
  if line < 1 then (1, 1)
  else
    -- nil exactly when the line is past the last one
    match b.eol line with
    | none => b.endPos
    | some e => (line, clampCol i e)

/-- The text of a line at a clamped position, which is always in the text. -/
def textAt (b : Buffer) (line : Int) : Bytes := (b.lineAt line).getD []

/-- The string between two subsequent positions. -/
def select (b : Buffer) (line1 i1 line2 : Int) (i2 : Option Int) : Bytes :=
  let p1 := b.clampPos line1 (some i1)
  let p2 := b.clampPos line2 i2
  if p1.1 = p2.1 then sub (b.textAt p1.1) p1.2 (p2.2 - 1)
  else
    subFrom (b.textAt p1.1) p1.2 ++
      ((b.lines.take (p2.1 - 1).toNat).drop p1.1.toNat).flatten ++
      sub (b.textAt p2.1) 1 (p2.2 - 1)

/-- `select(line)`: the contents of a line without the line terminator.  The
second line number defaults to the clamped first one. -/
def selectLine (b : Buffer) (line : Int) : Bytes :=
  let p1 := b.clampPos line (some 1)
  let p2 := b.clampPos p1.1 none
  sub (b.textAt p1.1) p1.2 (p2.2 - 1)

/-! ## Line-level editing -/

/-- Add the line terminator to the line before an appended one. -/
def terminateLine (line : Int) : Program Buffer Unit := do
  let b ← get
  match b.lineAt line with
  | none => throw .nilConcat
  | some s => upd line (s ++ b.lineTerminator)

def insertLine (line : Int) (s : Bytes) : Program Buffer Unit := do
  let b ← get
  (if line ≤ b.lines.length then ins line (addTerm s b.lineTerminator)
    else do
      (if 1 < line then terminateLine (line - 1) else pure ())
      ins line (removeTerm s))
  modify invalidate

def removeLine (line : Int) : Program Buffer Unit := do
  rem line
  let b ← get
  (if (b.lines.length : Int) = line - 1 then
      upd (line - 1) (b.selectLine (line - 1))
    else pure ())
  modify invalidate

def setline (line : Int) (s : Bytes) : Program Buffer Unit := do
  let b ← get
  upd line <|
    if line = b.lines.length then removeTerm s
    else addTerm s b.lineTerminator
  modify invalidate

/-- Switch two lines with one another. -/
def moveLine (line1 line2 : Int) : Program Buffer Unit := do
  let b ← get
  match b.lineAt line1, b.lineAt line2 with
  | some s1, some s2 =>
      setline line1 s2
      setline line2 s1
  | _, _ => pure ()

/-! ## Character-level editing -/

/-- The loop of `extend` that appends lines; the fuel is the number of lines
that are missing. -/
def appendLines (line : Int) : ℕ → Program Buffer Unit
  | 0 => pure ()
  | fuel + 1 => do
      let b ← get
      if line > b.lines.length then
        insertLine (b.lines.length + 1) []
        appendLines line fuel
      else pure ()

/-- Extend the buffer up to `(line, i-1)` with whitespace. -/
def extend (line i : Int) : Program Buffer Unit := do
  let line := if line < 1 then 1 else line
  let b ← get
  appendLines line (line - b.lines.length).toNat
  let b ← get
  let i := if i < 1 then 1 else i
  match b.eol line with
  | none => throw .nilArith
  | some eol =>
      if i > eol then
        setline line (b.selectLine line ++ rep [SPACE] (i - eol))
      else pure ()

/-- The rest of the loop of `insert`: the remaining lines are inserted below,
and the number of the last one is returned. -/
def insertLines (line : Int) : List Bytes → Program Buffer Int
  | [] => pure line
  | s :: rest => do
      insertLine (line + 1) s
      insertLines (line + 1) rest

/-- The loop of `insert`: the first line replaces the current one. -/
def setLines (line : Int) : List Bytes → Program Buffer Int
  | [] => pure line
  | first :: rest => do
      setline line first
      insertLines line rest

/-- Insert a multi-line string at a position, returning the position after its
last character.  If the position is outside the text, the buffer is
extended. -/
def insert (line i : Int) (s : Bytes) : Program Buffer (Int × Int) := do
  extend line i
  let b ← get
  let s0 := b.selectLine line
  let s1 := sub s0 1 (i - 1)
  let s2 := subFrom s0 i
  let line ← setLines line (lineStrings (s1 ++ s ++ s2))
  let b ← get
  match b.eol line with
  | none => throw .nilArith
  | some eol => return (line, eol - s2.length)

/-- The loop of `remove` over the lines `line + n`, ..., `line + 1`. -/
def removeLines (line : Int) : ℕ → Program Buffer Unit
  | 0 => pure ()
  | n + 1 => do
      removeLine (line + (n + 1))
      removeLines line n

/-- Remove the string between two positions. -/
def remove (line1 i1 line2 i2 : Int) : Program Buffer Unit := do
  let b ← get
  let p1 := b.clampPos line1 (some i1)
  let p2 := b.clampPos line2 (some i2)
  let s1 := sub (b.textAt p1.1) 1 (p1.2 - 1)
  let s2 := subFrom (b.textAt p2.1) p2.2
  removeLines p1.1 (p2.1 - p1.1).toNat
  setline p1.1 (s1 ++ s2)

/-! ## Indentation -/

def nextNonspaceChar (b : Buffer) (line : Int) :
    Except Error (Option Int) :=
  match b.lineAt line with
  | none => .ok none
  | some s => Str.nextNonspaceChar s 0

/-- Is the position before the first non-space character of its line? -/
def indenting (b : Buffer) (line i : Int) : Except Error Bool := do
  match ← b.nextNonspaceChar line with
  | none => return true
  | some nsi => return i ≤ nsi

/-- The indent of a line, up to the position `i`. -/
def selectIndent (b : Buffer) (line i : Int) :
    Except Error (Option Bytes) := do
  let nsi ← b.nextNonspaceChar line
  match nsi.or (b.eol line) with
  -- the minimum of a number and nil
  | none => throw .nilArith
  | some nsi =>
      return (b.lineAt line).map fun s => sub s 1 (min i nsi - 1)

end Buffer

/-! ## Public edits -/

/-- A call of one of the methods that edit the text. -/
inductive Edit
  | insertLine (line : Int) (s : Bytes)
  | removeLine (line : Int)
  | setline (line : Int) (s : Bytes)
  | moveLine (line1 line2 : Int)
  | extend (line i : Int)
  | insert (line i : Int) (s : Bytes)
  | remove (line1 i1 line2 i2 : Int)
  deriving DecidableEq, Repr

def Edit.call : Edit → Program Buffer Unit
  | .insertLine line s => Buffer.insertLine line s
  | .removeLine line => Buffer.removeLine line
  | .setline line s => Buffer.setline line s
  | .moveLine line1 line2 => Buffer.moveLine line1 line2
  | .extend line i => Buffer.extend line i
  | .insert line i s => do
      let _ ← Buffer.insert line i s
  | .remove line1 i1 line2 i2 => Buffer.remove line1 i1 line2 i2

end LuaAttic.Codedit
