import Mathlib.Logic.Function.Basic
import Mathlib.Data.List.ProdSigma
import LuaAttic.Lua.Pattern

/-!
# The game (`sokoban.lua`)

A level is a grid of tiles and boxes; a move pushes at most one crate, and
the states before it are kept on a stack.
-/

namespace LuaAttic.Sokoban

open LuaAttic.Lua

/-! ## Tables of columns -/

/-- `t[x][y]`: a column can be missing, and in it a cell can be nil. -/
abbrev Grid (α : Type) := ℤ → Option (ℤ → Option α)

variable {α : Type}

/-- `t[x][y]` -/
def Grid.get (t : Grid α) (x y : ℤ) : Except Error (Option α) := do
  let column ← nonNil .nilIndex (t x)
  return column y

/-- `t[x][y] = v` -/
def Grid.set (t : Grid α) (x y : ℤ) (v : Option α) : Except Error (Grid α) := do
  let column ← nonNil .nilIndex (t x)
  return Function.update t x (some (Function.update column y v))

/-- `t[x] = t[x] or {}` -/
def Grid.addColumn (t : Grid α) (x : ℤ) : Grid α :=
  Function.update t x (some ((t x).getD fun _ => none))

/-! ## Levels -/

/-- `([^\r\n]*)\r?\n` -/
def linePattern : Pattern where
  items := [.capStart, .star fun b => b ≠ 13 && b ≠ 10, .capStop, .opt (· = 13),
    .one (· = 10)]

/-- `level_tiles(n)` -/
def levelTiles (levels : List Bytes) (n : ℕ) : Except Error (List (ℤ × ℤ × UInt8)) := do
  let s ← nonNil .assertionFailed (if n = 0 then none else levels[n - 1]?)
  let lines := (gmatch linePattern s).map fun values => values.headD []
  return (lines.mapIdx fun y line =>
    line.mapIdx fun x c => ((x + 1 : ℤ), (y + 1 : ℤ), c)).flatten

/-- `'O'` or `'X'` -/
inductive Tile
  | place
  | start
  deriving DecidableEq, Repr

/-- `'#'` or `'*'` -/
inductive Box
  | crate
  | wall
  deriving DecidableEq, Repr

/-- `{crates = .., x = .., y = ..}` -/
structure State where
  crates : List ℤ
  x : ℤ
  y : ℤ
  deriving DecidableEq, Repr

/-- The variables of the game. -/
structure Game where
  level : ℕ
  sizex : ℕ := 0
  sizey : ℕ := 0
  tiles : Grid Tile := fun _ => none
  crateCount : ℕ := 0
  boxes : Grid Box := fun _ => none
  pl : ℤ × ℤ
  moves : ℕ := 0
  undoStack : List State := []
  redoStack : List State := []
  changed : Bool := false

/-- What a level is loaded into; there may be no player yet. -/
structure Loading where
  sizex : ℕ := 0
  sizey : ℕ := 0
  tiles : Grid Tile := fun _ => none
  crateCount : ℕ := 0
  placeCount : ℕ := 0
  boxes : Grid Box := fun _ => none
  pl : Option (ℤ × ℤ) := none

def tileOf (c : UInt8) : Option Tile :=
  if c = 79 then some .place else if c = 88 then some .start else none

def boxOf (c : UInt8) : Option Box :=
  if c = 42 then some .wall else if c = 35 then some .crate else none

/-- `if c == 'x' or c == 'X' then .. pl.x, pl.y = x, y end` -/
def Loading.putPlayer (l : Loading) (x y : ℤ) (c : UInt8) : Except Error Loading :=
  if c = 120 ∨ c = 88 then
    if l.pl = none then .ok { l with pl := some (x, y) } else .error .assertionFailed
  else .ok l

/-- `if c == 'O' or c == 'X' then tiles[x][y] = c end` -/
def Loading.putTile (l : Loading) (x y : ℤ) (c : UInt8) : Except Error Loading :=
  if c = 79 ∨ c = 88 then do
    let tiles ← l.tiles.set x y (tileOf c)
    return { l with tiles := tiles }
  else .ok l

/-- `if c == '*' or c == '#' then boxes[x][y] = c end` -/
def Loading.putBox (l : Loading) (x y : ℤ) (c : UInt8) : Except Error Loading :=
  if c = 42 ∨ c = 35 then do
    let boxes ← l.boxes.set x y (boxOf c)
    return { l with boxes := boxes }
  else .ok l

/-- The sizes and counts with a tile more, and its column. -/
def Loading.count (l : Loading) (x y : ℤ) (c : UInt8) : Loading :=
  { l with
    sizex := max x.toNat l.sizex
    sizey := max y.toNat l.sizey
    placeCount := if c = 79 ∨ c = 88 then l.placeCount + 1 else l.placeCount
    crateCount :=
      if c = 79 ∨ c = 88 then l.crateCount
      else if c = 35 then l.crateCount + 1 else l.crateCount
    tiles := l.tiles.addColumn x
    boxes := l.boxes.addColumn x }

/-- One tile of the level. -/
def Loading.tile (l : Loading) (x y : ℤ) (c : UInt8) : Except Error Loading := do
  let l ← (l.count x y c).putPlayer x y c
  let l ← l.putTile x y c
  l.putBox x y c

/-- `load_level(wanted_level)` -/
def loadLevel (levels : List Bytes) (wanted : ℤ) : Except Error Game := do
  let level := (min (max wanted 1) levels.length).toNat
  let tiles ← levelTiles levels level
  let l ← tiles.foldlM (fun l t => l.tile t.1 t.2.1 t.2.2) ({} : Loading)
  let pl ← nonNil .assertionFailed l.pl
  if l.crateCount ≠ l.placeCount then throw .assertionFailed
  return { level, sizex := l.sizex, sizey := l.sizey, tiles := l.tiles,
           crateCount := l.crateCount, boxes := l.boxes, pl, changed := true }

/-! ## States -/

/-- The cells in the order in which they are visited. -/
def Game.cells (g : Game) : List (ℤ × ℤ) :=
  ((List.range' 1 g.sizex).product (List.range' 1 g.sizey)).map fun c => (c.1, c.2)

/-- `pack_crates()` -/
def Game.packCrates (g : Game) : Except Error (List ℤ) := do
  let ts ← g.cells.mapM fun c => do
    let box ← g.boxes.get c.1 c.2
    return if box = some .crate then [c.1, c.2] else []
  return ts.flatten

/-- A cell that has a crate is made empty. -/
def clearCell (boxes : Grid Box) (c : ℤ × ℤ) : Except Error (Grid Box) := do
  let box ← boxes.get c.1 c.2
  if box = some .crate then boxes.set c.1 c.2 none else return boxes

/-- `for i=1,#t,2 do local x, y = t[i], t[i+1]; boxes[x][y] = '#' end` -/
def putCrates : List ℤ → Grid Box → Except Error (Grid Box)
  | x :: y :: t, boxes => do
      let boxes ← boxes.set x y (some .crate)
      putCrates t boxes
  | [_], _ => .error .nilIndex
  | [], boxes => .ok boxes

/-- `unpack_crates(t)` -/
def Game.unpackCrates (g : Game) (t : List ℤ) : Except Error Game := do
  let boxes ← g.cells.foldlM clearCell g.boxes
  let boxes ← putCrates t boxes
  return { g with boxes := boxes }

/-- `get_state()` -/
def Game.getState (g : Game) : Except Error State := do
  let crates ← g.packCrates
  return ⟨crates, g.pl.1, g.pl.2⟩

/-- `set_state(state)` -/
def Game.setState (g : Game) (state : State) : Except Error Game := do
  let g ← g.unpackCrates state.crates
  return { g with pl := (state.x, state.y), changed := true }

/-- `push_state()` -/
def Game.pushState (g : Game) : Except Error Game := do
  let state ← g.getState
  return { g with undoStack := g.undoStack ++ [state], redoStack := [] }

/-- `moved()` -/
def Game.moved (g : Game) : Game := { g with changed := true, moves := g.moves + 1 }

/-- `undo()` -/
def Game.undo (g : Game) : Except Error Game := do
  match g.undoStack.getLast? with
  | none => return g
  | some state => do
      let here ← g.getState
      let g ← { g with
        redoStack := g.redoStack ++ [here]
        undoStack := g.undoStack.dropLast }.setState state
      return g.moved

/-- `redo()` -/
def Game.redo (g : Game) : Except Error Game := do
  match g.redoStack.getLast? with
  | none => return g
  | some state => do
      let here ← g.getState
      let g ← { g with
        undoStack := g.undoStack ++ [here]
        redoStack := g.redoStack.dropLast }.setState state
      return g.moved

/-! ## Moves -/

/-- `move_delta(dx, dy)`, with what it returns. -/
def Game.moveDelta (g : Game) (dx dy : ℤ) : Except Error (Game × Option Bool) := do
  let x := g.pl.1 + dx
  let y := g.pl.2 + dy
  match ← g.boxes.get x y with
  | none => do
      let g ← g.pushState
      return ({ g with pl := (x, y) }.moved, none)
  | some .wall => return (g, none)
  | some .crate => do
      let x2 := if dx ≠ 0 then x + dx else x
      let y2 := if dy ≠ 0 then y + dy else y
      match ← g.boxes.get x2 y2 with
      | some _ => return (g, none)
      | none => do
          let g ← g.pushState
          let boxes ← g.boxes.set x y none
          let boxes ← boxes.set x2 y2 (some .crate)
          let onto ← g.tiles.get x2 y2
          let tile ← g.tiles.get x y
          return ({ g with pl := (x, y), boxes := boxes }.moved,
            some (tile ≠ some .place && onto = some .place))

/-- The directions of `move`. -/
inductive Dir
  | down
  | up
  | left
  | right
  deriving DecidableEq, Repr

def Dir.delta : Dir → ℤ × ℤ
  | .down => (0, 1)
  | .up => (0, -1)
  | .left => (-1, 0)
  | .right => (1, 0)

/-- `move(dir)` -/
def Game.move (g : Game) (dir : Dir) : Except Error (Game × Option Bool) :=
  g.moveDelta dir.delta.1 dir.delta.2

/-- `crates_remaining()` -/
def Game.cratesRemaining (g : Game) : Except Error ℤ :=
  g.cells.foldlM
    (fun count c => do
      let tile ← g.tiles.get c.1 c.2
      if tile = some .place then
        let box ← g.boxes.get c.1 c.2
        return if box = some .crate then count - 1 else count
      else return count)
    (g.crateCount : ℤ)

/-- What a player can do. -/
inductive Command
  | move (dir : Dir)
  | undo
  | redo
  deriving DecidableEq, Repr

def Game.exec (g : Game) : Command → Except Error Game
  | .move dir => do
      let (g, _) ← g.move dir
      return g
  | .undo => g.undo
  | .redo => g.redo

def Game.run (g : Game) (commands : List Command) : Except Error Game :=
  commands.foldlM Game.exec g

end LuaAttic.Sokoban
