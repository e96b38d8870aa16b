import LuaAttic.Layerlib.BoolBitmap

/-!
# Positioning the children of a grid (`layerlib_layout.t`)

Children with an explicit position are placed first; they may make the grid
larger.  Then the other ones are placed one after the other on cells that are
not occupied, by a cursor that runs along the main axis and wraps to the next
line.  At last the order of rows and of columns may be reversed.
-/

namespace LuaAttic.Layerlib

open LuaAttic.Support LuaAttic.Terra

/-- The place of a layer in a grid. -/
structure CellRect where
  row : Int
  col : Int
  rowSpan : Int
  colSpan : Int
  deriving DecidableEq, Repr

/-- The fields of a layer that its place in a grid depends on. -/
structure GridChild where
  visible : Bool
  /-- `grid_row`, `grid_col`, `grid_row_span`, `grid_col_span` -/
  grid : CellRect
  /-- `_grid_row`, `_grid_col`, `_grid_row_span`, `_grid_col_span` -/
  cell : CellRect
  deriving DecidableEq, Repr

structure GridLayout where
  flow : ℕ
  wrap : Int
  minLines : Int
  /-- `_flip_rows` -/
  flipRows : Bool
  /-- `_flip_cols` -/
  flipCols : Bool
  /-- `_max_row` -/
  maxRow : Int
  /-- `_max_col` -/
  maxCol : Int
  deriving DecidableEq, Repr

/-! ## The flags of a flow -/

def gridFlowY : ℕ := 2

def gridFlowR : ℕ := 4

def gridFlowB : ℕ := 8

def GridLayout.colFirst (grid : GridLayout) : Bool :=
  grid.flow &&& gridFlowY == 0

def maxint : Int := 2 ^ 31 - 1

def clipSpan (row1 col1 rowSpan colSpan maxRow maxCol : Int) : CellRect :=
  let row2 := row1 + rowSpan - 1
  let col2 := col1 + colSpan - 1
  -- clip the span to grid boundaries
  let row1 := clamp row1 1 maxRow
  let col1 := clamp col1 1 maxCol
  let row2 := clamp row2 1 maxRow
  let col2 := clamp col2 1 maxCol
  -- support negative spans
  let (row1, row2) := if row2 < row1 then (row2, row1) else (row1, row2)
  let (col1, col2) := if col2 < col1 then (col2, col1) else (col1, col2)
  ⟨row1, col1, row2 - row1 + 1, col2 - col1 + 1⟩

/-- The variables of the positioning algorithm. -/
structure Autopos (A : ArrOps Bool) where
  occupied : BoolBitmap A
  maxRow : Int
  maxCol : Int
  missingIndices : Bool
  negativeIndices : Bool

variable {A : ArrOps Bool}

/-- Mark the cells of a place. -/
def Autopos.occupy (s : Autopos A) (cell : CellRect) : Autopos A :=
  { s with
    occupied := s.occupied.mark cell.row cell.col cell.rowSpan cell.colSpan true }

/-- Run a loop that updates its variables and the layers. -/
def forLayers {σ : Type} (f : σ → GridChild → σ × GridChild) :
    σ → List GridChild → σ × List GridChild
  | s, [] => (s, [])
  | s, layer :: layers =>
      let (s, layer) := f s layer
      let (s, layers) := forLayers f s layers
      (s, layer :: layers)

/-- Position explicitly-positioned layers, and grow the grid bounds to include
them. -/
def placeExplicit (colFirst : Bool) (s : Autopos A) (layer : GridChild) :
    Autopos A × GridChild :=
  if layer.visible then
    let row := layer.grid.row
    let col := layer.grid.col
    let rowSpan := max 1 layer.grid.rowSpan
    let colSpan := max 1 layer.grid.colSpan
    if row ≠ 0 ∨ col ≠ 0 then
      let row := max 1 row
      let col := max 1 col
      if 0 < row ∧ 0 < col then
        let cell := clipSpan row col rowSpan colSpan maxint maxint
        ({ s.occupy cell with
            maxRow := max s.maxRow (cell.row + cell.rowSpan - 1)
            maxCol := max s.maxCol (cell.col + cell.colSpan - 1) },
          { layer with cell := cell })
      else
        ({ s with negativeIndices := true },
          { layer with cell := ⟨row, col, rowSpan, colSpan⟩ })
    else
      let rowSpan := |rowSpan|
      let colSpan := |colSpan|
      -- grow the grid bounds on the main axis to fit the widest layer
      ({ s with
          maxCol := if colFirst then max s.maxCol colSpan else s.maxCol
          maxRow := if colFirst then s.maxRow else max s.maxRow rowSpan
          missingIndices := true },
        { layer with cell := ⟨row, col, rowSpan, colSpan⟩ })
  else (s, layer)

/-- Position explicitly-positioned layers with negative indices, clipped to the
grid bounds. -/
def placeNegative (s : Autopos A) (layer : GridChild) :
    Autopos A × GridChild :=
  if layer.visible then
    let row := layer.cell.row
    let col := layer.cell.col
    if row < 0 ∨ col < 0 then
      let row := if row < 0 then s.maxRow + row + 1 else row
      let col := if col < 0 then s.maxCol + col + 1 else col
      let cell := clipSpan row col layer.cell.rowSpan layer.cell.colSpan s.maxRow
        s.maxCol
      (s.occupy cell, { layer with cell := cell })
    else (s, layer)
  else (s, layer)

/-- Check for wrapping of the cursor. -/
def Autopos.wrapCursor (colFirst : Bool) (s : Autopos A)
    (row col rowSpan colSpan : Int) : Int × Int :=
  if colFirst ∧ s.maxCol < col + colSpan - 1 then (row + 1, 1)
  else if ¬ colFirst ∧ s.maxRow < row + rowSpan - 1 then (1, col + 1)
  else (row, col)

/-- Advance the cursor until the cells of a span are not occupied. -/
def Autopos.search (colFirst : Bool) (s : Autopos A) (rowSpan colSpan : Int) :
    ℕ → Int → Int → Option (Int × Int)
  | 0, _, _ => none
  | fuel + 1, row, col =>
      let (row, col) := s.wrapCursor colFirst row col rowSpan colSpan
      if s.occupied.check row col rowSpan colSpan then
        if colFirst then s.search colFirst rowSpan colSpan fuel row (col + 1)
        else s.search colFirst rowSpan colSpan fuel (row + 1) col
      else some (row, col)

/-- Auto-wrap layers with missing explicit indices over non-occupied cells. -/
def placeMissing (fuel : ℕ) (colFirst : Bool) (s : Autopos A) (row col : Int) :
    List GridChild → Option (Autopos A × List GridChild)
  | [] => some (s, [])
  | layer :: layers =>
      if layer.visible ∧ layer.cell.row = 0 then do
        let rowSpan := layer.cell.rowSpan
        let colSpan := layer.cell.colSpan
        let (row, col) ← s.search colFirst rowSpan colSpan fuel row col
        let cell : CellRect := ⟨row, col, rowSpan, colSpan⟩
        -- grow the grid bounds on the cross axis
        let s := { s.occupy cell with
          maxRow := if colFirst then max s.maxRow (row + rowSpan - 1) else s.maxRow
          maxCol := if colFirst then s.maxCol else max s.maxCol (col + colSpan - 1) }
        -- advance the cursor to right after the span, without wrapping
        let (row, col) :=
          if colFirst then (row, col + colSpan) else (row + rowSpan, col)
        let (s, layers) ← placeMissing fuel colFirst s row col layers
        return (s, { layer with cell := cell } :: layers)
      else do
        let (s, layers) ← placeMissing fuel colFirst s row col layers
        return (s, layer :: layers)

/-- Reverse the order of rows or of columns. -/
def Autopos.flip (s : Autopos A) (flipRows flipCols : Bool) (layer : GridChild) :
    GridChild :=
  if layer.visible then
    { layer with
      cell := { layer.cell with
        row := if flipRows then s.maxRow - layer.cell.row - layer.cell.rowSpan + 2
          else layer.cell.row
        col := if flipCols then s.maxCol - layer.cell.col - layer.cell.colSpan + 2
          else layer.cell.col } }
  else layer

/-- The variables before any layer is positioned. -/
def GridLayout.autopos (grid : GridLayout) (occupied : BoolBitmap A) :
    Autopos A where
  occupied := occupied.clear
  maxRow := if grid.colFirst then grid.minLines else max 1 grid.wrap
  maxCol := if grid.colFirst then max 1 grid.wrap else grid.minLines
  missingIndices := false
  negativeIndices := false

/-- The positions before rows and columns are reversed. -/
def GridLayout.placeLayers (fuel : ℕ) (grid : GridLayout)
    (occupied : BoolBitmap A) (layers : List GridChild) :
    Option (Autopos A × List GridChild) :=
  let (s, layers) :=
    forLayers (placeExplicit grid.colFirst) (grid.autopos occupied) layers
  let (s, layers) :=
    if s.negativeIndices then forLayers placeNegative s layers else (s, layers)
  if s.missingIndices then placeMissing fuel grid.colFirst s 1 1 layers
  else some (s, layers)

/-- `sync_layout_grid_autopos`; the search of each layer may take `fuel`
steps. -/
def GridLayout.syncAutopos (fuel : ℕ) (grid : GridLayout)
    (occupied : BoolBitmap A) (layers : List GridChild) :
    Option (GridLayout × List GridChild) := do
  let flipCols := grid.flow &&& gridFlowR != 0
  let flipRows := grid.flow &&& gridFlowB != 0
  let (s, layers) ← grid.placeLayers fuel occupied layers
  let layers :=
    if flipRows || flipCols then layers.map (s.flip flipRows flipCols) else layers
  return ({ grid with
    flipRows := flipRows
    flipCols := flipCols
    maxRow := s.maxRow
    maxCol := s.maxCol }, layers)

end LuaAttic.Layerlib
