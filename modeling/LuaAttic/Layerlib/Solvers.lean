import LuaAttic.Layerlib.Linewrap

/-!
# The layout solvers (`layerlib_layout.t`)

Every layout type has a solver: a table of functions that a layer is laid out
by.  The functions call those of the children, so the solver of a layer is made
from its settings and the solvers of its children.  An assertion that fails
makes a function return nothing.

The layout of text is left out.  What a grid computes from its columns is left
open: the size it needs, and where it puts its children.
-/

namespace LuaAttic.Layerlib

/-! ## Solvers -/

/-- The functions of a solver for one axis after the other. -/
structure AxisSolver where
  syncMinW : Bool → Geometry → Option (Geometry × ℚ)
  syncMinH : Bool → Geometry → Option (Geometry × ℚ)
  syncX : Bool → Geometry → Option (Geometry × Bool)
  syncY : Bool → Geometry → Option (Geometry × Bool)

def AxisSolver.syncMin (s : AxisSolver) :
    Axis → Bool → Geometry → Option (Geometry × ℚ)
  | .x => s.syncMinW
  | .y => s.syncMinH

def AxisSolver.syncLayout (s : AxisSolver) :
    Axis → Bool → Geometry → Option (Geometry × Bool)
  | .x => s.syncX
  | .y => s.syncY

structure LayoutSolver extends AxisSolver where
  sync : Geometry → Option Geometry

/-- A child of a layer, with its solver. -/
structure Child where
  layer : Layer
  solver : LayoutSolver

/-- `for layer in self do if layer.visible then .. end end` -/
def forVisible (children : List Child)
    (f : Child → Geometry → Option Geometry) (g : Geometry) : Option Geometry :=
  (children.filter fun child => child.layer.visible).foldlM
    (fun g child => f child g) g

/-- `sync_layout_children` -/
def syncLayoutChildren (children : List Child) (g : Geometry) : Option Geometry :=
  children.foldlM (fun g child => child.solver.sync g) g

/-! ## One axis after the other -/

/-- The phases that are left of `sync_layout_separate_axes`, the next one on the
given axis.  After the last phase the assertion has failed. -/
def syncPhases (self : Layer) (s : AxisSolver) :
    ℕ → Axis → Bool → Geometry → Option Geometry
  | 0, _, _, _ => none
  | phases + 1, ax, otherAxisSynced, g => do
      let (g, minSize) ← s.syncMin ax otherAxisSynced g
      let (g, axisSynced) ←
        s.syncLayout ax otherAxisSynced (g.setSize self.id ax minSize)
      if axisSynced && otherAxisSynced then some g
      else syncPhases self s phases ax.other axisSynced g

/-- `sync_layout_separate_axes` with the axis order of the solver, which is
always `AXIS_ORDER_XY`, and no minimum sizes. -/
def syncLayoutSeparateAxes (self : Layer) (s : AxisSolver) (g : Geometry) :
    Option Geometry :=
  if self.visible then syncPhases self s 3 .x false g else some g

/-! ## Null layout -/

section Null

variable (self : Layer) (children : List Child)

/-- Snap the position and the size on an axis. -/
def snapExtent (ax : Axis) (g : Geometry) : Geometry :=
  let (x, w) := snapSpan (g self.id ax).pos (g self.id ax).size (self.side ax).snap
  (g.setPos self.id ax x).setSize self.id ax w

def nullSync (g : Geometry) : Option Geometry :=
  if self.visible then
    syncLayoutChildren children (snapExtent self .y (snapExtent self .x g))
  else some g

/-- `null_sync_min_w`, `null_sync_min_h` -/
def nullSyncMin (ax : Axis) (g : Geometry) : Geometry × ℚ :=
  let side := self.side ax
  let minSize := snapUp (side.minContent + side.padding) side.snap
  (g.setMinSize self.id ax minSize, minSize)

def nullSyncX (otherAxisSynced : Bool) (g : Geometry) : Option (Geometry × Bool) := do
  let g ← if otherAxisSynced then nullSync self children g else some g
  return (g, true)

def nullLayout : LayoutSolver where
  sync := nullSync self children
  syncMinW := fun _ g => some (nullSyncMin self .x g)
  syncMinH := fun _ g => some (nullSyncMin self .y g)
  syncX := nullSyncX self children
  syncY := nullSyncX self children

end Null

/-! ## Flex layout -/

section Flex

variable (tr : AlignEnum) (self : Layer) (flex : FlexLayout)
  (children : List Child)

/-- The layer as the generated methods see it. -/
def flexLayer : FlexLayer := ⟨self, flex, children.map Child.layer⟩

/-- Store a minimum size, computed from the size that the content needs. -/
def storeMinSize (ax : Axis) (minContent : WithBot ℚ) (g : Geometry) : Geometry × ℚ :=
  let side := self.side ax
  let minSize := (max minContent side.minContent).unbotD 0 + side.padding
  (g.setMinSize self.id ax minSize, minSize)

def flexSyncMinW (otherAxisSynced : Bool) (g : Geometry) : Option (Geometry × ℚ) := do
  let g ← forVisible children
    (fun child g => (child.solver.syncMinW otherAxisSynced g).map Prod.fst) g
  let items := flexLayer self flex children
  let minCw := match flex.flow with
    | .x => (items.flexMinCw .x g : WithBot ℚ)
    | .y => items.flexMinCh .y g otherAxisSynced false
  return storeMinSize self .x minCw g

def flexSyncMinH (otherAxisSynced : Bool) (g : Geometry) : Option (Geometry × ℚ) := do
  let alignBaseline :=
    decide (flex.flow = .x ∧ flex.itemAlign .y = tr.baseline)
  let g ← forVisible children
    (fun child g => do
      let (g, itemH) ← child.solver.syncMinH otherAxisSynced g
      if alignBaseline then
        let h := snapPos itemH (self.side .y).snap
        let (g, _) ← child.solver.syncY otherAxisSynced
          (g.setSize child.layer.id .y h)
        return g
      else return g) g
  let items := flexLayer self flex children
  let minCh := match flex.flow with
    | .x => items.flexMinCh .x g otherAxisSynced alignBaseline
    | .y => (items.flexMinCw .y g : WithBot ℚ)
  return storeMinSize self .y minCh g

def flexSyncX (otherAxisSynced : Bool) (g : Geometry) : Option (Geometry × Bool) := do
  let items := flexLayer self flex children
  let (g, synced) := match flex.flow with
    | .x => items.flexSyncX g
    | .y => items.flexSyncY tr .y g otherAxisSynced
  if synced then
    let g ← forVisible children
      (fun child g => (child.solver.syncX otherAxisSynced g).map Prod.fst) g
    return (g, synced)
  else return (g, synced)

/-- The functions of the flex layout.  The one for the y-axis is that for the
x-axis, as in the source; `flex_sync_y` is not used. -/
def flexAxes : AxisSolver where
  syncMinW := flexSyncMinW self flex children
  syncMinH := flexSyncMinH tr self flex children
  syncX := flexSyncX tr self flex children
  syncY := flexSyncX tr self flex children

def flexLayout : LayoutSolver where
  toAxisSolver := flexAxes tr self flex children
  sync := syncLayoutSeparateAxes self (flexAxes tr self flex children)

end Flex

/-! ## Grid layout -/

/-- What grids compute from their columns and rows. -/
structure GridColumns where
  minSize : Layer → List Layer → Axis → Geometry → ℚ
  place : Layer → List Layer → Axis → Geometry → Geometry

section Grid

variable (columns : GridColumns) (self : Layer) (children : List Child)

/-- `grid_sync_min_w`, `grid_sync_min_h` -/
def gridSyncMin (ax : Axis) (otherAxisSynced : Bool) (g : Geometry) :
    Option (Geometry × ℚ) := do
  let g ← forVisible children
    (fun child g => (child.solver.syncMin ax otherAxisSynced g).map Prod.fst) g
  let minSize := columns.minSize self (children.map Child.layer) ax g
  return (g.setMinSize self.id ax minSize, minSize)

def gridSyncX (otherAxisSynced : Bool) (g : Geometry) : Option (Geometry × Bool) := do
  let g ← forVisible children
    (fun child g => (child.solver.syncX otherAxisSynced g).map Prod.fst)
    (columns.place self (children.map Child.layer) .x g)
  return (g, true)

/-- The functions of the grid layout, the one for the x-axis used for both. -/
def gridAxes : AxisSolver where
  syncMinW := gridSyncMin columns self children .x
  syncMinH := gridSyncMin columns self children .y
  syncX := gridSyncX columns self children
  syncY := gridSyncX columns self children

def gridLayout : LayoutSolver where
  toAxisSolver := gridAxes columns self children
  sync := syncLayoutSeparateAxes self (gridAxes columns self children)

end Grid

/-! ## The solver of a tree -/

section Tree

variable (tr : AlignEnum) (columns : GridColumns)

/-- The solver of a layer with the given layout. -/
def layoutSolver (self : Layer) (layout : Layout) (children : List Child) :
    LayoutSolver :=
  match layout with
  | .null => nullLayout self children
  | .flex flex => flexLayout tr self flex children
  | .grid => gridLayout columns self children

mutual

def LayerTree.solver : LayerTree → LayoutSolver
  | .node layer layout children =>
      layoutSolver tr columns layer layout (solvers children)

def solvers : List LayerTree → List Child
  | [] => []
  | t :: ts => ⟨t.layer, t.solver⟩ :: solvers ts

end

/-- `sync_layout` -/
def LayerTree.syncLayout (t : LayerTree) (g : Geometry) : Option Geometry :=
  (t.solver tr columns).sync g

end Tree

/-! ### Parameters to try the model with -/

def alignEnum : AlignEnum := ⟨1, 2, 3, 4⟩

/-- For trees without grids. -/
def noColumns : GridColumns := ⟨fun _ _ _ _ => 0, fun _ _ _ g => g⟩

end LuaAttic.Layerlib
