import Mathlib.Algebra.Order.Floor.Ring
import Mathlib.Data.Rat.Floor
import Mathlib.Logic.Function.Basic
import LuaAttic.Terra.Basic

/-!
# Layers and their geometry

The settings of a layer stay as they are while it is laid out; its position,
size and minimum size on each axis are what the layout computes.  Numbers are
exact.  The layers of a tree have ids, and the geometry is kept by id.
-/

namespace LuaAttic.Layerlib

/-! ## Axes and alignments -/

inductive Axis
  | x
  | y
  deriving DecidableEq, Repr

def Axis.other : Axis → Axis
  | .x => .y
  | .y => .x

@[simp] theorem Axis.other_other (ax : Axis) : ax.other.other = ax := by
  cases ax <;> rfl

/-- The constants that the text renderer gives to the alignments. -/
structure AlignEnum where
  left : ℕ
  right : ℕ
  center : ℕ
  /-- `tr.ALIGN_MAX` -/
  max : ℕ

namespace AlignEnum

variable (tr : AlignEnum)

/-- `ALIGN_TOP`, the same as `ALIGN_LEFT`. -/
def top : ℕ := tr.left

/-- `ALIGN_BOTTOM`, the same as `ALIGN_RIGHT`. -/
def bottom : ℕ := tr.right

def stretch : ℕ := tr.max + 1

def start : ℕ := tr.max + 2

/-- `ALIGN_END` -/
def atEnd : ℕ := tr.max + 3

def spaceEvenly : ℕ := tr.max + 4

def spaceAround : ℕ := tr.max + 5

def spaceBetween : ℕ := tr.max + 6

def baseline : ℕ := tr.max + 7

end AlignEnum

/-! ## Settings -/

structure FlexLayout where
  /-- `flow`: the axis that the items are put along -/
  flow : Axis
  wrap : Bool
  /-- `align_items_x`, `align_items_y` -/
  alignItems : Axis → ℕ
  /-- `item_align_x`, `item_align_y` -/
  itemAlign : Axis → ℕ

/-- The layout type of a layer, with the settings of its type; those of a grid
are left to the parameters that stand for its columns. -/
inductive Layout
  | null
  | flex (flex : FlexLayout)
  | grid

/-- The settings of a layer on one axis. -/
structure Side where
  /-- `pw`, `ph`: the padding on both sides -/
  padding : ℚ
  /-- `min_cw`, `min_ch` -/
  minContent : ℚ
  /-- `align_x`, `align_y` -/
  align : ℕ
  /-- `snap_x`, `snap_y` -/
  snap : Bool
  deriving DecidableEq

structure Layer where
  id : ℕ
  visible : Bool
  side : Axis → Side
  breakBefore : Bool
  breakAfter : Bool
  /-- the baseline of the text, for a layer with a visible text -/
  textBaseline : Option ℚ

/-- A layer with its layout and its children. -/
inductive LayerTree
  | node (layer : Layer) (layout : Layout) (children : List LayerTree)

namespace LayerTree

def layer : LayerTree → Layer
  | node layer _ _ => layer

def layout : LayerTree → Layout
  | node _ layout _ => layout

def children : LayerTree → List LayerTree
  | node _ _ children => children

mutual

/-- The layers of a tree, each with the tree below it. -/
def nodes : LayerTree → List LayerTree
  | node layer layout children => node layer layout children :: nodesAll children

def nodesAll : List LayerTree → List LayerTree
  | [] => []
  | t :: ts => t.nodes ++ nodesAll ts

end

/-- The ids of the layers of a tree. -/
def ids (t : LayerTree) : List ℕ := t.nodes.map fun n => n.layer.id

/-- Induction over a tree. -/
theorem induction {P : LayerTree → Prop}
    (h : ∀ layer layout children, (∀ c ∈ children, P c) →
      P (node layer layout children)) : ∀ t, P t :=
  go
where
  go : ∀ t, P t
    | node layer layout children => h layer layout children (goAll children)
  goAll : ∀ ts : List LayerTree, ∀ c ∈ ts, P c
    | [], _, hc => absurd hc List.not_mem_nil
    | t :: ts, c, hc =>
        (List.mem_cons.mp hc).elim (fun heq => heq ▸ go t) (goAll ts c)

theorem nodesAll_eq (ts : List LayerTree) : nodesAll ts = ts.flatMap nodes := by
  induction ts with
  | nil => rfl
  | cons t ts ih => rw [nodesAll, ih, List.flatMap_cons]

theorem mem_nodes_iff {layer : Layer} {layout : Layout}
    {children : List LayerTree} {n : LayerTree} :
    n ∈ (node layer layout children).nodes ↔
      n = node layer layout children ∨ ∃ c ∈ children, n ∈ c.nodes := by
  rw [nodes, nodesAll_eq, List.mem_cons, List.mem_flatMap]

theorem self_mem_nodes (t : LayerTree) : t ∈ t.nodes := by
  cases t
  exact List.mem_cons_self

theorem forall_nodes_iff {P : LayerTree → Prop} {layer : Layer} {layout : Layout}
    {children : List LayerTree} :
    (∀ n ∈ (node layer layout children).nodes, P n) ↔
      P (node layer layout children) ∧ ∀ c ∈ children, ∀ n ∈ c.nodes, P n := by
  simp only [mem_nodes_iff]
  constructor
  · intro h
    exact ⟨h _ (Or.inl rfl), fun c hc n hn => h n (Or.inr ⟨c, hc, hn⟩)⟩
  · rintro ⟨hself, hchildren⟩ n (rfl | ⟨c, hc, hn⟩)
    · exact hself
    · exact hchildren c hc n hn

end LayerTree

/-! ## Geometry -/

/-- What is computed of a layer on one axis. -/
structure Extent where
  /-- `x`, `y` -/
  pos : ℚ
  /-- `w`, `h` -/
  size : ℚ
  /-- `_min_w`, `_min_h` -/
  minSize : ℚ
  deriving DecidableEq

/-- The geometry of the layers, by id. -/
abbrev Geometry := ℕ → Axis → Extent

namespace Geometry

/-- Change what is computed of a layer on one axis. -/
def modify (g : Geometry) (id : ℕ) (ax : Axis) (f : Extent → Extent) : Geometry :=
  fun i a => if i = id ∧ a = ax then f (g i a) else g i a

def setPos (g : Geometry) (id : ℕ) (ax : Axis) (v : ℚ) : Geometry :=
  g.modify id ax fun e => { e with pos := v }

def setSize (g : Geometry) (id : ℕ) (ax : Axis) (v : ℚ) : Geometry :=
  g.modify id ax fun e => { e with size := v }

def setMinSize (g : Geometry) (id : ℕ) (ax : Axis) (v : ℚ) : Geometry :=
  g.modify id ax fun e => { e with minSize := v }

@[simp] theorem modify_self (g : Geometry) (id : ℕ) (ax : Axis)
    (f : Extent → Extent) : g.modify id ax f id ax = f (g id ax) :=
  if_pos ⟨rfl, rfl⟩

theorem modify_of_id_ne {g : Geometry} {id i : ℕ} (h : i ≠ id) (ax : Axis)
    (f : Extent → Extent) : g.modify id ax f i = g i := by
  funext a
  exact if_neg fun hi => h hi.1

theorem modify_of_axis_ne {g : Geometry} {ax a : Axis} (h : a ≠ ax) (id i : ℕ)
    (f : Extent → Extent) : g.modify id ax f i a = g i a :=
  if_neg fun hi => h hi.2

@[simp] theorem minSize_setPos (g : Geometry) (id : ℕ) (ax : Axis) (v : ℚ)
    (i : ℕ) (a : Axis) : (g.setPos id ax v i a).minSize = (g i a).minSize := by
  simp only [setPos, modify]
  split_ifs <;> rfl

@[simp] theorem minSize_setSize (g : Geometry) (id : ℕ) (ax : Axis) (v : ℚ)
    (i : ℕ) (a : Axis) : (g.setSize id ax v i a).minSize = (g i a).minSize := by
  simp only [setSize, modify]
  split_ifs <;> rfl

@[simp] theorem setMinSize_self (g : Geometry) (id : ℕ) (ax : Axis) (v : ℚ) :
    (g.setMinSize id ax v id ax).minSize = v := by
  simp [setMinSize]

/-- `cw`, `ch`: the size less the padding. -/
def content (g : Geometry) (layer : Layer) (ax : Axis) : ℚ :=
  (g layer.id ax).size - (layer.side ax).padding

/-- `baseline`: the height of a layer without a visible text. -/
def baseline (g : Geometry) (layer : Layer) : ℚ :=
  layer.textBaseline.getD (g layer.id .y).size

end Geometry

/-! ## Numbers -/

/-- A number stored in an integer variable. -/
def toInt (q : ℚ) : Int := if 0 ≤ q then ⌊q⌋ else ⌈q⌉

def snapUp (x : ℚ) (enable : Bool) : ℚ := if enable then ⌈x⌉ else x

/-- `snapx` -/
def snapPos (x : ℚ) (enable : Bool) : ℚ := if enable then ⌊x + 1 / 2⌋ else x

/-- `snap_xw` -/
def snapSpan (x w : ℚ) (enable : Bool) : ℚ × ℚ :=
  if enable then
    let x1 := ⌊x + 1 / 2⌋
    let x2 := ⌊x + w + 1 / 2⌋
    (x1, x2 - x1)
  else (x, w)

end LuaAttic.Layerlib
