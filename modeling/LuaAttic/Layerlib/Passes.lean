import LuaAttic.Layerlib.Solvers

/-!
# The passes over a tree without wrapping

Without grids, wrapping and baseline alignment no assertion fails, and each
function of a solver is a pass over the tree that only changes the geometry:
one that computes the minimum sizes on an axis, one that answers a request to
solve an axis, and `sync_layout` itself, which is made of them.
-/

namespace LuaAttic.Layerlib

/-! ## The passes -/

/-- The layers of a list that are visited by a loop over the visible ones. -/
def visibleOnes (ts : List LayerTree) : List LayerTree :=
  ts.filter fun t => t.layer.visible

namespace FlexLayer

variable (self : FlexLayer) (ax : Axis) (g : Geometry)

/-- The size that the lines need across, one after the other. -/
def linesMin : ℚ :=
  (self.linewrap g ax).foldl
    (fun linesH (i, j) => linesH + (self.itemsMax ax g i j).1) 0

/-- The size that the items need on an axis without wrapping: all of them along
the flow, and the lines, of items measured along the flow, across. -/
def contentMin : ℚ :=
  if self.flex.flow = ax then (self.itemsSum ax g 0 self.childCount).1
  else self.linesMin ax.other g

end FlexLayer

def flexOf (layer : Layer) (flex : FlexLayout) (children : List LayerTree) :
    FlexLayer :=
  ⟨layer, flex, children.map LayerTree.layer⟩

mutual

/-- Compute the minimum sizes on an axis. -/
def LayerTree.minPass (ax : Axis) : LayerTree → Geometry → Geometry
  | .node layer .null _, g => (nullSyncMin layer ax g).1
  | .node layer (.flex flex) children, g =>
      let g := minPassAll ax children g
      (storeMinSize layer ax ((flexOf layer flex children).contentMin ax g) g).1
  | .node _ .grid _, g => g

def minPassAll (ax : Axis) : List LayerTree → Geometry → Geometry
  | [], g => g
  | t :: ts, g => minPassAll ax ts (if t.layer.visible then t.minPass ax g else g)

end

section Passes

variable (tr : AlignEnum)

/-- Set the positions of the items across the flow, which is only done when the
flow is along the y-axis. -/
def flexPlace (layer : Layer) (flex : FlexLayout) (children : List LayerTree)
    (otherAxisSynced : Bool) (g : Geometry) : Geometry :=
  match flex.flow with
  | .x => g
  | .y => ((flexOf layer flex children).flexSyncY tr .y g otherAxisSynced).1

/-- Store the minimum size as the size. -/
def useMinSize (layer : Layer) (ax : Axis) (g : Geometry) : Geometry :=
  g.setSize layer.id ax (g layer.id ax).minSize

mutual

/-- Solve an axis; only asked for the second one, null layers lay out
themselves. -/
def LayerTree.axisPass (otherAxisSynced : Bool) : LayerTree → Geometry → Geometry
  | .node layer .null children, g =>
      if otherAxisSynced ∧ layer.visible then
        layPassAll children (snapExtent layer .y (snapExtent layer .x g))
      else g
  | .node layer (.flex flex) children, g =>
      axisPassAll otherAxisSynced children
        (flexPlace tr layer flex children otherAxisSynced g)
  | .node _ .grid _, g => g

def axisPassAll (otherAxisSynced : Bool) : List LayerTree → Geometry → Geometry
  | [], g => g
  | t :: ts, g =>
      axisPassAll otherAxisSynced ts
        (if t.layer.visible then t.axisPass otherAxisSynced g else g)

/-- Lay out a layer. -/
def LayerTree.layPass : LayerTree → Geometry → Geometry
  | .node layer .null children, g =>
      if layer.visible then
        layPassAll children (snapExtent layer .y (snapExtent layer .x g))
      else g
  | .node layer (.flex flex) children, g =>
      if layer.visible then
        let t := LayerTree.node layer (.flex flex) children
        let g := useMinSize layer .x (t.minPass .x g)
        let g := axisPassAll false children (flexPlace tr layer flex children false g)
        let g := useMinSize layer .y (t.minPass .y g)
        axisPassAll true children (flexPlace tr layer flex children true g)
      else g
  | .node _ .grid _, g => g

def layPassAll : List LayerTree → Geometry → Geometry
  | [], g => g
  | t :: ts, g => layPassAll ts (t.layPass g)

end

/-! ## What a pass does at a layer -/

theorem minPass_null (layer : Layer) (children : List LayerTree) (ax : Axis)
    (g : Geometry) :
    (LayerTree.node layer .null children).minPass ax g =
      g.modify layer.id ax fun e =>
        { e with
          minSize :=
            snapUp ((layer.side ax).minContent + (layer.side ax).padding)
              (layer.side ax).snap } := rfl

theorem minPass_flex (layer : Layer) (flex : FlexLayout)
    (children : List LayerTree) (ax : Axis) (g : Geometry) :
    (LayerTree.node layer (.flex flex) children).minPass ax g =
      (minPassAll ax children g).modify layer.id ax fun e =>
        { e with
          minSize :=
            max ((flexOf layer flex children).contentMin ax (minPassAll ax children g))
                (layer.side ax).minContent +
              (layer.side ax).padding } := rfl

/-! ## Loops over the children -/

theorem minPassAll_eq (ax : Axis) (ts : List LayerTree) (g : Geometry) :
    minPassAll ax ts g =
      (visibleOnes ts).foldl (fun g t => t.minPass ax g) g := by
  induction ts generalizing g with
  | nil => rfl
  | cons t ts ih =>
      rw [minPassAll, ih, visibleOnes, visibleOnes, List.filter_cons]
      split_ifs <;> rfl

theorem axisPassAll_eq (b : Bool) (ts : List LayerTree) (g : Geometry) :
    axisPassAll tr b ts g =
      (visibleOnes ts).foldl (fun g t => t.axisPass tr b g) g := by
  induction ts generalizing g with
  | nil => rfl
  | cons t ts ih =>
      rw [axisPassAll, ih, visibleOnes, visibleOnes, List.filter_cons]
      split_ifs <;> rfl

theorem layPassAll_eq (ts : List LayerTree) (g : Geometry) :
    layPassAll tr ts g = ts.foldl (fun g t => t.layPass tr g) g := by
  induction ts generalizing g with
  | nil => rfl
  | cons t ts ih => rw [layPassAll, ih, List.foldl_cons]

end Passes

/-! ## The solvers run the passes -/

/-- Null and flex layouts without wrapping and baseline alignment. -/
def Layout.Direct (tr : AlignEnum) : Layout → Prop
  | .null => True
  | .flex f => f.wrap = false ∧ ∀ ax, f.itemAlign ax ≠ tr.baseline
  | .grid => False

/-- All layouts in a tree are null or flex layouts, without wrapping and
baseline alignment. -/
def LayerTree.Direct (tr : AlignEnum) (t : LayerTree) : Prop :=
  ∀ n ∈ t.nodes, n.layout.Direct tr

section Runs

variable (tr : AlignEnum) (columns : GridColumns)

/-- The functions of a solver do what the passes do. -/
structure LayerTree.Runs (t : LayerTree) : Prop where
  syncMin : ∀ ax b g, (t.solver tr columns).syncMin ax b g =
    some (t.minPass ax g, (t.minPass ax g t.layer.id ax).minSize)
  syncLayout : ∀ ax b g, (t.solver tr columns).syncLayout ax b g =
    some (t.axisPass tr b g, true)
  sync : ∀ g, (t.solver tr columns).sync g = some (t.layPass tr g)

theorem foldlM_eq_some {α β : Type*} {f : β → α → Option β} {F : β → α → β}
    {l : List α} (h : ∀ a ∈ l, ∀ b, f b a = some (F b a)) (b : β) :
    l.foldlM f b = some (l.foldl F b) := by
  induction l generalizing b with
  | nil => rfl
  | cons a l ih =>
      rw [List.foldlM_cons, h a List.mem_cons_self]
      exact ih (fun a ha => h a (List.mem_cons_of_mem _ ha)) _

theorem solvers_eq (ts : List LayerTree) :
    solvers tr columns ts = ts.map fun t => ⟨t.layer, t.solver tr columns⟩ := by
  induction ts with
  | nil => rfl
  | cons t ts ih => rw [solvers, ih, List.map_cons]

theorem syncLayoutChildren_eq {ts : List LayerTree}
    (h : ∀ t ∈ ts, t.Runs tr columns) (g : Geometry) :
    syncLayoutChildren (solvers tr columns ts) g = some (layPassAll tr ts g) := by
  rw [syncLayoutChildren, solvers_eq, List.foldlM_map, layPassAll_eq]
  exact foldlM_eq_some (fun t ht g => (h t ht).sync g) g

theorem forVisible_eq {ts : List LayerTree} {f : Child → Geometry → Option Geometry}
    {F : Geometry → LayerTree → Geometry}
    (h : ∀ t ∈ ts, ∀ g, f ⟨t.layer, t.solver tr columns⟩ g = some (F g t))
    (g : Geometry) :
    forVisible (solvers tr columns ts) f g = some ((visibleOnes ts).foldl F g) := by
  rw [forVisible, solvers_eq, List.filter_map, List.foldlM_map]
  exact foldlM_eq_some (fun t ht g => h t (List.mem_of_mem_filter ht) g) g

section Node

variable {layer : Layer} {children : List LayerTree}
  (ih : ∀ c ∈ children, c.Runs tr columns)

include ih

theorem null_runs : (LayerTree.node layer .null children).Runs tr columns := by
  have hsync (g : Geometry) : nullSync layer (solvers tr columns children) g =
      some ((LayerTree.node layer .null children).layPass tr g) := by
    rw [nullSync, LayerTree.layPass, syncLayoutChildren_eq tr columns ih]
    split_ifs <;> rfl
  constructor
  · intro ax b g
    have hmin : ((nullSyncMin layer ax g).1 layer.id ax).minSize =
        (nullSyncMin layer ax g).2 := by simp [nullSyncMin]
    cases ax <;>
      simp only [LayerTree.solver, layoutSolver, nullLayout, AxisSolver.syncMin,
        LayerTree.minPass, LayerTree.layer, hmin]
  · intro ax b g
    have hsyncX : nullSyncX layer (solvers tr columns children) b g =
        some ((LayerTree.node layer .null children).axisPass tr b g, true) := by
      rw [nullSyncX, hsync, LayerTree.axisPass, LayerTree.layPass]
      cases b <;> simp
    cases ax <;> exact hsyncX
  · exact hsync

section Flex

variable {flex : FlexLayout}

omit ih in
theorem flexLayer_eq :
    flexLayer layer flex (solvers tr columns children) =
      flexOf layer flex children := by
  rw [flexLayer, flexOf, solvers_eq, List.map_map]
  rfl

theorem flexSyncX_run (hwrap : flex.wrap = false) (b : Bool) (g : Geometry) :
    flexSyncX tr layer flex (solvers tr columns children) b g =
      some ((LayerTree.node layer (.flex flex) children).axisPass tr b g, true) := by
  have hloop (g : Geometry) := forVisible_eq tr columns
    (f := fun c g => (c.solver.syncX b g).map Prod.fst)
    (F := fun g t => t.axisPass tr b g) (fun t ht g => by
      have hrun := (ih t ht).syncLayout .x b g
      rw [AxisSolver.syncLayout] at hrun
      simp [hrun]) g
  rw [LayerTree.axisPass, axisPassAll_eq, flexPlace]
  cases hflow : flex.flow with
  | x => simp [flexSyncX, hflow, FlexLayer.flexSyncX, hloop]
  | y =>
      have hsnd := FlexLayer.flexSyncY_snd tr (flexOf layer flex children) .y g b
      rw [show (flexOf layer flex children).flex.wrap = false from hwrap,
        Bool.not_false, Bool.or_true] at hsnd
      simp [flexSyncX, hflow, flexLayer_eq, hsnd, hloop]

omit ih in
theorem flexMinCh_eq (items : FlexLayer) (hwrap : items.flex.wrap = false)
    (ax : Axis) (g : Geometry) (b : Bool) :
    items.flexMinCh ax g b false = (items.linesMin ax g : ℚ) := by
  have hsum (l : List (Int × Int)) (q : ℚ) :
      l.foldl (fun linesH (i, j) => linesH + items.itemsMinH ax g false i j)
          (q : WithBot ℚ) =
        (l.foldl (fun linesH (i, j) => linesH + (items.itemsMax ax g i j).1) q :
          ℚ) := by
    induction l generalizing q with
    | nil => rfl
    | cons p l ih => exact ih (q + (items.itemsMax ax g p.1 p.2).1)
  rw [FlexLayer.flexMinCh, if_neg (by simp [hwrap]), FlexLayer.linesMin]
  exact hsum _ 0

theorem flexSyncMin_run (hdirect : (Layout.flex flex).Direct tr) (ax : Axis)
    (b : Bool) (g : Geometry) :
    (flexAxes tr layer flex (solvers tr columns children)).syncMin ax b g =
      some (storeMinSize layer ax ((flexOf layer flex children).contentMin ax
        (minPassAll ax children g)) (minPassAll ax children g)) := by
  obtain ⟨hwrap, hbaseline⟩ := hdirect
  have hrun (ax : Axis) : ∀ t ∈ children, ∀ g,
      (t.solver tr columns).syncMin ax b g =
        some (t.minPass ax g, (t.minPass ax g t.layer.id ax).minSize) :=
    fun t ht g => (ih t ht).syncMin ax b g
  have hcw (ax : Axis) (g : Geometry) :
      (flexOf layer flex children).flexMinCw ax g =
        ((flexOf layer flex children).itemsSum ax g 0
          (flexOf layer flex children).childCount).1 :=
    if_neg (by simp [flexOf, hwrap])
  have hch (ax : Axis) (g : Geometry) :=
    flexMinCh_eq (flexOf layer flex children) hwrap ax g b
  have hcontent (ax : Axis) (g : Geometry) :
      (flexOf layer flex children).contentMin ax g =
        if flex.flow = ax then
          ((flexOf layer flex children).itemsSum ax g 0
            (flexOf layer flex children).childCount).1
        else (flexOf layer flex children).linesMin ax.other g := rfl
  cases ax with
  | x =>
      have hloop := forVisible_eq tr columns
        (f := fun c g => (c.solver.syncMinW b g).map Prod.fst)
        (F := fun g t => t.minPass .x g) (fun t ht g => by
          have h := hrun .x t ht g
          rw [AxisSolver.syncMin] at h
          simp [h]) g
      rw [← minPassAll_eq] at hloop
      cases hflow : flex.flow <;>
        simp [flexAxes, AxisSolver.syncMin, flexSyncMinW, hloop, flexLayer_eq,
          hcontent, hcw, hch, hflow, Axis.other]
  | y =>
      have hloop := forVisible_eq tr columns
        (f := fun c g => (c.solver.syncMinH b g).bind fun r => some r.1)
        (F := fun g t => t.minPass .y g) (fun t ht g => by
          have h := hrun .y t ht g
          rw [AxisSolver.syncMin] at h
          simp [h]) g
      rw [← minPassAll_eq] at hloop
      cases hflow : flex.flow <;>
        simp [flexAxes, AxisSolver.syncMin, flexSyncMinH, hbaseline, hloop,
          flexLayer_eq, hcontent, hcw, hch, hflow, Axis.other]

theorem flex_runs (hdirect : (Layout.flex flex).Direct tr) :
    (LayerTree.node layer (.flex flex) children).Runs tr columns := by
  have hmin (ax : Axis) (b : Bool) (g : Geometry) :
      (flexAxes tr layer flex (solvers tr columns children)).syncMin ax b g =
        some ((LayerTree.node layer (.flex flex) children).minPass ax g,
          ((LayerTree.node layer (.flex flex) children).minPass ax g
            layer.id ax).minSize) := by
    rw [flexSyncMin_run tr columns ih hdirect, LayerTree.minPass]
    simp [storeMinSize]
  have haxis (ax : Axis) (b : Bool) (g : Geometry) :
      (flexAxes tr layer flex (solvers tr columns children)).syncLayout ax b g =
        some ((LayerTree.node layer (.flex flex) children).axisPass tr b g, true) := by
    cases ax <;> exact flexSyncX_run tr columns ih hdirect.1 b g
  refine ⟨hmin, haxis, ?_⟩
  intro g
  rw [LayerTree.solver, layoutSolver, flexLayout]
  simp only [syncLayoutSeparateAxes, LayerTree.layPass]
  split_ifs
  · simp [syncPhases, hmin, haxis, Axis.other, LayerTree.axisPass, useMinSize]
  · rfl

end Flex

end Node

theorem LayerTree.runs {t : LayerTree} (h : t.Direct tr) : t.Runs tr columns := by
  induction t using LayerTree.induction with
  | h layer layout children ih =>
      rw [LayerTree.Direct, forall_nodes_iff] at h
      have hchildren (c : LayerTree) (hc : c ∈ children) : c.Runs tr columns :=
        ih c hc (h.2 c hc)
      cases layout with
      | null => exact null_runs tr columns hchildren
      | flex flex => exact flex_runs tr columns hchildren h.1
      | grid => exact absurd h.1 (by simp [Layout.Direct, LayerTree.layout])

end Runs

end LuaAttic.Layerlib
