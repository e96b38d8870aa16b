import Mathlib.Algebra.Order.Monoid.WithTop
import LuaAttic.Layerlib.Layers

/-!
# The lines of a flex layout (`layerlib_layout.t`)

The methods of flex layouts are generated twice, once for each axis.  The
iterator over the lines is asked for the line after index `i`, and is given the
start of the line before.  So the first line starts at the second item, and
every later item starts a line.
-/

namespace LuaAttic.Layerlib

open LuaAttic.Support LuaAttic.Terra

/-- A layer with a flex layout and the children that it lays out. -/
structure FlexLayer where
  layer : Layer
  flex : FlexLayout
  items : List Layer

namespace FlexLayer

variable (self : FlexLayer) (g : Geometry) (ax : Axis)

def childCount : Int := self.items.length

/-- `self:child(i)` -/
def child (i : Int) : Option Layer :=
  if 0 ≤ i then self.items[i.toNat]? else none

/-- The visible ones of the items with the given indices. -/
def visibleAt (indices : List Int) : List Layer :=
  (indices.filterMap self.child).filter Layer.visible

/-! ## Iterating over the lines -/

/-- The last index of the line that starts at `first`; the loop is at index
`j`, the items up to it take up `lineW`, an integer variable. -/
def lineEnd (wrapW : ℚ) (first : Int) : Int → Int → List Layer → Int
  | j, _, [] => j - 1
  | j, lineW, layer :: rest =>
      if layer.visible then
        if first < j ∧ layer.breakBefore then j - 1
        else if layer.breakAfter then j
        else
          let itemW := (g layer.id ax).minSize
          if wrapW < lineW + itemW then j - 1
          else lineEnd wrapW first (j + 1) (toInt (lineW + itemW)) rest
      else lineEnd wrapW first (j + 1) lineW rest

/-- `linewrap_next`: the end and the start of the line after index `i`. -/
def linewrapNext (i : Int) : Int × Int :=
  let i := i + 1
  if self.childCount ≤ i then (-1, -1)
  else if self.flex.wrap = false then (self.childCount - 1, i)
  else
    (lineEnd g ax (g.content self.layer ax) i i 0 (self.items.drop i.toNat), i)

/-- The loop of `for i, j in linewrap{self}` from index `i` on. -/
def linewrapFrom : ℕ → Int → List (Int × Int)
  | 0, _ => []
  | fuel + 1, i =>
      let (j, i) := self.linewrapNext g ax i
      if j = -1 then [(i, j)] else (i, j) :: linewrapFrom fuel i

/-- What the body of `for i, j in linewrap{self}` is run with.  It is also run
with the pair that ends the loop. -/
def linewrap : List (Int × Int) :=
  self.linewrapFrom g ax (self.items.length + 1) 0

/-! ## The lines that are visited -/

theorem lineEnd_bounds (wrapW : ℚ) (first j lineW : Int) (rest : List Layer) :
    j - 1 ≤ lineEnd g ax wrapW first j lineW rest ∧
      lineEnd g ax wrapW first j lineW rest < j + rest.length := by
  induction rest generalizing j lineW with
  | nil =>
      simp only [lineEnd, List.length_nil]
      omega
  | cons layer rest ih =>
      have hnext (w : Int) := ih (j + 1) w
      simp only [lineEnd, List.length_cons, Nat.cast_add, Nat.cast_one]
      split_ifs
      · omega
      · omega
      · omega
      · have := hnext (toInt (lineW + (g layer.id ax).minSize))
        omega
      · have := hnext lineW
        omega

/-- The line that starts at an index. -/
def line (i : Int) : Int × Int := (i, (self.linewrapNext g ax (i - 1)).1)

section Next

variable {self g ax} {i : Int}

theorem linewrapNext_of_le (h : self.childCount ≤ i + 1) :
    self.linewrapNext g ax i = (-1, -1) :=
  if_pos h

variable (g ax) in
/-- After an index that is not the last one there is a line, and it starts at
the next index. -/
theorem linewrapNext_of_lt (hi : 0 ≤ i) (h : i + 1 < self.childCount) :
    (self.linewrapNext g ax i).2 = i + 1 ∧
      i ≤ (self.linewrapNext g ax i).1 ∧
      (self.linewrapNext g ax i).1 < self.childCount := by
  rw [linewrapNext]
  rw [if_neg (not_le.mpr h)]
  split_ifs
  · exact ⟨rfl, by dsimp only; omega, by dsimp only; omega⟩
  · have hdrop : (((self.items.drop (i + 1).toNat).length : ℕ) : Int) =
        self.childCount - (i + 1) := by
      simp only [childCount] at h
      rw [List.length_drop, childCount]
      omega
    have hbounds := lineEnd_bounds g ax (g.content self.layer ax) (i + 1) (i + 1)
      0 (self.items.drop (i + 1).toNat)
    rw [hdrop] at hbounds
    exact ⟨rfl, by dsimp only; omega, by dsimp only; omega⟩

end Next

theorem linewrapFrom_eq {fuel : ℕ} {i : Int} (hi : 0 ≤ i)
    (hfuel : self.childCount < i + 1 + fuel) :
    self.linewrapFrom g ax (fuel + 1) i =
      (forRange (i + 1) self.childCount).map (self.line g ax) ++ [(-1, -1)] := by
  -- By induction on the fuel; every line moves the index on by one.
  induction fuel generalizing i with
  | zero =>
      have hle : self.childCount ≤ i + 1 := by omega
      rw [linewrapFrom, linewrapNext_of_le hle, forRange_of_le hle]
      rfl
  | succ fuel ih =>
      by_cases hlt : i + 1 < self.childCount
      · obtain ⟨hstart, hle, -⟩ := linewrapNext_of_lt g ax hi hlt
        have hline : self.line g ax (i + 1) =
            (i + 1, (self.linewrapNext g ax i).1) := by
          rw [line, add_sub_cancel_right]
        rw [linewrapFrom, forRange_cons hlt, List.map_cons, hline,
          List.cons_append, ← ih (i := i + 1) (by omega) (by omega)]
        simp only [hstart]
        rw [if_neg (by omega)]
      · rw [linewrapFrom, linewrapNext_of_le (not_lt.mp hlt),
          forRange_of_le (not_lt.mp hlt)]
        rfl

theorem linewrap_eq :
    self.linewrap g ax =
      (forRange 1 self.childCount).map (self.line g ax) ++ [(-1, -1)] :=
  self.linewrapFrom_eq g ax le_rfl (by simp only [childCount]; omega)

theorem fst_of_mem_lines {p : Int × Int}
    (h : p ∈ (forRange 1 self.childCount).map (self.line g ax)) : 1 ≤ p.1 := by
  obtain ⟨i, hi, rfl⟩ := List.mem_map.mp h
  exact (mem_forRange.mp hi).1

end FlexLayer

/-! ## Lines that cover the items -/

/-- How the second index of a line is read.  The loops over a line stop before
it; the iterator takes it to be the last index. -/
inductive LastIndex
  | excluded
  | included

def LastIndex.range : LastIndex → Int × Int → List Int
  | excluded, (i, j) => forRange i j
  | included, (i, j) => forRange i (j + 1)

theorem LastIndex.le_of_mem_range {e : LastIndex} {p : Int × Int} {k : Int}
    (h : k ∈ e.range p) : p.1 ≤ k := by
  cases e <;> exact (mem_forRange.mp h).1

namespace FlexLayer

/-- The iteration ends, and its lines are consecutive and contain every item;
the visible items of a line fit into the content width, unless there is only
one; and breaks are at the ends of lines. -/
structure Wraps (self : FlexLayer) (g : Geometry) (ax : Axis) (e : LastIndex)
    (lines : List (Int × Int)) : Prop where
  ends : self.linewrap g ax = lines ++ [(-1, -1)]
  covers : lines.flatMap e.range = forRange 0 self.childCount
  fits : ∀ p ∈ lines,
    ((self.visibleAt (e.range p)).map fun item => (g item.id ax).minSize).sum ≤
        g.content self.layer ax ∨
      (self.visibleAt (e.range p)).length = 1
  breaks : ∀ p ∈ lines, ∀ k ∈ e.range p, ∀ item ∈ self.child k,
    (item.breakAfter → ∀ k' ∈ e.range p, k' ≤ k) ∧
      (item.breakBefore → ∀ k' ∈ e.range p, k ≤ k')

/-- The lines are as they should be only if there is nothing to wrap: the first
item is in no line. -/
theorem wraps_iff (self : FlexLayer) (g : Geometry) (ax : Axis) (e : LastIndex) :
    (∃ lines, self.Wraps g ax e lines) ↔ self.items = [] := by
  constructor
  · rintro ⟨lines, hends, hcovers, -, -⟩
    rw [linewrap_eq] at hends
    obtain rfl := List.append_cancel_right hends
    by_contra hne
    have hpos := List.length_pos_of_ne_nil hne
    have hfirst : 0 ∈ forRange 0 self.childCount :=
      mem_forRange.mpr ⟨le_rfl, by simp only [childCount]; omega⟩
    rw [← hcovers] at hfirst
    obtain ⟨p, hp, hmem⟩ := List.mem_flatMap.mp hfirst
    have hstart := self.fst_of_mem_lines g ax hp
    have hle := LastIndex.le_of_mem_range hmem
    omega
  · intro hnil
    have hcount : self.childCount = 0 := by simp [childCount, hnil]
    refine ⟨[], ?_, ?_, by simp, by simp⟩
    · rw [linewrap_eq, hcount, forRange_of_le (by omega)]
      rfl
    · rw [hcount, forRange_of_le le_rfl]
      rfl

/-- A layer with one item of half its width. -/
def oneItem : FlexLayer where
  layer := ⟨0, true, fun _ => ⟨0, 0, 0, false⟩, false, false, none⟩
  flex := ⟨.x, true, fun _ => 0, fun _ => 0⟩
  items := [⟨1, true, fun _ => ⟨0, 0, 0, false⟩, false, false, none⟩]

/-- A single item is in no line, however the last index of a line is read. -/
theorem oneItem_not_wraps :
    oneItem.linewrap (fun _ _ => ⟨0, 20, 10⟩) .x = [(-1, -1)] ∧
      ∀ e, ¬ ∃ lines, oneItem.Wraps (fun _ _ => ⟨0, 20, 10⟩) .x e lines := by
  have hlines : oneItem.linewrap (fun _ _ => ⟨0, 20, 10⟩) .x = [(-1, -1)] := rfl
  refine ⟨hlines, ?_⟩
  rintro e ⟨lines, hends, hcovers, -, -⟩
  obtain rfl : lines = [] := by simpa [hlines] using hends.symm
  cases hcovers

end FlexLayer

/-!
## Sizing and aligning the items of a flex layout (`layerlib_layout.t`)

These are the methods that are generated for each axis; `ax` is the axis that
they are generated for, and `ax.other` the one across.  On the axis along the
items nothing is written yet: setting the positions is left to do in the
source.  Across, the items of every line get a position.
-/

/-- `align_metrics`: the start offset and the spacing, both kept in integer
variables. -/
def alignMetrics (tr : AlignEnum) (align : ℕ) (containerW itemsW : ℚ)
    (itemCount : Int) : Int × Int :=
  if align = tr.atEnd ∨ align = tr.right then
    (toInt (containerW - itemsW), 0)
  else if align = tr.center then
    (toInt ((containerW - itemsW) / 2), 0)
  else if align = tr.spaceEvenly then
    let spacing := toInt ((containerW - itemsW) / (itemCount + 1))
    (spacing, spacing)
  else if align = tr.spaceAround then
    let spacing := toInt ((containerW - itemsW) / itemCount)
    (spacing.tdiv 2, spacing)
  else if align = tr.spaceBetween then
    (0, toInt ((containerW - itemsW) / (itemCount - 1)))
  else (0, 0)

namespace FlexLayer

variable (tr : AlignEnum) (self : FlexLayer) (ax : Axis) (g : Geometry)

/-- The visible items of a loop `for i = i, j`. -/
def slice (i j : Int) : List Layer := self.visibleAt (forRange i j)

/-- `items_sum_x` -/
def itemsSum (i j : Int) : ℚ × Int :=
  (self.slice i j).foldl
    (fun (sumW, itemCount) item =>
      (sumW + (g item.id ax).minSize, itemCount + 1)) (0, 0)

/-- `items_max_x` -/
def itemsMax (i j : Int) : ℚ × Int :=
  (self.slice i j).foldl
    (fun (maxW, itemCount) item =>
      (max maxW (g item.id ax).minSize, itemCount + 1)) (0, 0)

/-- `items_min_h_baseline`, with minus infinity for no visible item. -/
def itemsMinHBaseline (i j : Int) : WithBot ℚ :=
  let (maxAscent, maxDescent) := (self.slice i j).foldl
    (fun (maxAscent, maxDescent) item =>
      let baseline := g.baseline item
      (max maxAscent baseline,
        max maxDescent ((g item.id .y).minSize - baseline : ℚ)))
    ((⊥ : WithBot ℚ), (⊥ : WithBot ℚ))
  maxAscent + maxDescent

/-- The height that `items_min_h` returns; without baseline alignment it is
`items_max_x`. -/
def itemsMinH (alignBaseline : Bool) (i j : Int) : WithBot ℚ :=
  if alignBaseline then self.itemsMinHBaseline g i j
  else (self.itemsMax ax g i j).1

/-- `flex_min_cw_x` -/
def flexMinCw : ℚ :=
  if self.flex.wrap then (self.itemsMax ax g 0 self.childCount).1
  else (self.itemsSum ax g 0 self.childCount).1

/-- `flex_min_ch_x` -/
def flexMinCh (otherAxisSynced alignBaseline : Bool) : WithBot ℚ :=
  if ¬ otherAxisSynced ∧ self.flex.wrap then 0
  else
    (self.linewrap g ax).foldl
      (fun linesH (i, j) => linesH + self.itemsMinH ax g alignBaseline i j) 0

/-- `flex_sync_x_x`: the aligned positions are not stored. -/
def flexSyncX (_self : FlexLayer) (g : Geometry) : Geometry × Bool := (g, true)

/-- The position across of an item in its line. -/
def itemPos (item : Layer) (lineY lineH lineBaseline : ℚ) : ℚ :=
  -- the source combines the two alignments with a bitwise or
  let align := (item.side ax.other).align ||| self.flex.itemAlign ax.other
  let itemH := (g item.id ax.other).minSize
  if align = tr.stretch then lineY
  else if align = tr.top ∨ align = tr.start then lineY
  else if align = tr.bottom ∨ align = tr.atEnd then lineY + lineH - itemH
  else if align = tr.center then lineY + (lineH - itemH) / 2
  else lineBaseline - g.baseline item

/-- `align_items_y` -/
def alignItemsY (i j : Int) (lineY lineH lineBaseline : ℚ) : Geometry :=
  (self.slice i j).foldl
    (fun g item =>
      g.setPos item.id ax.other
        (snapPos (self.itemPos tr ax g item lineY lineH lineBaseline)
          (self.layer.side ax.other).snap)) g

/-- The start of the lines and the space between them. -/
def linesMetrics : Int × Int :=
  let align := self.flex.alignItems ax.other
  if align = tr.stretch then (0, 0)
  else if align = tr.top ∨ align = tr.start then (0, 0)
  else
    let (linesH, lineCount) := (self.linewrap g ax).foldl
      (fun (linesH, lineCount) (i, j) =>
        (linesH + (self.itemsMax ax g i j).1, lineCount + 1)) ((0 : ℚ), (0 : Int))
    alignMetrics tr align (g.content self.layer ax.other) linesH lineCount

/-- `flex_sync_y_x` without baseline alignment, as all of its callers that are
in a solver ask for.  The height of the lines that it begins with is a number
or not initialised, and taken not to be NaN; then it is computed anew for each
line. -/
def flexSyncY (otherAxisSynced : Bool) : Geometry × Bool :=
  if ¬ otherAxisSynced ∧ self.flex.wrap then (g, false)
  else
    let (linesY, lineSpacing) := self.linesMetrics tr ax g
    let (g, _) := (self.linewrap g ax).foldl
      (fun (g, (y : ℚ)) (i, j) =>
        let (lineH, lineBaseline) := self.itemsMax ax g i j
        (self.alignItemsY tr ax g i j y lineH lineBaseline,
          y + lineH + lineSpacing)) (g, (linesY : ℚ))
    (g, true)

/-- The axis across is solved unless its lines have to wait for the other
axis. -/
theorem flexSyncY_snd (otherAxisSynced : Bool) :
    (self.flexSyncY tr ax g otherAxisSynced).2 =
      (otherAxisSynced || !self.flex.wrap) := by
  rw [flexSyncY]
  cases otherAxisSynced <;> cases self.flex.wrap <;> rfl

end FlexLayer

end LuaAttic.Layerlib
