import Mathlib.Algebra.Order.Floor.Ring
import LuaAttic.Layerlib.Stretch
import LuaAttic.Support.Fallible

/-!
# The columns of a grid (`layerlib_layout.t`)

The minimum widths of the columns, and the place of a child in the columns that
it spans.  The functions are generated for each axis; here are the words of the
first one.  Columns are counted from one where children are placed in them and
from zero where they are stored, and numeric loops leave out their limit, so the
children and the columns do not line up: the last column has no entry, and the
last column of a span gets nothing.

Giving the columns their positions is left to do in the source.
-/

namespace LuaAttic.Layerlib

open LuaAttic.Terra LuaAttic.Support LuaAttic.Support.Extended

namespace GridWidths

/-! ## Model -/

/-- A child, with its cells on the axis and its minimum width. -/
structure Item where
  inlayout : Bool
  /-- `_grid_col` -/
  col : Int
  colSpan : Int
  minW : ℚ
  /-- `align_x`, `align_y`; zero for the default -/
  align : ℕ

/-- The last of the columns that a child spans. -/
def Item.col2 (layer : Item) : Int := layer.col + layer.colSpan - 1

/-- `GridLayoutCol` -/
structure Col where
  x : ℚ
  w : ℚ
  fr : ℚ
  minW : Extended ℚ

/-- What is read of a grid layer. -/
structure Grid where
  /-- `cols`, `rows`: what is set for the columns -/
  fr : List ℚ
  gap : ℚ
  maxCol : Int
  itemAlign : ℕ
  /-- `_flip_cols`, `_flip_rows` -/
  flip : Bool
  snap : Bool
  minContent : ℚ
  padding : ℚ
  children : List Item

/-- `a:at(i)`, which needs an index in the array. -/
def colAt (cols : List Col) (i : Int) : Option Col :=
  if 0 ≤ i then cols[i.toNat]? else none

/-- `item._min_w = max(item._min_w, col_min_w)` for the item at an index. -/
def growCol (cols : List Col) (r : Int × Extended ℚ) : Option (List Col) :=
  (colAt cols r.1).map fun item =>
    cols.set r.1.toNat { item with minW := max item.minW r.2 }

namespace Grid

variable (self : Grid)

/-- The children in the layout. -/
def items : List Item := self.children.filter (·.inlayout)

/-- `fr(col, 1)` -/
def frOr (col : Int) : ℚ := listGet self.fr col 1

/-- `gap_col1` and `gap_col2`, both of which look at the last column. -/
def gapCol (col2 : Int) : ℚ :=
  if col2 = 1 ∧ col2 = self.maxCol then 0
  else if col2 = 1 ∨ col2 = self.maxCol then self.gap * (1 / 2)
  else self.gap

def spanFr (layer : Item) : Int :=
  (forRange layer.col layer.col2).foldl
    (fun (sum : Int) col => toInt (sum + self.frOr col)) 0

/-- `col_min_w` of a column of a child that spans more than one. -/
def spannedMinW (layer : Item) (col : Int) : Extended ℚ :=
  num (self.frOr col) / num (self.spanFr layer : ℚ) * num layer.minW +
    num (if col = layer.col then self.gapCol layer.col2 else 0) +
    num (if col = layer.col2 then self.gapCol layer.col2 else 0)

/-- The indices at which a child asks for a width, and the widths. -/
def requests (layer : Item) : List (Int × Extended ℚ) :=
  if layer.col = layer.col2 then
    [(layer.col,
      num (layer.minW + self.gapCol layer.col2 + self.gapCol layer.col2))]
  else
    (forRange layer.col layer.col2).map fun col => (col, self.spannedMinW layer col)

/-- The columns before any child.  Past its end `fr(col)` is what the array
library makes of it. -/
def newCols (beyond : ℚ) : List Col :=
  (forRange 0 self.maxCol).map fun col =>
    { x := 0, w := 0, fr := listGet self.fr col beyond, minW := num 0 }

/-- The columns after `sync_min_w`, if no index is out of range. -/
def syncCols (beyond : ℚ) : Option (List Col) :=
  (self.items.flatMap self.requests).foldlM growCol (self.newCols beyond)

/-- What `sync_min_w` returns; an infinite width has no value in the integer
variable that the widths are added up in. -/
def syncMinW (cols : List Col) : Option ℚ := do
  let minCw ← cols.foldlM
    (fun (minCw : Int) item =>
      match item.minW with
      | num w => some (toInt (minCw + w))
      | _ => none) 0
  some (toInt (max minCw self.minContent) + self.padding)

/-- `x1` and `x2` of a child in `sync_x`, with the half gaps taken off. -/
def segment (cols : List Col) (layer : Item) : Option (ℚ × ℚ) := do
  let colItem1 ← colAt cols layer.col
  let colItem2 ← colAt cols layer.col2
  let gap1 := if layer.col ≠ 1 then self.gap * (1 / 2) else 0
  let gap2 := if layer.col2 ≠ cols.length then self.gap * (1 / 2) else 0
  some (colItem1.x + gap1, colItem2.x + colItem2.w - gap2)

/-- `x` and `w` of a child in its segment, unless neither is set. -/
def place (tr : AlignEnum) (layer : Item) (x1 x2 : ℚ) : Option (ℚ × ℚ) :=
  let align := if layer.align ≠ 0 then layer.align else self.itemAlign
  let w := layer.minW
  let start := if self.flip then tr.atEnd else tr.start
  let atEnd := if self.flip then tr.start else tr.atEnd
  if align = tr.stretch then some (snapSpan x1 (x2 - x1) self.snap)
  else if align = start ∨ align = tr.left then some (snapSpan x1 w self.snap)
  else if align = atEnd ∨ align = tr.right then
    some (snapSpan (x2 - w) w self.snap)
  else if align = tr.center then
    some (snapSpan (x1 + (x2 - x1 - w) / 2) w self.snap)
  else none

/-! ## What the columns are for -/

/-- The children have been positioned, and the columns have positive parts. -/
structure Positioned (g : Grid) : Prop where
  first : ∀ layer ∈ g.items, 1 ≤ layer.col
  span : ∀ layer ∈ g.items, 1 ≤ layer.colSpan
  last : ∀ layer ∈ g.items, layer.col2 ≤ g.maxCol
  fr : ∀ fr ∈ g.fr, 0 < fr

/-- The gap to reserve at a column: none for the only one, half of it at an
edge. -/
def reserved (g : Grid) (col : Int) : ℚ :=
  if col = 1 ∧ col = g.maxCol then 0
  else if col = 1 ∨ col = g.maxCol then g.gap / 2
  else g.gap

/-- Columns in a row, each with at least the minimum width of the one it is made
of. -/
structure LaidOut (cols laid : List Col) : Prop where
  wide : List.Forall₂ (fun col col' => col.minW ≤ num col'.w) cols laid
  row : laid.IsChain fun a b => b.x = a.x + a.w

/-- The columns of a range, each read at its index. -/
def Reads (cols : List Col) (first limit : Int) (read : List Col) : Prop :=
  List.Forall₂ (fun col item => colAt cols col = some item) (forRange first limit) read

/-- The columns serve the children: every column has an entry, the entries of the
columns that a child spans have room for it and for two gaps, and once the columns
are laid out the child gets that room. -/
structure Serves (g : Grid) (cols : List Col) : Prop where
  entries : ∀ col, 1 ≤ col → col ≤ g.maxCol → (colAt cols col).isSome
  room : ∀ layer ∈ g.items, ∃ spanned,
    Reads cols layer.col (layer.col2 + 1) spanned ∧
      num (layer.minW + g.reserved layer.col + g.reserved layer.col2) ≤
        total (spanned.map (·.minW))
  gets : ∀ laid, LaidOut cols laid → ∀ layer ∈ g.items, ∃ x1 x2,
    g.segment laid layer = some (x1, x2) ∧ layer.minW ≤ x2 - x1

end Grid

/-! ## Ranges of indices -/

theorem exists_forall₂ {α β : Type*} {R : α → β → Prop} {l : List α}
    (h : ∀ a ∈ l, ∃ b, R a b) : ∃ l', List.Forall₂ R l l' := by
  induction l with
  | nil => exact ⟨[], List.Forall₂.nil⟩
  | cons a l ih =>
      rw [List.forall_mem_cons] at h
      obtain ⟨⟨b, hb⟩, hl⟩ := h
      obtain ⟨l', hl'⟩ := ih hl
      exact ⟨b :: l', List.Forall₂.cons hb hl'⟩

section Ranges

variable {cols cols' : List Col}

theorem colAt_isSome_iff (cols : List Col) (i : Int) :
    (colAt cols i).isSome ↔ 0 ≤ i ∧ i < cols.length := by
  rw [colAt]
  split_ifs with hi
  · rw [isSome_getElem?]
    omega
  · simp [hi]

theorem growCol_isSome_iff (cols : List Col) (r : Int × Extended ℚ) :
    (growCol cols r).isSome ↔ 0 ≤ r.1 ∧ r.1 < cols.length := by
  rw [growCol, Option.isSome_map, colAt_isSome_iff]

theorem length_growCol {r : Int × Extended ℚ} (h : growCol cols r = some cols') :
    cols'.length = cols.length := by
  rw [growCol, Option.map_eq_some_iff] at h
  obtain ⟨item, -, rfl⟩ := h
  exact List.length_set

theorem length_foldlM_growCol {l : List (Int × Extended ℚ)}
    (h : l.foldlM growCol cols = some cols') : cols'.length = cols.length := by
  refine foldlM_keeps (P := fun c => c.length = cols.length) ?_ h rfl
  intro c r c' hgrow hlen
  rw [length_growCol hgrow, hlen]

theorem foldlM_growCol_isSome_iff (l : List (Int × Extended ℚ)) (cols : List Col) :
    (l.foldlM growCol cols).isSome ↔ ∀ r ∈ l, 0 ≤ r.1 ∧ r.1 < cols.length := by
  induction l generalizing cols with
  | nil => simp
  | cons r l ih =>
      rw [List.foldlM_cons, List.forall_mem_cons, ← growCol_isSome_iff]
      cases hnext : growCol cols r with
      | none => simp
      | some next =>
          rw [← length_growCol hnext, ← ih]
          simp

end Ranges

namespace Grid

variable {self : Grid} {beyond : ℚ} {cols : List Col}

theorem length_newCols (self : Grid) (beyond : ℚ) :
    ((self.newCols beyond).length : Int) = max 0 self.maxCol := by
  rw [newCols, List.length_map, forRange, Support.length_interval]
  omega

theorem length_syncCols (h : self.syncCols beyond = some cols) :
    (cols.length : Int) = max 0 self.maxCol := by
  rw [length_foldlM_growCol h, length_newCols]

/-- Every index is in the array exactly if no child lies in the last column
alone. -/
theorem syncCols_isSome_iff (hpos : self.Positioned) :
    (self.syncCols beyond).isSome ↔
      ∀ layer ∈ self.items, layer.col = layer.col2 → layer.col < self.maxCol := by
  rw [syncCols, foldlM_growCol_isSome_iff, length_newCols]
  constructor
  · intro h layer hlayer hone
    have hmem : layer.col ∈ (self.requests layer).map (·.1) := by
      simp [requests, hone]
    obtain ⟨r, hr, hcol⟩ := List.mem_map.mp hmem
    have hin := (h r (List.mem_flatMap.mpr ⟨layer, hlayer, hr⟩)).2
    have hfirst := hpos.first layer hlayer
    rw [hcol] at hin
    omega
  · intro h r hr
    obtain ⟨layer, hlayer, hr⟩ := List.mem_flatMap.mp hr
    have hfirst := hpos.first layer hlayer
    have hlast := hpos.last layer hlayer
    rw [requests] at hr
    split_ifs at hr with hone
    · rw [List.mem_singleton] at hr
      have hlt := h layer hlayer hone
      rw [hr]
      exact ⟨by omega, by omega⟩
    · obtain ⟨col, hcol, rfl⟩ := List.mem_map.mp hr
      rw [mem_forRange] at hcol
      exact ⟨by omega, by omega⟩

end Grid

/-! ## Widths asked for -/

section Widths

variable {cols cols' : List Col}

/-- The column at an index has at least this minimum width. -/
def AtLeast (cols : List Col) (i : Int) (w : ℚ) : Prop :=
  ∃ item, colAt cols i = some item ∧ num w ≤ item.minW

theorem colAt_set (cols : List Col) {i j : Int} (hi : 0 ≤ i) (item : Col) :
    colAt (cols.set i.toNat item) j =
      if i = j then (colAt cols j).map fun _ => item else colAt cols j := by
  rw [colAt, colAt]
  by_cases hj : 0 ≤ j
  · have hiff : i.toNat = j.toNat ↔ i = j := by omega
    simp only [hj, if_true, List.getElem?_set', hiff]
    rfl
  · simp [hj]

/-- What growing a column does to each of them. -/
theorem colAt_growCol {r : Int × Extended ℚ} (hgrow : growCol cols r = some cols')
    (i : Int) :
    colAt cols' i = if r.1 = i then
        (colAt cols i).map fun item => { item with minW := max item.minW r.2 }
      else colAt cols i := by
  have hr : 0 ≤ r.1 :=
    ((growCol_isSome_iff cols r).mp (Option.isSome_of_eq_some hgrow)).1
  rw [growCol, Option.map_eq_some_iff] at hgrow
  obtain ⟨item, hitem, rfl⟩ := hgrow
  rw [colAt_set cols hr]
  split_ifs with heq
  · rw [← heq, hitem]
    rfl
  · rfl

theorem AtLeast.growCol {i : Int} {w : ℚ} (h : AtLeast cols i w)
    {r : Int × Extended ℚ} (hgrow : growCol cols r = some cols') : AtLeast cols' i w := by
  obtain ⟨item, hitem, hw⟩ := h
  rw [AtLeast, colAt_growCol hgrow, hitem]
  split_ifs
  · exact ⟨_, rfl, num_le_max_left hw r.2⟩
  · exact ⟨item, rfl, hw⟩

theorem AtLeast.growCol_self {i : Int} {w w' : ℚ} (h : AtLeast cols i w)
    (hgrow : GridWidths.growCol cols (i, num w') = some cols') : AtLeast cols' i w' := by
  obtain ⟨item, hitem, hw⟩ := h
  rw [AtLeast, colAt_growCol hgrow, if_pos rfl, hitem]
  exact ⟨_, rfl, num_le_max_right hw⟩

/-- What is asked for is what the column has in the end. -/
theorem AtLeast.foldlM_mem {i : Int} {w w' : ℚ} (h : AtLeast cols i w)
    {l : List (Int × Extended ℚ)} (hmem : (i, num w') ∈ l)
    (hfold : l.foldlM GridWidths.growCol cols = some cols') : AtLeast cols' i w' :=
  foldlM_reaches (fun _ _ _ hgrow h => h.growCol hgrow)
    (fun _ _ _ hgrow h => h.growCol hgrow)
    (fun _ _ hgrow (h : AtLeast _ i w) => h.growCol_self hgrow) hmem hfold h

end Widths

namespace Grid

variable {self : Grid} {beyond : ℚ} {cols : List Col}

theorem atLeast_newCols {col : Int} (hcol : 0 ≤ col) (hlt : col < self.maxCol) :
    AtLeast (self.newCols beyond) col 0 := by
  have hlen := length_newCols self beyond
  obtain ⟨item, hitem⟩ := Option.isSome_iff_exists.mp
    ((colAt_isSome_iff (self.newCols beyond) col).mpr ⟨hcol, by omega⟩)
  refine ⟨item, hitem, ?_⟩
  rw [colAt, if_pos hcol] at hitem
  have hmem := List.mem_of_getElem? hitem
  rw [newCols, List.mem_map] at hmem
  obtain ⟨_, -, rfl⟩ := hmem
  exact (num_le_num 0 0).mpr le_rfl

theorem atLeast_of_request (hcols : self.syncCols beyond = some cols)
    {layer : Item} (hlayer : layer ∈ self.items) {col : Int} {w : ℚ}
    (hmem : (col, num w) ∈ self.requests layer) : AtLeast cols col w := by
  have hin := (foldlM_growCol_isSome_iff _ _).mp (Option.isSome_of_eq_some hcols)
    _ (List.mem_flatMap.mpr ⟨layer, hlayer, hmem⟩)
  have hlen := length_newCols self beyond
  exact (atLeast_newCols hin.1 (by omega)).foldlM_mem
    (List.mem_flatMap.mpr ⟨layer, hlayer, hmem⟩) hcols

theorem frOr_pos (hpos : self.Positioned) (col : Int) : 0 < self.frOr col := by
  rw [frOr, listGet]
  split_ifs
  · rw [List.getD_eq_getElem?_getD]
    cases hfr : self.fr[col.toNat]? with
    | none => exact one_pos
    | some fr => exact hpos.fr fr (List.mem_of_getElem? hfr)
  · exact one_pos

/-- The parts of the columns make up at least what is kept of their sum. -/
theorem spanFr_le (hpos : self.Positioned) (layer : Item) :
    (self.spanFr layer : ℚ) ≤
      ((forRange layer.col layer.col2).map self.frOr).sum := by
  rw [spanFr, foldl_toInt_eq_sum (fun _ _ => rfl) fun col _ => (frOr_pos hpos col).le,
    Int.cast_list_sum, List.map_map]
  apply List.sum_le_sum
  intro col _
  exact Int.floor_le (self.frOr col)

/-- The width that a child asks for in one of its columns but the last. -/
def widthOf (self : Grid) (layer : Item) (col : Int) : ℚ :=
  self.frOr col * (layer.minW / self.spanFr layer) +
    if col = layer.col then self.gapCol layer.col2 else 0

theorem sum_widthOf (layer : Item) (hspan : layer.col < layer.col2) :
    ((forRange layer.col layer.col2).map (self.widthOf layer)).sum =
      ((forRange layer.col layer.col2).map self.frOr).sum *
          (layer.minW / self.spanFr layer) + self.gapCol layer.col2 := by
  have hgap : ((forRange layer.col layer.col2).map fun col =>
      if col = layer.col then self.gapCol layer.col2 else 0).sum =
        self.gapCol layer.col2 := by
    have hzero : (forRange (layer.col + 1) layer.col2).map (fun col =>
        if col = layer.col then self.gapCol layer.col2 else 0) =
          (forRange (layer.col + 1) layer.col2).map fun _ => 0 := by
      apply List.map_congr_left
      intro col hcol
      rw [mem_forRange] at hcol
      exact if_neg (by omega)
    rw [forRange_cons hspan, List.map_cons, List.sum_cons, hzero, if_pos rfl]
    simp
  rw [← List.sum_map_mul_right]
  conv_rhs => rw [← hgap]
  rw [← List.sum_map_add]
  rfl

theorem atLeast_widthOf (hcols : self.syncCols beyond = some cols) {layer : Item}
    (hlayer : layer ∈ self.items) (hfr : self.spanFr layer ≠ 0) {col : Int}
    (hcol : col ∈ forRange layer.col layer.col2) :
    AtLeast cols col (self.widthOf layer col) := by
  have hspan := mem_forRange.mp hcol
  have hfr' : (self.spanFr layer : ℚ) ≠ 0 := by exact_mod_cast hfr
  apply atLeast_of_request hcols hlayer
  rw [requests, if_neg (by omega), List.mem_map]
  refine ⟨col, hcol, ?_⟩
  have hne : col ≠ layer.col2 := by omega
  rw [spannedMinW, num_div_num _ hfr', num_mul_num, num_add_num, num_add_num, if_neg hne,
    widthOf]
  congr 2
  ring

/-- The columns of a child but the last have room for it and for one gap. -/
theorem room_but_last (hpos : self.Positioned) (hcols : self.syncCols beyond = some cols)
    {layer : Item} (hlayer : layer ∈ self.items) (hmin : 0 ≤ layer.minW)
    (hspan : layer.col < layer.col2) (hfr : 0 < self.spanFr layer) :
    ∃ spanned, Reads cols layer.col layer.col2 spanned ∧
      num (layer.minW + self.gapCol layer.col2) ≤ total (spanned.map (·.minW)) := by
  have hread : ∃ spanned, List.Forall₂
      (fun col item => colAt cols col = some item ∧
        num (self.widthOf layer col) ≤ item.minW)
      (forRange layer.col layer.col2) spanned :=
    exists_forall₂ fun col hcol => atLeast_widthOf hcols hlayer hfr.ne' hcol
  obtain ⟨spanned, hread⟩ := hread
  refine ⟨spanned, hread.imp fun _ _ h => h.1, ?_⟩
  have hsum : num ((forRange layer.col layer.col2).map (self.widthOf layer)).sum ≤
      total (spanned.map (·.minW)) := by
    apply num_sum_le_total
    rw [List.forall₂_map_left_iff, List.forall₂_map_right_iff]
    exact hread.imp fun _ _ h => h.2
  have hF : (0 : ℚ) < self.spanFr layer := by exact_mod_cast hfr
  have hle : layer.minW ≤ ((forRange layer.col layer.col2).map self.frOr).sum *
      (layer.minW / self.spanFr layer) :=
    calc
      layer.minW = self.spanFr layer * (layer.minW / self.spanFr layer) :=
        (mul_div_cancel₀ layer.minW hF.ne').symm
      _ ≤ _ := mul_le_mul_of_nonneg_right (spanFr_le hpos layer) (div_nonneg hmin hF.le)
  rw [sum_widthOf layer hspan] at hsum
  exact Extended.le_trans ((num_le_num _ _).mpr (by linarith)) hsum

/-- A child that ends in the last column gets no place in `sync_x`. -/
theorem segment_isSome_iff (hpos : self.Positioned)
    (hcols : self.syncCols beyond = some cols) {layer : Item}
    (hlayer : layer ∈ self.items) :
    (self.segment cols layer).isSome ↔ layer.col2 < self.maxCol := by
  have hfirst := hpos.first layer hlayer
  have hspan := hpos.span layer hlayer
  have hlen := length_syncCols hcols
  have hcol2 : layer.col2 = layer.col + layer.colSpan - 1 := rfl
  have hread (i : Int) : (colAt cols i).isSome ↔ 0 ≤ i ∧ i < max 0 self.maxCol := by
    rw [colAt_isSome_iff, hlen]
  have hboth : (self.segment cols layer).isSome ↔
      (colAt cols layer.col).isSome ∧ (colAt cols layer.col2).isSome := by
    rw [segment]
    cases colAt cols layer.col with
    | none => simp
    | some item => cases colAt cols layer.col2 <;> simp
  rw [hboth, hread, hread]
  omega

/-- After `sync_min_w` the columns serve the children only if there are no
columns: the entry of the last one is missing. -/
theorem syncCols_serves_iff (hpos : self.Positioned) :
    (∃ cols, self.syncCols beyond = some cols ∧ self.Serves cols) ↔
      self.maxCol < 1 := by
  constructor
  · rintro ⟨cols, hcols, hserves⟩
    by_contra hmax
    have hentry := hserves.entries self.maxCol (not_lt.mp hmax) le_rfl
    have hlen := length_syncCols hcols
    rw [colAt_isSome_iff] at hentry
    omega
  · intro hmax
    have hnone : self.items = [] := by
      apply List.eq_nil_iff_forall_not_mem.mpr
      intro layer hlayer
      have hfirst := hpos.first layer hlayer
      have hspan := hpos.span layer hlayer
      have hlast := hpos.last layer hlayer
      rw [Item.col2] at hlast
      omega
    refine ⟨self.newCols beyond, ?_, ?_, ?_, ?_⟩
    · rw [syncCols, hnone]
      rfl
    · intro col hcol hle
      omega
    · intro layer hlayer
      exact absurd hlayer (by simp [hnone])
    · intro laid _ layer hlayer
      exact absurd hlayer (by simp [hnone])

/-- Two columns are one too many. -/
theorem syncCols_serves_iff_two :
    (∃ cols,
      Grid.syncCols
          { fr := [], gap := 0, maxCol := 2, itemAlign := 5, flip := false, snap := false,
            minContent := 0, padding := 0,
            children := [{ inlayout := true, col := 1, colSpan := 1, minW := 10, align := 0 }] }
          1 = some cols ∧
        Grid.Serves
          { fr := [], gap := 0, maxCol := 2, itemAlign := 5, flip := false, snap := false,
            minContent := 0, padding := 0,
            children := [{ inlayout := true, col := 1, colSpan := 1, minW := 10, align := 0 }] }
          cols) ↔
      (2 : Int) < 1 := by
  apply syncCols_serves_iff
  constructor <;> decide

/-- The only child of a grid with one column: its width is stored at index one of
an array that has one entry. -/
theorem syncCols_stops :
    ¬ ∀ (g : Grid) (beyond : ℚ), g.Positioned →
      ∃ cols, g.syncCols beyond = some cols ∧ g.Serves cols := by
  intro h
  obtain ⟨cols, hcols, -⟩ := h
    { fr := [], gap := 0, maxCol := 1, itemAlign := 5, flip := false, snap := false,
      minContent := 0, padding := 0,
      children := [{ inlayout := true, col := 1, colSpan := 1, minW := 10, align := 0 }] }
    1 (by constructor <;> decide)
  exact absurd hcols (by simp [Grid.syncCols, Grid.items, Grid.requests, Item.col2, growCol,
    colAt, Grid.newCols, forRange, interval])

end Grid

end GridWidths

end LuaAttic.Layerlib
