import LuaAttic.Layerlib.GridPlacement

/-!
# Negative grid indices

Rows and columns that are counted from the end are resolved by a second pass over the
layers.  But the first pass already raises each index to one, so it takes every explicit
position for a positive one and never asks for the second pass: a negative index is the
first row or column, and the span from there on enlarges the grid.
-/

namespace LuaAttic.Layerlib

open LuaAttic.Support LuaAttic.Terra BoolBitmap

/-- A visible layer with an index that is counted from the end. -/
def GridChild.Negative (layer : GridChild) : Prop :=
  layer.visible = true ∧ (layer.grid.row < 0 ∨ layer.grid.col < 0)

instance : DecidablePred GridChild.Negative :=
  fun _ => inferInstanceAs (Decidable (_ ∧ (_ ∨ _)))

/-! ## Bounds -/

/-- The last line of a span that begins at an index which is raised to one. -/
def lineEnd (index span : Int) : Int := min (max 1 index + max 1 span - 1) maxint

/-- The last line that a layer asks for along an axis: an automatically positioned one
only asks for its span along the main axis. -/
def GridChild.asksFor (layer : GridChild) (main : Bool) (index span : Int) : Option Int :=
  if layer.visible then
    if layer.Auto then if main then some (max 1 span) else none
    else some (lineEnd index span)
  else none

/-- The number of rows, for the given layers. -/
def GridLayout.rowsFor (grid : GridLayout) (layers : List GridChild) : Int :=
  (layers.filterMap fun l => l.asksFor (!grid.colFirst) l.grid.row l.grid.rowSpan).foldl max
    (if grid.colFirst then grid.minLines else max 1 grid.wrap)

/-- The number of columns, for the given layers. -/
def GridLayout.colsFor (grid : GridLayout) (layers : List GridChild) : Int :=
  (layers.filterMap fun l => l.asksFor grid.colFirst l.grid.col l.grid.colSpan).foldl max
    (if grid.colFirst then max 1 grid.wrap else grid.minLines)

/-- The layers without negative indices. -/
def positives (layers : List GridChild) : List GridChild :=
  layers.filter fun l => ¬ l.Negative

/-- An index of a line, where a negative one is counted from the end. -/
def fromEnd (lines index : Int) : Int :=
  if index < 0 then lines + index + 1 else max 1 index

/-- The place that a layer with negative indices asks for: its span, clipped to the grid
of the other layers. -/
def GridLayout.negativeCell (grid : GridLayout) (layers : List GridChild)
    (layer : GridChild) : CellRect :=
  clipSpan (fromEnd (grid.rowsFor (positives layers)) layer.grid.row)
    (fromEnd (grid.colsFor (positives layers)) layer.grid.col)
    (max 1 layer.grid.rowSpan) (max 1 layer.grid.colSpan)
    (grid.rowsFor (positives layers)) (grid.colsFor (positives layers))

variable {A : ArrOps Bool}

/-- Layers with negative indices have the places that they ask for, and the grid ends
where it does without them, or where an automatically positioned layer ends. -/
structure NegativesPlaced (grid : GridLayout) (layers : List GridChild) (s : Autopos A)
    (placed : List GridChild) : Prop where
  cells : List.Forall₂
    (fun l l' => l.Negative → l'.cell = grid.negativeCell layers l) layers placed
  rows : s.maxRow = grid.rowsFor (positives layers) ∨
    ∃ l ∈ placed, l.visible = true ∧ l.Auto ∧ l.cell.row + l.cell.rowSpan - 1 = s.maxRow
  cols : s.maxCol = grid.colsFor (positives layers) ∨
    ∃ l ∈ placed, l.visible = true ∧ l.Auto ∧ l.cell.col + l.cell.colSpan - 1 = s.maxCol

/-- A negative index is the one of the first line, or it is one before it and the span is
a single line; a span from any other index ends in the grid. -/
def KeepsLine (lines index span : Int) : Prop :=
  if index < 0 then 1 ≤ lines ∧ lines ≤ -index ∧ (span ≤ 1 ∨ (lines = -index ∧ span ≤ lines))
  else lineEnd index span ≤ lines

instance (lines index span : Int) : Decidable (KeepsLine lines index span) :=
  inferInstanceAs (Decidable (ite _ _ _))

/-! ## The first pass -/

/-- What the first pass makes of a layer. -/
def GridChild.explicit (layer : GridChild) : GridChild :=
  if layer.visible then
    { layer with
      cell := if layer.Auto then ⟨0, 0, max 1 layer.grid.rowSpan, max 1 layer.grid.colSpan⟩
        else clipSpan (max 1 layer.grid.row) (max 1 layer.grid.col)
          (max 1 layer.grid.rowSpan) (max 1 layer.grid.colSpan) maxint maxint }
  else layer

/-- A span of at least one line is not turned around when it is clipped. -/
theorem clipSpan_eq (row col : Int) {rowSpan colSpan : Int} (hrowSpan : 1 ≤ rowSpan)
    (hcolSpan : 1 ≤ colSpan) (maxRow maxCol : Int) :
    clipSpan row col rowSpan colSpan maxRow maxCol =
      ⟨clamp row 1 maxRow, clamp col 1 maxCol,
        clamp (row + rowSpan - 1) 1 maxRow - clamp row 1 maxRow + 1,
        clamp (col + colSpan - 1) 1 maxCol - clamp col 1 maxCol + 1⟩ := by
  have hr : ¬ clamp (row + rowSpan - 1) 1 maxRow < clamp row 1 maxRow := by
    unfold clamp
    omega
  have hc : ¬ clamp (col + colSpan - 1) 1 maxCol < clamp col 1 maxCol := by
    unfold clamp
    omega
  simp only [clipSpan, if_neg hr, if_neg hc]

theorem clamp_maxint_of_pos {i : Int} (h : 1 ≤ i) : clamp i 1 maxint = min i maxint := by
  rw [clamp, max_eq_left h]

theorem placeExplicit_eq (colFirst : Bool) (s : Autopos A) (layer : GridChild) :
    (placeExplicit colFirst s layer).2 = layer.explicit ∧
      (placeExplicit colFirst s layer).1.maxRow =
        (layer.asksFor (!colFirst) layer.grid.row layer.grid.rowSpan).toList.foldl max
          s.maxRow ∧
      (placeExplicit colFirst s layer).1.maxCol =
        (layer.asksFor colFirst layer.grid.col layer.grid.colSpan).toList.foldl max
          s.maxCol := by
  unfold placeExplicit GridChild.explicit GridChild.asksFor
  by_cases hvisible : layer.visible = true
  · simp only [if_pos hvisible]
    by_cases hauto : layer.Auto
    · have hrow : |max 1 layer.grid.rowSpan| = max 1 layer.grid.rowSpan :=
        abs_of_nonneg (by omega)
      have hcol : |max 1 layer.grid.colSpan| = max 1 layer.grid.colSpan :=
        abs_of_nonneg (by omega)
      simp only [if_pos hauto, hrow, hcol, hauto.1, hauto.2]
      cases colFirst with
      | true => exact ⟨rfl, rfl, rfl⟩
      | false => exact ⟨rfl, rfl, rfl⟩
    · have hexplicit : layer.grid.row ≠ 0 ∨ layer.grid.col ≠ 0 := by
        by_contra h
        exact hauto ⟨by omega, by omega⟩
      have hpositive : 0 < max 1 layer.grid.row ∧ 0 < max 1 layer.grid.col := by omega
      have hends : ∀ a b : Int, a + (b - a + 1) - 1 = b := fun a b => by omega
      simp only [if_pos hexplicit, if_pos hpositive, if_neg hauto, Option.toList_some,
        List.foldl_cons, List.foldl_nil, lineEnd, true_and]
      rw [clipSpan_eq _ _ (le_max_left _ _) (le_max_left _ _)]
      simp only [hends]
      rw [clamp_maxint_of_pos (by omega), clamp_maxint_of_pos (by omega)]
      exact ⟨rfl, rfl⟩
  · simp only [if_neg hvisible, Option.toList_none, List.foldl_nil, and_self]

theorem forLayers_placeExplicit (colFirst : Bool) (s : Autopos A) (layers : List GridChild) :
    (forLayers (placeExplicit colFirst) s layers).2 = layers.map GridChild.explicit ∧
      (forLayers (placeExplicit colFirst) s layers).1.maxRow =
        (layers.filterMap fun l => l.asksFor (!colFirst) l.grid.row l.grid.rowSpan).foldl max
          s.maxRow ∧
      (forLayers (placeExplicit colFirst) s layers).1.maxCol =
        (layers.filterMap fun l => l.asksFor colFirst l.grid.col l.grid.colSpan).foldl max
          s.maxCol := by
  induction layers generalizing s with
  | nil => exact ⟨rfl, rfl, rfl⟩
  | cons layer layers ih =>
      obtain ⟨hlayer, hrow, hcol⟩ := placeExplicit_eq colFirst s layer
      obtain ⟨hlayers, hrows, hcols⟩ := ih (placeExplicit colFirst s layer).1
      have hfold : ∀ (ask : GridChild → Option Int) (n : Int),
          ((layer :: layers).filterMap ask).foldl max n =
            (layers.filterMap ask).foldl max ((ask layer).toList.foldl max n) := by
        intro ask n
        cases hask : ask layer with
        | none => rw [List.filterMap_cons_none hask]; rfl
        | some e => rw [List.filterMap_cons_some hask]; rfl
      simp only [forLayers]
      refine ⟨by rw [List.map_cons, hlayer, hlayers], ?_, ?_⟩
      · rw [hrows, hrow, hfold]
      · rw [hcols, hcol, hfold]

/-! ## The last pass -/

/-- What the last pass does to a grid that was positioned by the first one. -/
structure Finishes (s : Autopos A) (layers : List GridChild) (s' : Autopos A)
    (placed : List GridChild) : Prop where
  fixed : List.Forall₂ (fun l l' => ¬ (l.visible = true ∧ l.cell.row = 0) → l' = l)
    layers placed
  rows : s'.maxRow = s.maxRow ∨
    ∃ l ∈ placed, l.visible = true ∧ l.Auto ∧ l.cell.row + l.cell.rowSpan - 1 = s'.maxRow
  cols : s'.maxCol = s.maxCol ∨
    ∃ l ∈ placed, l.visible = true ∧ l.Auto ∧ l.cell.col + l.cell.colSpan - 1 = s'.maxCol

theorem finishes_refl (s : Autopos A) (layers : List GridChild) :
    Finishes s layers s layers :=
  ⟨List.forall₂_same.mpr fun _ _ _ => rfl, .inl rfl, .inl rfl⟩

theorem finishes_placeMissing {fuel : ℕ} {colFirst : Bool} {s s' : Autopos A}
    {row col : Int} {layers placed : List GridChild}
    (hwaits : ∀ l ∈ layers, l.visible = true → l.cell.row = 0 → l.Auto)
    (h : placeMissing fuel colFirst s row col layers = some (s', placed)) :
    Finishes s layers s' placed := by
  induction layers generalizing s row col placed with
  | nil =>
      obtain ⟨rfl, rfl⟩ := Prod.mk.inj (Option.some.inj h)
      exact finishes_refl s []
  | cons layer layers ih =>
      obtain ⟨hlayer, hrest⟩ := List.forall_mem_cons.mp hwaits
      rw [placeMissing] at h
      by_cases hwait : layer.visible = true ∧ layer.cell.row = 0
      · rw [if_pos hwait] at h
        obtain ⟨⟨r, c⟩, -, h⟩ := Option.bind_eq_some_iff.mp h
        simp only at h
        obtain ⟨⟨s'', layers'⟩, hrun, h⟩ := Option.bind_eq_some_iff.mp h
        obtain ⟨rfl, rfl⟩ := Prod.mk.inj (Option.some.inj h)
        obtain ⟨hfixed, hrows, hcols⟩ := ih hrest hrun
        have hauto : layer.Auto := hlayer hwait.1 hwait.2
        refine ⟨.cons (fun hnot => absurd hwait hnot) hfixed, ?_, ?_⟩
        · rcases hrows with hsame | ⟨l, hl, hends⟩
          · rw [hsame]
            split_ifs
            · rcases max_choice s.maxRow (r + layer.cell.rowSpan - 1) with hmax | hmax
              · exact .inl hmax
              · exact .inr ⟨_, List.mem_cons_self, hwait.1, hauto, hmax.symm⟩
            · exact .inl rfl
          · exact .inr ⟨l, List.mem_cons_of_mem _ hl, hends⟩
        · rcases hcols with hsame | ⟨l, hl, hends⟩
          · rw [hsame]
            split_ifs
            · exact .inl rfl
            · rcases max_choice s.maxCol (c + layer.cell.colSpan - 1) with hmax | hmax
              · exact .inl hmax
              · exact .inr ⟨_, List.mem_cons_self, hwait.1, hauto, hmax.symm⟩
          · exact .inr ⟨l, List.mem_cons_of_mem _ hl, hends⟩
      · rw [if_neg hwait] at h
        obtain ⟨⟨s'', layers'⟩, hrun, h⟩ := Option.bind_eq_some_iff.mp h
        obtain ⟨rfl, rfl⟩ := Prod.mk.inj (Option.some.inj h)
        obtain ⟨hfixed, hrows, hcols⟩ := ih hrest hrun
        refine ⟨.cons (fun _ => rfl) hfixed, ?_, ?_⟩
        · refine hrows.imp_right ?_
          rintro ⟨l, hl, hends⟩
          exact ⟨l, List.mem_cons_of_mem _ hl, hends⟩
        · refine hcols.imp_right ?_
          rintro ⟨l, hl, hends⟩
          exact ⟨l, List.mem_cons_of_mem _ hl, hends⟩

/-! ## Lines that are asked for -/

theorem foldl_max_le_iff {ask : GridChild → Option Int} {layers : List GridChild} {n x : Int} :
    (layers.filterMap ask).foldl max n ≤ x ↔ n ≤ x ∧ ∀ l ∈ layers, ∀ e ∈ ask l, e ≤ x := by
  induction layers generalizing n with
  | nil => simp
  | cons layer layers ih =>
      rw [List.forall_mem_cons]
      cases hask : ask layer with
      | none =>
          rw [List.filterMap_cons_none hask, ih]
          simp
      | some e =>
          rw [List.filterMap_cons_some hask, List.foldl_cons, ih, max_le_iff]
          simp [and_assoc]

/-- Layers that do not ask for more than the others. -/
theorem foldl_max_positives {ask : GridChild → Option Int} {layers : List GridChild} {n : Int}
    (h : ∀ l ∈ layers, l.Negative → ∀ e ∈ ask l,
      e ≤ ((positives layers).filterMap ask).foldl max n) :
    (layers.filterMap ask).foldl max n = ((positives layers).filterMap ask).foldl max n := by
  have hself := foldl_max_le_iff.mp (le_refl (((positives layers).filterMap ask).foldl max n))
  have hall := foldl_max_le_iff.mp (le_refl ((layers.filterMap ask).foldl max n))
  apply le_antisymm
  · refine foldl_max_le_iff.mpr ⟨hself.1, fun l hl e he => ?_⟩
    by_cases hneg : l.Negative
    · exact h l hl hneg e he
    · exact hself.2 l (List.mem_filter.mpr ⟨hl, decide_eq_true hneg⟩) e he
  · exact foldl_max_le_iff.mpr ⟨hall.1, fun l hl e he => hall.2 l (List.mem_filter.mp hl).1 e he⟩

/-- The fields of a layer are machine integers. -/
structure GridChild.InRange (layer : GridChild) : Prop where
  row : layer.grid.row ≤ maxint
  col : layer.grid.col ≤ maxint
  rowSpan : layer.grid.rowSpan ≤ maxint
  colSpan : layer.grid.colSpan ≤ maxint

/-- The fields of a grid are machine integers. -/
structure GridLayout.InRange (grid : GridLayout) : Prop where
  wrap : grid.wrap ≤ maxint
  minLines : grid.minLines ≤ maxint

theorem asksFor_le_maxint {layer : GridChild} {main : Bool} {index span e : Int}
    (hspan : span ≤ maxint) (he : e ∈ layer.asksFor main index span) : e ≤ maxint := by
  have hone : 1 ≤ maxint := by decide
  unfold GridChild.asksFor at he
  split_ifs at he
  · obtain rfl := Option.some.inj he
    exact max_le hone hspan
  · cases he
  · obtain rfl := Option.some.inj he
    exact min_le_right _ _
  · cases he

section InRange

variable {grid : GridLayout} {layers : List GridChild} (hgrid : grid.InRange)
  (hlayers : ∀ l ∈ layers, l.InRange)

include hgrid hlayers

theorem rowsFor_le_maxint : grid.rowsFor (positives layers) ≤ maxint := by
  have hone : 1 ≤ maxint := by decide
  refine foldl_max_le_iff.mpr ⟨?_, fun l hl e he => ?_⟩
  · split_ifs
    · exact hgrid.minLines
    · exact max_le hone hgrid.wrap
  · exact asksFor_le_maxint (hlayers l (List.mem_filter.mp hl).1).rowSpan he

theorem colsFor_le_maxint : grid.colsFor (positives layers) ≤ maxint := by
  have hone : 1 ≤ maxint := by decide
  refine foldl_max_le_iff.mpr ⟨?_, fun l hl e he => ?_⟩
  · split_ifs
    · exact max_le hone hgrid.wrap
    · exact hgrid.minLines
  · exact asksFor_le_maxint (hlayers l (List.mem_filter.mp hl).1).colSpan he

end InRange

/-- Along one axis the place of the first pass is the one that is asked for. -/
theorem keepsLine_iff {lines index span : Int} (hlines : lines ≤ maxint)
    (hindex : index ≤ maxint) (hspan : span ≤ maxint) :
    (clamp (max 1 index) 1 maxint = clamp (fromEnd lines index) 1 lines ∧
      clamp (max 1 index + max 1 span - 1) 1 maxint =
        clamp (fromEnd lines index + max 1 span - 1) 1 lines) ↔
      KeepsLine lines index span := by
  have hone : maxint = 2147483647 := rfl
  unfold KeepsLine fromEnd lineEnd clamp
  split_ifs with hneg
  · omega
  · omega

/-! ## Negative indices -/

/-- The indices and spans of a layer, along both axes. -/
def KeepsLines (grid : GridLayout) (layers : List GridChild) (layer : GridChild) : Prop :=
  KeepsLine (grid.rowsFor (positives layers)) layer.grid.row layer.grid.rowSpan ∧
    KeepsLine (grid.colsFor (positives layers)) layer.grid.col layer.grid.colSpan

instance (grid : GridLayout) (layers : List GridChild) :
    DecidablePred (KeepsLines grid layers) := fun _ => inferInstanceAs (Decidable (_ ∧ _))

theorem explicit_negative {layer : GridChild} (hneg : layer.Negative) :
    layer.explicit.cell = clipSpan (max 1 layer.grid.row) (max 1 layer.grid.col)
      (max 1 layer.grid.rowSpan) (max 1 layer.grid.colSpan) maxint maxint := by
  have hauto : ¬ layer.Auto := by
    have hindex := hneg.2
    rintro ⟨hrow, hcol⟩
    omega
  rw [GridChild.explicit, if_pos hneg.1, if_neg hauto]

section Negatives

variable {grid : GridLayout} {layers : List GridChild} (hgrid : grid.InRange)
  (hlayers : ∀ l ∈ layers, l.InRange)

include hgrid hlayers

theorem explicit_eq_negativeCell_iff {layer : GridChild} (hlayer : layer ∈ layers)
    (hneg : layer.Negative) :
    layer.explicit.cell = grid.negativeCell layers layer ↔ KeepsLines grid layers layer := by
  have hrange := hlayers layer hlayer
  have hrow := keepsLine_iff (rowsFor_le_maxint hgrid hlayers) hrange.row hrange.rowSpan
  have hcol := keepsLine_iff (colsFor_le_maxint hgrid hlayers) hrange.col hrange.colSpan
  rw [explicit_negative hneg, GridLayout.negativeCell,
    clipSpan_eq _ _ (le_max_left _ _) (le_max_left _ _),
    clipSpan_eq _ _ (le_max_left _ _) (le_max_left _ _), CellRect.mk.injEq, KeepsLines, ← hrow,
    ← hcol]
  constructor
  · rintro ⟨hrow, hcol, hrowSpan, hcolSpan⟩
    omega
  · rintro ⟨⟨hrow, hrowEnd⟩, hcol, hcolEnd⟩
    omega

omit hgrid hlayers in
/-- A layer that keeps its lines does not ask for more. -/
theorem lineEnd_le_of_keepsLine {lines index span : Int} (h : KeepsLine lines index span) :
    lineEnd index span ≤ lines := by
  unfold KeepsLine at h
  split_ifs at h with hneg
  · unfold lineEnd
    omega
  · exact h

omit hgrid hlayers in
theorem rowsFor_of_keepsLines (hkeeps : ∀ l ∈ layers, l.Negative → KeepsLines grid layers l) :
    grid.rowsFor layers = grid.rowsFor (positives layers) ∧
      grid.colsFor layers = grid.colsFor (positives layers) := by
  have hasks : ∀ l : GridChild, l.Negative → ∀ main index span,
      ∀ e ∈ l.asksFor main index span, e = lineEnd index span := by
    intro l hneg main index span e he
    have hauto : ¬ l.Auto := by
      have hindex := hneg.2
      rintro ⟨hrow, hcol⟩
      omega
    rw [GridChild.asksFor, if_pos hneg.1, if_neg hauto] at he
    exact (Option.some.inj he).symm
  refine ⟨foldl_max_positives fun l hl hneg e he => ?_,
    foldl_max_positives fun l hl hneg e he => ?_⟩
  · rw [hasks l hneg _ _ _ e he]
    exact lineEnd_le_of_keepsLine (hkeeps l hl hneg).1
  · rw [hasks l hneg _ _ _ e he]
    exact lineEnd_le_of_keepsLine (hkeeps l hl hneg).2

omit hgrid hlayers in
/-- The last pass only moves automatically positioned layers. -/
theorem finishes_placeLayers (hA : A.Lawful) {occupied : BoolBitmap A} (hvalid : occupied.Valid)
    {fuel : ℕ} {s : Autopos A} {placed : List GridChild}
    (h : grid.placeLayers fuel occupied layers = some (s, placed)) :
    ∃ s1 : Autopos A, s1.maxRow = grid.rowsFor layers ∧ s1.maxCol = grid.colsFor layers ∧
      Finishes s1 (layers.map GridChild.explicit) s placed := by
  have hplaced := placedExplicit_forLayers hA grid.colFirst layers
    (hasCells_autopos hA grid hvalid)
  obtain ⟨hcells, hrows, hcols⟩ :=
    forLayers_placeExplicit grid.colFirst (grid.autopos occupied) layers
  rw [GridLayout.placeLayers] at h
  rcases hfirst : forLayers (placeExplicit grid.colFirst) (grid.autopos occupied)
    layers with ⟨s1, layers1⟩
  rw [hfirst] at hplaced hcells hrows hcols
  simp only at hcells hrows hcols
  have hnegative : s1.negativeIndices = false := hplaced.negative
  simp only [hfirst, hnegative, Bool.false_eq_true, if_false] at h
  refine ⟨s1, hrows, hcols, ?_⟩
  rw [← hcells]
  split_ifs at h with hmissing
  · refine finishes_placeMissing (fun l hl hv hrow => ?_) h
    obtain ⟨hauto, -⟩ | ⟨-, hsettled⟩ := hplaced.ready l hl hv
    · exact hauto
    · have hpos := hsettled.proper.row_pos
      omega
  · obtain ⟨rfl, rfl⟩ := Prod.mk.inj (Option.some.inj h)
    exact finishes_refl s1 layers1

omit hgrid hlayers in
/-- A layer with negative indices is left where the first pass puts it. -/
theorem explicit_of_fixed {placed : List GridChild}
    (h : List.Forall₂ (fun l l' => ¬ (l.visible = true ∧ l.cell.row = 0) → l' = l)
      (layers.map GridChild.explicit) placed) :
    List.Forall₂ (fun l l' => l.Negative → l' = l.explicit) layers placed := by
  refine (List.forall₂_map_left_iff.mp h).imp fun l l' hfixed hneg => hfixed ?_
  rintro ⟨-, hrow⟩
  rw [explicit_negative hneg, clipSpan_eq _ _ (le_max_left _ _) (le_max_left _ _)] at hrow
  have hone : 1 ≤ maxint := by decide
  have hfirst : clamp (max 1 l.grid.row) 1 maxint = 0 := hrow
  unfold clamp at hfirst
  omega

end Negatives

/-- A layer of two rows and one column, and one in the only row from the end. -/
def negativeLayers : List GridChild :=
  [⟨true, ⟨1, 1, 2, 1⟩, ⟨0, 0, 0, 0⟩⟩, ⟨true, ⟨-2, 2, 2, 1⟩, ⟨0, 0, 0, 0⟩⟩]

/-- A layer in the first row of two, and one in the last row. -/
def lastRowLayers : List GridChild :=
  [⟨true, ⟨1, 1, 1, 1⟩, ⟨0, 0, 0, 0⟩⟩, ⟨true, ⟨-1, 2, 1, 1⟩, ⟨0, 0, 0, 0⟩⟩]

end LuaAttic.Layerlib
