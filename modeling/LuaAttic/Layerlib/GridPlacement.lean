import LuaAttic.Layerlib.GridAutopos

/-!
# Places of grid children

Each pass settles some layers, that is, puts them within the grid bounds and marks
their cells, and leaves the others ready for the next pass.  Marks in the bitmap stay,
but what is checked before a layer is placed are not the cells that it is placed on: the
bits that are read belong to the cells that come next.  So the first cells of a place may
be occupied, and only the order of the cursor keeps layers apart.
-/

namespace LuaAttic.Layerlib

open LuaAttic.Support LuaAttic.Terra BoolBitmap

variable {A : ArrOps Bool}

/-! ## Rectangles -/

/-- The cell is in the rectangle. -/
def CellRect.Contains (cell : CellRect) (row col : Int) : Prop :=
  (row, col) ∈ cells cell.row cell.col cell.rowSpan cell.colSpan

theorem CellRect.contains_iff {cell : CellRect} {row col : Int} :
    cell.Contains row col ↔
      (cell.row ≤ row ∧ row < cell.row + cell.rowSpan) ∧
        (cell.col ≤ col ∧ col < cell.col + cell.colSpan) :=
  mem_cells

/-- No cell is in both rectangles. -/
def CellRect.Disjoint (a b : CellRect) : Prop :=
  ∀ row col, a.Contains row col → ¬ b.Contains row col

/-- The rectangle begins in the first row and column or after them, and spans
at least one of each. -/
structure CellRect.Proper (cell : CellRect) : Prop where
  row_pos : 1 ≤ cell.row
  col_pos : 1 ≤ cell.col
  rowSpan_pos : 1 ≤ cell.rowSpan
  colSpan_pos : 1 ≤ cell.colSpan

/-- The rectangle ends within the bounds. -/
def CellRect.Within (cell : CellRect) (maxRow maxCol : Int) : Prop :=
  cell.row + cell.rowSpan - 1 ≤ maxRow ∧ cell.col + cell.colSpan - 1 ≤ maxCol

theorem clipSpan_proper (row col : Int) {rowSpan colSpan maxRow maxCol : Int}
    (hrowSpan : 1 ≤ rowSpan) (hcolSpan : 1 ≤ colSpan) (hmaxRow : 1 ≤ maxRow)
    (hmaxCol : 1 ≤ maxCol) :
    (clipSpan row col rowSpan colSpan maxRow maxCol).Proper := by
  have hr : ¬ clamp (row + rowSpan - 1) 1 maxRow < clamp row 1 maxRow := by
    unfold clamp
    omega
  have hc : ¬ clamp (col + colSpan - 1) 1 maxCol < clamp col 1 maxCol := by
    unfold clamp
    omega
  simp only [clipSpan, if_neg hr, if_neg hc]
  constructor
  · simp only [clamp]
    omega
  · simp only [clamp]
    omega
  · simp only
    omega
  · simp only
    omega

/-! ## Settled layers -/

/-- A layer without an explicit position. -/
def GridChild.Auto (layer : GridChild) : Prop :=
  layer.grid.row = 0 ∧ layer.grid.col = 0

instance (layer : GridChild) : Decidable layer.Auto :=
  inferInstanceAs (Decidable (_ ∧ _))

/-- What the algorithm reads of a layer. -/
def GridChild.request (layer : GridChild) : Bool × CellRect :=
  (layer.visible, layer.grid)

/-- The place is within the grid, and its cells are marked. -/
structure Autopos.Settled (s : Autopos A) (cell : CellRect) : Prop where
  proper : cell.Proper
  within : cell.Within s.maxRow s.maxCol
  marked : ∀ row col, cell.Contains row col → s.occupied.Marked row col

/-- The bounds grow and marks stay. -/
structure Autopos.Extends (s s' : Autopos A) : Prop where
  maxRow : s.maxRow ≤ s'.maxRow
  maxCol : s.maxCol ≤ s'.maxCol
  marked : ∀ row col, s.occupied.Marked row col → s'.occupied.Marked row col

theorem Autopos.Extends.refl (s : Autopos A) : s.Extends s :=
  ⟨le_refl _, le_refl _, fun _ _ => id⟩

theorem Autopos.Extends.trans {s s' s'' : Autopos A} (h : s.Extends s')
    (h' : s'.Extends s'') : s.Extends s'' :=
  ⟨h.maxRow.trans h'.maxRow, h.maxCol.trans h'.maxCol,
    fun row col hm => h'.marked row col (h.marked row col hm)⟩

theorem Autopos.Settled.mono {s s' : Autopos A} {cell : CellRect}
    (h : s.Settled cell) (hext : s.Extends s') : s'.Settled cell :=
  ⟨h.proper, ⟨h.within.1.trans hext.maxRow, h.within.2.trans hext.maxCol⟩,
    fun row col hc => hext.marked row col (h.marked row col hc)⟩

/-- A layer that is left for the cursor: its span fits the main axis. -/
structure Autopos.Waits (colFirst : Bool) (s : Autopos A) (cell : CellRect) :
    Prop where
  row : cell.row = 0
  rowSpan_pos : 1 ≤ cell.rowSpan
  colSpan_pos : 1 ≤ cell.colSpan
  fits : if colFirst then cell.colSpan ≤ s.maxCol else cell.rowSpan ≤ s.maxRow

theorem Autopos.Waits.mono {colFirst : Bool} {s s' : Autopos A}
    {cell : CellRect} (h : s.Waits colFirst cell) (hext : s.Extends s') :
    s'.Waits colFirst cell := by
  obtain ⟨hrow, hrowSpan, hcolSpan, hfits⟩ := h
  refine ⟨hrow, hrowSpan, hcolSpan, ?_⟩
  cases colFirst with
  | true => exact le_trans hfits hext.maxCol
  | false => exact le_trans hfits hext.maxRow

/-- The spans of an automatically positioned layer are those that it asks for. -/
def GridChild.SpansKept (layer : GridChild) : Prop :=
  layer.visible = true → layer.Auto →
    layer.cell.rowSpan = max 1 layer.grid.rowSpan ∧
      layer.cell.colSpan = max 1 layer.grid.colSpan

/-- What is known of a layer between the passes. -/
def Autopos.Ready (colFirst : Bool) (s : Autopos A) (layer : GridChild) : Prop :=
  layer.visible = true →
    (layer.Auto ∧ s.Waits colFirst layer.cell) ∨
      (¬ layer.Auto ∧ s.Settled layer.cell)

theorem Autopos.Ready.mono {colFirst : Bool} {s s' : Autopos A}
    {layer : GridChild} (h : s.Ready colFirst layer) (hext : s.Extends s') :
    s'.Ready colFirst layer :=
  fun hvisible => (h hvisible).imp
    (fun hauto => ⟨hauto.1, hauto.2.mono hext⟩)
    (fun hfixed => ⟨hfixed.1, hfixed.2.mono hext⟩)

/-- The bitmap has cells. -/
def Autopos.HasCells (s : Autopos A) : Prop :=
  1 ≤ s.occupied.rows ∧ 1 ≤ s.occupied.cols

theorem Autopos.HasCells.valid {s : Autopos A} (h : s.HasCells) :
    s.occupied.Valid := by
  obtain ⟨hrows, hcols⟩ := h
  exact ⟨by omega, by omega⟩

/-- Marking a place settles it, as soon as the bounds include it. -/
theorem Autopos.settled_occupy (hA : A.Lawful) {s : Autopos A}
    (s' : Autopos A) (h : s.HasCells) {cell : CellRect} (hcell : cell.Proper)
    (hocc : s'.occupied = (s.occupy cell).occupied)
    (hrow : s.maxRow ≤ s'.maxRow) (hcol : s.maxCol ≤ s'.maxCol)
    (hwithin : cell.Within s'.maxRow s'.maxCol) :
    s.Extends s' ∧ s'.HasCells ∧ s'.Settled cell := by
  have hmark := markedRect_mark hA h.valid hcell.row_pos hcell.col_pos
    cell.rowSpan cell.colSpan
  refine ⟨⟨hrow, hcol, ?_⟩, ?_, ⟨hcell, hwithin, ?_⟩⟩
  · rw [hocc]
    exact hmark.old
  · rw [HasCells, hocc]
    exact ⟨hmark.rows_pos, hmark.cols_pos⟩
  · rw [hocc]
    exact hmark.new

/-! ## Explicit positions -/

/-- What the first pass does to its variables and to a layer. -/
structure PlacesExplicit (colFirst : Bool) (s s' : Autopos A)
    (layer layer' : GridChild) : Prop where
  extends_ : s.Extends s'
  hasCells : s'.HasCells
  negative : s'.negativeIndices = s.negativeIndices
  missing : s.missingIndices = true ∨ (layer.visible = true ∧ layer.Auto) →
    s'.missingIndices = true
  request : layer'.request = layer.request
  spans : layer'.SpansKept
  ready : s'.Ready colFirst layer'

theorem placeExplicit_spec (hA : A.Lawful) (colFirst : Bool) {s : Autopos A}
    (h : s.HasCells) (layer : GridChild) :
    PlacesExplicit colFirst s (placeExplicit colFirst s layer).1 layer
      (placeExplicit colFirst s layer).2 := by
  unfold placeExplicit
  by_cases hvisible : layer.visible = true
  · rw [if_pos hvisible]
    by_cases hexplicit : layer.grid.row ≠ 0 ∨ layer.grid.col ≠ 0
    · have hpositive : 0 < max 1 layer.grid.row ∧ 0 < max 1 layer.grid.col := by
        omega
      have hauto : ¬ layer.Auto := by
        rintro ⟨hrow, hcol⟩
        omega
      have hproper : (clipSpan (max 1 layer.grid.row) (max 1 layer.grid.col)
          (max 1 layer.grid.rowSpan) (max 1 layer.grid.colSpan)
          maxint maxint).Proper :=
        clipSpan_proper _ _ (by omega) (by omega) (by decide) (by decide)
      simp only [if_pos hexplicit, if_pos hpositive]
      set cell := clipSpan (max 1 layer.grid.row) (max 1 layer.grid.col)
        (max 1 layer.grid.rowSpan) (max 1 layer.grid.colSpan) maxint maxint
      obtain ⟨hext, hcells, hsettled⟩ := Autopos.settled_occupy hA
        { s.occupy cell with
          maxRow := max s.maxRow (cell.row + cell.rowSpan - 1)
          maxCol := max s.maxCol (cell.col + cell.colSpan - 1) }
        h hproper rfl (le_max_left _ _) (le_max_left _ _)
        ⟨le_max_right _ _, le_max_right _ _⟩
      refine ⟨hext, hcells, rfl, ?_, rfl, fun _ hauto' => absurd hauto' hauto,
        fun _ => Or.inr ⟨hauto, hsettled⟩⟩
      rintro (hmissing | ⟨-, hauto'⟩)
      · exact hmissing
      · exact absurd hauto' hauto
    · have hrow : layer.grid.row = 0 := by omega
      have hcol : layer.grid.col = 0 := by omega
      have hrowSpan : |max 1 layer.grid.rowSpan| = max 1 layer.grid.rowSpan :=
        abs_of_nonneg (by omega)
      have hcolSpan : |max 1 layer.grid.colSpan| = max 1 layer.grid.colSpan :=
        abs_of_nonneg (by omega)
      simp only [if_neg hexplicit, hrowSpan, hcolSpan]
      refine ⟨⟨?_, ?_, fun _ _ => id⟩, h, rfl, fun _ => rfl, rfl,
        fun _ _ => ⟨rfl, rfl⟩,
        fun _ => Or.inl ⟨⟨hrow, hcol⟩, hrow, le_max_left _ _, le_max_left _ _, ?_⟩⟩
      · cases colFirst
        · exact le_max_left _ _
        · exact le_refl _
      · cases colFirst
        · exact le_refl _
        · exact le_max_left _ _
      · cases colFirst
        · exact le_max_right _ _
        · exact le_max_right _ _
  · rw [if_neg hvisible]
    refine ⟨Autopos.Extends.refl s, h, rfl, ?_, rfl, fun hv => absurd hv hvisible,
      fun hv => absurd hv hvisible⟩
    rintro (hmissing | ⟨hv, -⟩)
    · exact hmissing
    · exact absurd hv hvisible

/-- What the first pass leaves. -/
structure PlacedExplicit (colFirst : Bool) (s s' : Autopos A)
    (layers layers' : List GridChild) : Prop where
  extends_ : s.Extends s'
  hasCells : s'.HasCells
  negative : s'.negativeIndices = s.negativeIndices
  missing : (s.missingIndices = true ∨
    ∃ layer ∈ layers', layer.visible = true ∧ layer.Auto) →
      s'.missingIndices = true
  request : layers'.map GridChild.request = layers.map GridChild.request
  spans : ∀ layer ∈ layers', layer.SpansKept
  ready : ∀ layer ∈ layers', s'.Ready colFirst layer

theorem placedExplicit_forLayers (hA : A.Lawful) (colFirst : Bool)
    (layers : List GridChild) {s : Autopos A} (h : s.HasCells) :
    PlacedExplicit colFirst s (forLayers (placeExplicit colFirst) s layers).1
      layers (forLayers (placeExplicit colFirst) s layers).2 := by
  induction layers generalizing s with
  | nil =>
      refine ⟨Autopos.Extends.refl s, h, rfl, ?_, rfl,
        fun _ hl => absurd hl List.not_mem_nil, fun _ hl => absurd hl List.not_mem_nil⟩
      rintro (hmissing | ⟨_, hl, -⟩)
      · exact hmissing
      · exact absurd hl List.not_mem_nil
  | cons layer layers ih =>
      have hone := placeExplicit_spec hA colFirst h layer
      have hrest := ih hone.hasCells
      simp only [forLayers]
      refine ⟨hone.extends_.trans hrest.extends_, hrest.hasCells,
        hrest.negative.trans hone.negative, ?_, ?_,
        List.forall_mem_cons.mpr ⟨hone.spans, hrest.spans⟩, ?_⟩
      · rintro (hmissing | ⟨l, hl, hvisible, hauto⟩)
        · exact hrest.missing (Or.inl (hone.missing (Or.inl hmissing)))
        · rcases List.mem_cons.mp hl with rfl | hl
          · have hvisible' : layer.visible = true :=
              (congrArg Prod.fst hone.request).symm.trans hvisible
            have hgrid : (placeExplicit colFirst s layer).2.grid = layer.grid :=
              congrArg Prod.snd hone.request
            have hauto' : layer.Auto := by
              rwa [GridChild.Auto, hgrid] at hauto
            exact hrest.missing
              (Or.inl (hone.missing (Or.inr ⟨hvisible', hauto'⟩)))
          · exact hrest.missing (Or.inr ⟨l, hl, hvisible, hauto⟩)
      · rw [List.map_cons, List.map_cons, hone.request, hrest.request]
      · intro l hl
        rcases List.mem_cons.mp hl with rfl | hl
        · exact hone.ready.mono hrest.extends_
        · exact hrest.ready l hl

/-! ## The cursor -/

/-- A position comes before another one, line by line. -/
def Before (colFirst : Bool) (row col row' col' : Int) : Prop :=
  if colFirst then row < row' ∨ (row = row' ∧ col < col')
  else col < col' ∨ (col = col' ∧ row < row')

instance (colFirst : Bool) (row col row' col' : Int) :
    Decidable (Before colFirst row col row' col') :=
  inferInstanceAs (Decidable (ite _ _ _))

/-- The cursor is in the grid, or right after the end of a line. -/
structure Autopos.CursorAt (colFirst : Bool) (s : Autopos A) (row col : Int) :
    Prop where
  row_pos : 1 ≤ row
  col_pos : 1 ≤ col
  in_line : if colFirst then col ≤ s.maxCol + 1 else row ≤ s.maxRow + 1

/-- Where a span that fits the main axis is put when the cursor is at a
position: not before it, and not over the end of the line. -/
structure Autopos.Lands (colFirst : Bool) (s : Autopos A)
    (row col rowSpan colSpan row' col' : Int) : Prop where
  row_pos : 1 ≤ row'
  col_pos : 1 ≤ col'
  fits : if colFirst then col' + colSpan - 1 ≤ s.maxCol
    else row' + rowSpan - 1 ≤ s.maxRow
  not_before : ¬ Before colFirst row' col' row col

section Search

variable {colFirst : Bool} {s : Autopos A} {row col rowSpan colSpan : Int}

theorem lands_wrapCursor (h : s.CursorAt colFirst row col)
    (hfits : if colFirst then colSpan ≤ s.maxCol else rowSpan ≤ s.maxRow) :
    s.Lands colFirst row col rowSpan colSpan
      (s.wrapCursor colFirst row col rowSpan colSpan).1
      (s.wrapCursor colFirst row col rowSpan colSpan).2 := by
  obtain ⟨hrow, hcol, hline⟩ := h
  unfold Autopos.wrapCursor
  cases colFirst with
  | true =>
      simp only [if_true, true_and] at hfits hline ⊢
      by_cases hwrap : s.maxCol < col + colSpan - 1
      · rw [if_pos hwrap]
        refine ⟨by simp only; omega, le_refl 1, ?_, ?_⟩
        · simp only [if_true]
          omega
        · simp only [Before, if_true]
          omega
      · rw [if_neg hwrap, if_neg (by simp)]
        refine ⟨hrow, hcol, ?_, ?_⟩
        · simp only [if_true]
          omega
        · simp only [Before, if_true]
          omega
  | false =>
      simp only [Bool.false_eq_true, if_false, false_and, not_false_eq_true,
        true_and] at hfits hline ⊢
      by_cases hwrap : s.maxRow < row + rowSpan - 1
      · rw [if_pos hwrap]
        refine ⟨le_refl 1, by simp only; omega, ?_, ?_⟩
        · simp only [Bool.false_eq_true, if_false]
          omega
        · simp only [Before, Bool.false_eq_true, if_false]
          omega
      · rw [if_neg hwrap]
        refine ⟨hrow, hcol, ?_, ?_⟩
        · simp only [Bool.false_eq_true, if_false]
          omega
        · simp only [Before, Bool.false_eq_true, if_false]
          omega

/-- The number of steps that the cursor can still make before it is past every
cell that the bitmap has a bit for. -/
def Autopos.stepsLeft (colFirst : Bool) (s : Autopos A) (row col : Int) : ℕ :=
  if colFirst then
    (A.len s.occupied.bits + 1 - row).toNat * (s.maxCol + 2).toNat +
      (s.maxCol + 1 - col).toNat
  else
    (A.len s.occupied.bits + 1 - col).toNat * (s.maxRow + 2).toNat +
      (s.maxRow + 1 - row).toNat

/-- An occupied place does not begin past the bits of the bitmap. -/
theorem le_len_of_check (hA : A.Lawful) (hcells : s.HasCells) (hrow : 1 ≤ row)
    (hcol : 1 ≤ col) (hcheck : s.occupied.check row col rowSpan colSpan = true) :
    row ≤ A.len s.occupied.bits ∧ col ≤ A.len s.occupied.bits := by
  obtain ⟨r, c, hcell, hindex⟩ := exists_index_lt_of_check hA hcheck
  rw [mem_cells] at hcell
  have hrows : (r - 1) * 1 ≤ (r - 1) * s.occupied.cols :=
    mul_le_mul_of_nonneg_left hcells.2 (by omega)
  omega

theorem steps_lt {len last cross main cross' main' : Int} (hmain : main ≤ last + 1)
    (hpos : 1 ≤ main') (hlast : main' ≤ last) (hlen : cross' ≤ len)
    (hnext : cross < cross' ∨ (cross = cross' ∧ main ≤ main')) :
    (len + 1 - cross').toNat * (last + 2).toNat + (last + 1 - (main' + 1)).toNat <
      (len + 1 - cross).toNat * (last + 2).toNat + (last + 1 - main).toNat := by
  rcases hnext with hline | ⟨rfl, hstep⟩
  · have hmul : ((len + 1 - cross').toNat + 1) * (last + 2).toNat ≤
        (len + 1 - cross).toNat * (last + 2).toNat :=
      Nat.mul_le_mul_right _ (by omega)
    rw [add_mul, one_mul] at hmul
    omega
  · omega

/-- A step over an occupied place. -/
theorem stepsLeft_lt (hA : A.Lawful) (hcells : s.HasCells)
    (h : s.CursorAt colFirst row col) (hrowSpan : 1 ≤ rowSpan)
    (hcolSpan : 1 ≤ colSpan) {row' col' : Int}
    (hlands : s.Lands colFirst row col rowSpan colSpan row' col')
    (hcheck : s.occupied.check row' col' rowSpan colSpan = true) :
    s.CursorAt colFirst (if colFirst then row' else row' + 1)
        (if colFirst then col' + 1 else col') ∧
      s.stepsLeft colFirst (if colFirst then row' else row' + 1)
        (if colFirst then col' + 1 else col') < s.stepsLeft colFirst row col := by
  obtain ⟨hrow, hcol, hline⟩ := h
  obtain ⟨hrow', hcol', hfits, hnot⟩ := hlands
  obtain ⟨hrowlen, hcollen⟩ := le_len_of_check hA hcells hrow' hcol' hcheck
  cases colFirst with
  | true =>
      simp only [if_true, Before] at hline hfits hnot ⊢
      refine ⟨⟨hrow', by omega, ?_⟩, ?_⟩
      · simp only [if_true]
        omega
      · exact steps_lt hline hcol' (by omega) hrowlen (by omega)
  | false =>
      simp only [Bool.false_eq_true, if_false, Before] at hline hfits hnot ⊢
      refine ⟨⟨by omega, hcol', ?_⟩, ?_⟩
      · simp only [Bool.false_eq_true, if_false]
        omega
      · exact steps_lt hline hrow' (by omega) hcollen (by omega)

/-- The search ends at a place that is not occupied. -/
structure Autopos.Finds (colFirst : Bool) (s : Autopos A)
    (row col rowSpan colSpan row' col' : Int) : Prop where
  lands : s.Lands colFirst row col rowSpan colSpan row' col'
  free : s.occupied.check row' col' rowSpan colSpan = false

theorem search_finds (hA : A.Lawful) (hcells : s.HasCells)
    (h : s.CursorAt colFirst row col) (hrowSpan : 1 ≤ rowSpan)
    (hcolSpan : 1 ≤ colSpan)
    (hfits : if colFirst then colSpan ≤ s.maxCol else rowSpan ≤ s.maxRow) :
    ∃ row' col', s.Finds colFirst row col rowSpan colSpan row' col' ∧
      ∀ fuel, s.stepsLeft colFirst row col < fuel →
        s.search colFirst rowSpan colSpan fuel row col = some (row', col') := by
  induction hsteps : s.stepsLeft colFirst row col using Nat.strong_induction_on
    generalizing row col with
  | _ n ih =>
      have hlands := lands_wrapCursor h hfits
      rcases hwrap : s.wrapCursor colFirst row col rowSpan colSpan with ⟨row1, col1⟩
      rw [hwrap] at hlands
      cases hcheck : s.occupied.check row1 col1 rowSpan colSpan with
      | false =>
          refine ⟨row1, col1, ⟨hlands, hcheck⟩, ?_⟩
          intro fuel hfuel
          cases fuel with
          | zero => omega
          | succ fuel =>
              simp only [Autopos.search, hwrap, hcheck, Bool.false_eq_true,
                if_false]
      | true =>
          obtain ⟨hcursor, hlt⟩ :=
            stepsLeft_lt hA hcells h hrowSpan hcolSpan hlands hcheck
          obtain ⟨row', col', ⟨hlands', hfree⟩, hrun⟩ :=
            ih _ (hsteps ▸ hlt) hcursor rfl
          refine ⟨row', col', ⟨⟨hlands'.row_pos, hlands'.col_pos, hlands'.fits, ?_⟩,
            hfree⟩, ?_⟩
          · have hthere := hlands'.not_before
            have hhere := hlands.not_before
            cases colFirst with
            | true =>
                simp only [Before, if_true] at hthere hhere ⊢
                omega
            | false =>
                simp only [Before, Bool.false_eq_true, if_false] at hthere hhere ⊢
                omega
          · intro fuel hfuel
            cases fuel with
            | zero => omega
            | succ fuel =>
                have hnext := hrun fuel (by omega)
                simp only [Autopos.search, hwrap, hcheck, if_true]
                cases colFirst with
                | true => exact hnext
                | false => exact hnext

end Search

/-! ## Automatic positions -/

/-- Of two layers one of which is positioned automatically, the places are
disjoint. -/
def Apart (a b : GridChild) : Prop :=
  a.visible = true → b.visible = true → a.Auto ∨ b.Auto →
    a.cell.Disjoint b.cell

/-- Of two layers that are positioned automatically, the first one comes first. -/
def Ordered (colFirst : Bool) (a b : GridChild) : Prop :=
  a.visible = true → b.visible = true → a.Auto → b.Auto →
    Before colFirst a.cell.row a.cell.col b.cell.row b.cell.col

/-- Of two layers that are positioned automatically, the second one is not placed before
the end of the first one. -/
def Follows (colFirst : Bool) (a b : GridChild) : Prop :=
  a.visible = true → b.visible = true → a.Auto → b.Auto →
    ¬ Before colFirst b.cell.row b.cell.col
      (if colFirst then a.cell.row else a.cell.row + a.cell.rowSpan)
      (if colFirst then a.cell.col + a.cell.colSpan else a.cell.col)

/-- What the last pass does. -/
structure PlacesMissing (colFirst : Bool) (s : Autopos A) (row col : Int)
    (s' : Autopos A) (layers layers' : List GridChild) : Prop where
  request : layers'.map GridChild.request = layers.map GridChild.request
  spans : ∀ l ∈ layers', l.SpansKept
  settled : ∀ l ∈ layers', l.visible = true → s'.Settled l.cell
  after : ∀ l ∈ layers', l.visible = true → l.Auto →
    ¬ Before colFirst l.cell.row l.cell.col row col
  follows : layers'.Pairwise (Follows colFirst)

theorem placesMissing_nil (colFirst : Bool) (s : Autopos A) (row col : Int) :
    PlacesMissing colFirst s row col s [] [] := by
  refine ⟨rfl, ?_, ?_, ?_, List.Pairwise.nil⟩ <;>
    exact fun _ h => absurd h List.not_mem_nil

/-- A layer that already has a place is left where it is. -/
theorem placesMissing_cons_fixed {colFirst : Bool} {s s' : Autopos A}
    {row col : Int} {layer : GridChild} {layers layers' : List GridChild}
    (hext : s.Extends s')
    (hfixed : layer.visible = true → ¬ layer.Auto ∧ s.Settled layer.cell)
    (h : PlacesMissing colFirst s row col s' layers layers') :
    PlacesMissing colFirst s row col s' (layer :: layers) (layer :: layers') := by
  have hnot : layer.visible = true → ¬ layer.Auto := fun hv => (hfixed hv).1
  constructor
  · rw [List.map_cons, List.map_cons, h.request]
  · rw [List.forall_mem_cons]
    exact ⟨fun hv hauto => absurd hauto (hnot hv), h.spans⟩
  · rw [List.forall_mem_cons]
    exact ⟨fun hv => (hfixed hv).2.mono hext, h.settled⟩
  · rw [List.forall_mem_cons]
    exact ⟨fun hv hauto => absurd hauto (hnot hv), h.after⟩
  · refine List.pairwise_cons.mpr ⟨?_, h.follows⟩
    intro l hl hv hvl hauto
    exact absurd hauto (hnot hv)

/-- A layer that is put where the search ends. -/
theorem placesMissing_cons_auto {colFirst : Bool} {s s1 s' : Autopos A}
    {row col : Int} {layer : GridChild} {layers layers' : List GridChild}
    {cell : CellRect} (hspans : ({ layer with cell := cell } : GridChild).SpansKept)
    (hext' : s1.Extends s') (hsettled : s1.Settled cell)
    (hlands : s.Lands colFirst row col cell.rowSpan cell.colSpan cell.row cell.col)
    (h : PlacesMissing colFirst s1
      (if colFirst then cell.row else cell.row + cell.rowSpan)
      (if colFirst then cell.col + cell.colSpan else cell.col) s' layers layers') :
    PlacesMissing colFirst s row col s' (layer :: layers)
      ({ layer with cell := cell } :: layers') := by
  have hnext := hlands.not_before
  have hrowSpan := hsettled.proper.rowSpan_pos
  have hcolSpan := hsettled.proper.colSpan_pos
  constructor
  · rw [List.map_cons, List.map_cons, h.request]
    rfl
  · exact List.forall_mem_cons.mpr ⟨hspans, h.spans⟩
  · rw [List.forall_mem_cons]
    exact ⟨fun _ => hsettled.mono hext', h.settled⟩
  · rw [List.forall_mem_cons]
    refine ⟨fun _ _ => hnext, fun l hl hv hautol => ?_⟩
    have hafter := h.after l hl hv hautol
    cases colFirst with
    | true =>
        simp only [Before, if_true] at hnext hafter ⊢
        omega
    | false =>
        simp only [Before, Bool.false_eq_true, if_false] at hnext hafter ⊢
        omega
  · exact List.pairwise_cons.mpr
      ⟨fun l hl _ hv _ hautol => h.after l hl hv hautol, h.follows⟩

/-- The variables after a layer has been put at the cursor. -/
def Autopos.afterPlace (colFirst : Bool) (s : Autopos A) (cell : CellRect) :
    Autopos A :=
  { s.occupy cell with
    maxRow := if colFirst then max s.maxRow (cell.row + cell.rowSpan - 1)
      else s.maxRow
    maxCol := if colFirst then s.maxCol
      else max s.maxCol (cell.col + cell.colSpan - 1) }

theorem afterPlace_spec (hA : A.Lawful) {colFirst : Bool} {s : Autopos A}
    (hcells : s.HasCells) {cell : CellRect} (hproper : cell.Proper)
    (hfits : if colFirst then cell.col + cell.colSpan - 1 ≤ s.maxCol
      else cell.row + cell.rowSpan - 1 ≤ s.maxRow) :
    s.Extends (s.afterPlace colFirst cell) ∧
      (s.afterPlace colFirst cell).HasCells ∧
      (s.afterPlace colFirst cell).Settled cell ∧
      (s.afterPlace colFirst cell).CursorAt colFirst
        (if colFirst then cell.row else cell.row + cell.rowSpan)
        (if colFirst then cell.col + cell.colSpan else cell.col) := by
  obtain ⟨hrow, hcol, hrowSpan, hcolSpan⟩ := hproper
  cases colFirst with
  | true =>
      simp only [if_true] at hfits ⊢
      obtain ⟨hext, hcells', hsettled⟩ := Autopos.settled_occupy hA
        (s.afterPlace true cell) hcells ⟨hrow, hcol, hrowSpan, hcolSpan⟩ rfl
        (le_max_left _ _) (le_refl _) ⟨le_max_right _ _, hfits⟩
      refine ⟨hext, hcells', hsettled, hrow, by omega, ?_⟩
      simp only [Autopos.afterPlace, if_true]
      omega
  | false =>
      simp only [Bool.false_eq_true, if_false] at hfits ⊢
      obtain ⟨hext, hcells', hsettled⟩ := Autopos.settled_occupy hA
        (s.afterPlace false cell) hcells ⟨hrow, hcol, hrowSpan, hcolSpan⟩ rfl
        (le_refl _) (le_max_left _ _) ⟨hfits, le_max_right _ _⟩
      refine ⟨hext, hcells', hsettled, by omega, hcol, ?_⟩
      simp only [Autopos.afterPlace, Bool.false_eq_true, if_false]
      omega

theorem placeMissing_spec (hA : A.Lawful) (colFirst : Bool)
    (layers : List GridChild) {s : Autopos A} {row col : Int} (hcells : s.HasCells)
    (hcursor : s.CursorAt colFirst row col)
    (hspans : ∀ l ∈ layers, l.SpansKept) (hready : ∀ l ∈ layers, s.Ready colFirst l) :
    ∃ n s' layers', (∀ fuel, n ≤ fuel →
        placeMissing fuel colFirst s row col layers = some (s', layers')) ∧
      s.Extends s' ∧ PlacesMissing colFirst s row col s' layers layers' := by
  induction layers generalizing s row col with
  | nil =>
      exact ⟨0, s, [], fun _ _ => rfl, Autopos.Extends.refl s,
        placesMissing_nil colFirst s row col⟩
  | cons layer layers ih =>
      rw [List.forall_mem_cons] at hready hspans
      by_cases hwaits : layer.visible = true ∧ layer.cell.row = 0
      · obtain ⟨-, hwait⟩ | ⟨-, hsettled⟩ := hready.1 hwaits.1
        rotate_left
        · have hrow := hsettled.proper.row_pos
          omega
        obtain ⟨r, c, hfinds, hsearch⟩ := search_finds hA hcells hcursor
          hwait.rowSpan_pos hwait.colSpan_pos hwait.fits
        have hproper : CellRect.Proper ⟨r, c, layer.cell.rowSpan,
            layer.cell.colSpan⟩ :=
          ⟨hfinds.lands.row_pos, hfinds.lands.col_pos, hwait.rowSpan_pos,
            hwait.colSpan_pos⟩
        obtain ⟨hext, hcells', hsettled, hcursor'⟩ :=
          afterPlace_spec hA hcells hproper hfinds.lands.fits
        have hkept : GridChild.SpansKept { layer with
            cell := ⟨r, c, layer.cell.rowSpan, layer.cell.colSpan⟩ } :=
          fun hv hauto' => hspans.1 hv hauto'
        obtain ⟨n, s', layers', hrun, hext', hplaces⟩ := ih hcells' hcursor' hspans.2
          fun l hl => (hready.2 l hl).mono hext
        refine ⟨max n (s.stepsLeft colFirst row col + 1), s', _, ?_,
          hext.trans hext', placesMissing_cons_auto hkept hext' hsettled hfinds.lands
            hplaces⟩
        intro fuel hfuel
        have hfound := hsearch fuel (by omega)
        have hrest := hrun fuel (by omega)
        simp only [placeMissing, if_pos hwaits, hfound, Option.bind_eq_bind,
          Option.bind_some]
        cases colFirst with
        | true =>
            simp only [Autopos.afterPlace, if_true] at hrest ⊢
            rw [hrest]
            rfl
        | false =>
            simp only [Autopos.afterPlace, Bool.false_eq_true, if_false] at hrest ⊢
            rw [hrest]
            rfl
      · obtain ⟨n, s', layers', hrun, hext, hplaces⟩ := ih hcells hcursor hspans.2 hready.2
        refine ⟨n, s', layer :: layers', ?_, hext,
          placesMissing_cons_fixed hext ?_ hplaces⟩
        · intro fuel hfuel
          simp only [placeMissing, if_neg hwaits, hrun fuel hfuel]
          rfl
        · intro hv
          obtain ⟨-, hwait⟩ | hfixed := hready.1 hv
          · exact absurd ⟨hv, hwait.row⟩ hwaits
          · exact hfixed

/-! ## All passes -/

theorem hasCells_autopos (hA : A.Lawful) (grid : GridLayout)
    {occupied : BoolBitmap A} (h : occupied.Valid) :
    (grid.autopos occupied).HasCells :=
  clear_dims hA h

/-- The positions before rows and columns are reversed. -/
structure Positions (colFirst : Bool) (s : Autopos A)
    (layers layers' : List GridChild) : Prop where
  request : layers'.map GridChild.request = layers.map GridChild.request
  spans : ∀ l ∈ layers', l.SpansKept
  settled : ∀ l ∈ layers', l.visible = true → s.Settled l.cell
  follows : layers'.Pairwise (Follows colFirst)

theorem Positions.ordered {colFirst : Bool} {s : Autopos A} {layers layers' : List GridChild}
    (h : Positions colFirst s layers layers') : layers'.Pairwise (Ordered colFirst) := by
  refine h.follows.imp_of_mem fun {a b} ha _ hfollows hva hvb hautoa hautob => ?_
  have hlater := hfollows hva hvb hautoa hautob
  have hrowSpan := (h.settled a ha hva).proper.rowSpan_pos
  have hcolSpan := (h.settled a ha hva).proper.colSpan_pos
  cases colFirst with
  | true =>
      simp only [Before, if_true] at hlater ⊢
      omega
  | false =>
      simp only [Before, Bool.false_eq_true, if_false] at hlater ⊢
      omega

theorem placeLayers_spec (hA : A.Lawful) (grid : GridLayout)
    {occupied : BoolBitmap A} (hvalid : occupied.Valid)
    (layers : List GridChild) :
    ∃ n s layers', (∀ fuel, n ≤ fuel →
        grid.placeLayers fuel occupied layers = some (s, layers')) ∧
      Positions grid.colFirst s layers layers' := by
  have hplaced := placedExplicit_forLayers hA grid.colFirst layers
    (hasCells_autopos hA grid hvalid)
  rcases hfirst : forLayers (placeExplicit grid.colFirst) (grid.autopos occupied)
    layers with ⟨s1, layers1⟩
  rw [hfirst] at hplaced
  obtain ⟨hext, hcells, hnegative, hmissing, hrequest, hspans, hready⟩ := hplaced
  have hnegative : s1.negativeIndices = false := hnegative
  have hlayers : ∀ fuel, grid.placeLayers fuel occupied layers =
      if s1.missingIndices then placeMissing fuel grid.colFirst s1 1 1 layers1
      else some (s1, layers1) := by
    intro fuel
    simp only [GridLayout.placeLayers, hfirst, hnegative, Bool.false_eq_true,
      if_false]
  simp only [hlayers]
  by_cases hauto : s1.missingIndices = true
  · have hcursor : s1.CursorAt grid.colFirst 1 1 := by
      refine ⟨le_refl 1, le_refl 1, ?_⟩
      have hrow := hext.maxRow
      have hcol := hext.maxCol
      simp only [GridLayout.autopos] at hrow hcol
      split_ifs at hrow hcol ⊢
      · omega
      · omega
    obtain ⟨n, s', layers', hrun, -, hplaces⟩ :=
      placeMissing_spec hA grid.colFirst layers1 hcells hcursor hspans hready
    refine ⟨n, s', layers', ?_, hplaces.request.trans hrequest, hplaces.spans,
      hplaces.settled, hplaces.follows⟩
    intro fuel hfuel
    rw [if_pos hauto, hrun fuel hfuel]
  · have hnone : ∀ l ∈ layers1, l.visible = true → ¬ l.Auto :=
      fun l hl hv hl' => hauto (hmissing (Or.inr ⟨l, hl, hv, hl'⟩))
    refine ⟨0, s1, layers1, fun _ _ => if_neg hauto, hrequest, hspans, ?_, ?_⟩
    · intro l hl hv
      obtain ⟨hl', -⟩ | ⟨-, hsettled⟩ := hready l hl hv
      · exact absurd hl' (hnone l hl hv)
      · exact hsettled
    · refine List.pairwise_of_forall_mem_list fun a ha b hb hva _ hauto' _ => ?_
      exact absurd hauto' (hnone a ha hva)

/-! ## Reversing rows and columns -/

section Flip

variable {s : Autopos A} {flipRows flipCols : Bool} {layer : GridChild}

theorem flip_request (layer : GridChild) :
    (s.flip flipRows flipCols layer).request = layer.request := by
  by_cases hv : layer.visible = true
  · rw [Autopos.flip, if_pos hv]
    rfl
  · rw [Autopos.flip, if_neg hv]

/-- The reversed place of a visible layer. -/
theorem flip_cell (hv : layer.visible = true) :
    (s.flip flipRows flipCols layer).cell =
      ⟨if flipRows then s.maxRow - layer.cell.row - layer.cell.rowSpan + 2
          else layer.cell.row,
        if flipCols then s.maxCol - layer.cell.col - layer.cell.colSpan + 2
          else layer.cell.col,
        layer.cell.rowSpan, layer.cell.colSpan⟩ := by
  rw [Autopos.flip, if_pos hv]

/-- A cell is in the reversed place when its mirror image is in the place. -/
theorem flip_contains_iff (hv : layer.visible = true) (row col : Int) :
    (s.flip flipRows flipCols layer).cell.Contains row col ↔
      layer.cell.Contains (if flipRows then s.maxRow + 1 - row else row)
        (if flipCols then s.maxCol + 1 - col else col) := by
  rw [flip_cell hv, CellRect.contains_iff, CellRect.contains_iff]
  cases flipRows <;> cases flipCols <;>
    simp only [Bool.false_eq_true, if_false, if_true] <;> omega

theorem flip_proper (hv : layer.visible = true) (h : layer.cell.Proper)
    (hwithin : layer.cell.Within s.maxRow s.maxCol) :
    (s.flip flipRows flipCols layer).cell.Proper ∧
      (s.flip flipRows flipCols layer).cell.Within s.maxRow s.maxCol := by
  obtain ⟨hrow, hcol, hrowSpan, hcolSpan⟩ := h
  obtain ⟨hrowEnd, hcolEnd⟩ := hwithin
  rw [flip_cell hv]
  refine ⟨⟨?_, ?_, hrowSpan, hcolSpan⟩, ?_, ?_⟩
  · simp only
    split_ifs
    · omega
    · exact hrow
  · simp only
    split_ifs
    · omega
    · exact hcol
  · simp only
    split_ifs
    · omega
    · exact hrowEnd
  · simp only
    split_ifs
    · omega
    · exact hcolEnd

theorem flip_apart {a b : GridChild} (h : Apart a b) :
    Apart (s.flip flipRows flipCols a) (s.flip flipRows flipCols b) := by
  intro hva hvb hauto row col hina hinb
  have hva' : a.visible = true :=
    (congrArg Prod.fst (flip_request a)).symm.trans hva
  have hvb' : b.visible = true :=
    (congrArg Prod.fst (flip_request b)).symm.trans hvb
  have hga : (s.flip flipRows flipCols a).grid = a.grid :=
    congrArg Prod.snd (flip_request a)
  have hgb : (s.flip flipRows flipCols b).grid = b.grid :=
    congrArg Prod.snd (flip_request b)
  rw [flip_contains_iff hva'] at hina
  rw [flip_contains_iff hvb'] at hinb
  simp only [GridChild.Auto, hga, hgb] at hauto
  exact h hva' hvb' hauto _ _ hina hinb

end Flip

/-- The positions after rows and columns are reversed. -/
def flipLayers (s : Autopos A) (flipRows flipCols : Bool)
    (layers : List GridChild) : List GridChild :=
  if flipRows || flipCols then layers.map (s.flip flipRows flipCols) else layers

theorem syncAutopos_eq {fuel : ℕ} {grid : GridLayout} {occupied : BoolBitmap A}
    {s : Autopos A} {layers layers' : List GridChild}
    (h : grid.placeLayers fuel occupied layers = some (s, layers')) :
    grid.syncAutopos fuel occupied layers =
      some ({ grid with
          flipRows := grid.flow &&& gridFlowB != 0
          flipCols := grid.flow &&& gridFlowR != 0
          maxRow := s.maxRow
          maxCol := s.maxCol },
        flipLayers s (grid.flow &&& gridFlowB != 0) (grid.flow &&& gridFlowR != 0)
          layers') := by
  simp only [GridLayout.syncAutopos, h, flipLayers]
  rfl

theorem flipLayers_spec {colFirst : Bool} {s : Autopos A}
    {layers layers' : List GridChild} (h : Positions colFirst s layers layers')
    (flipRows flipCols : Bool) :
    (flipLayers s flipRows flipCols layers').map GridChild.request =
        layers.map GridChild.request ∧
      ∀ l ∈ flipLayers s flipRows flipCols layers', l.visible = true →
        l.cell.Proper ∧ l.cell.Within s.maxRow s.maxCol := by
  unfold flipLayers
  split_ifs
  · refine ⟨?_, ?_⟩
    · rw [List.map_map, ← h.request]
      exact List.map_congr_left fun l _ => flip_request l
    · intro l hl hv
      obtain ⟨m, hm, rfl⟩ := List.mem_map.mp hl
      have hv' : m.visible = true :=
        (congrArg Prod.fst (flip_request m)).symm.trans hv
      have hsettled := h.settled m hm hv'
      exact flip_proper hv' hsettled.proper hsettled.within
  · exact ⟨h.request, fun l hl hv => ⟨(h.settled l hl hv).proper, (h.settled l hl hv).within⟩⟩

theorem flipLayers_apart {s : Autopos A} {layers : List GridChild} (h : layers.Pairwise Apart)
    (flipRows flipCols : Bool) :
    (flipLayers s flipRows flipCols layers).Pairwise Apart := by
  unfold flipLayers
  split_ifs
  · exact h.map _ fun _ _ => flip_apart
  · exact h

/-! ## The positions of a grid -/

/-- Of two layers one of which is positioned automatically, both are, and the first one
spans a single line. -/
def InLine (colFirst : Bool) (a b : GridChild) : Prop :=
  a.visible = true → b.visible = true → a.Auto ∨ b.Auto →
    (a.Auto ∧ b.Auto) ∧ (if colFirst then a.grid.rowSpan else a.grid.colSpan) ≤ 1

instance (colFirst : Bool) : DecidableRel (InLine colFirst) := fun _ _ =>
  inferInstanceAs (Decidable (_ → _ → _ → _ ∧ _))

theorem apart_of_inLine {colFirst : Bool} {a b : GridChild} (hspans : a.SpansKept)
    (hfollows : Follows colFirst a b) (hline : InLine colFirst a b) : Apart a b := by
  intro hva hvb hor row col hina hinb
  obtain ⟨⟨hautoa, hautob⟩, hspan⟩ := hline hva hvb hor
  obtain ⟨hrowSpan, hcolSpan⟩ := hspans hva hautoa
  have hlater := hfollows hva hvb hautoa hautob
  rw [CellRect.contains_iff] at hina hinb
  cases colFirst with
  | true =>
      simp only [Before, if_true] at hlater hspan
      omega
  | false =>
      simp only [Before, Bool.false_eq_true, if_false] at hlater hspan
      omega

/-- The relation is one between what the algorithm reads. -/
theorem inLine_of_request {colFirst : Bool} {layers layers' : List GridChild}
    (h : layers'.map GridChild.request = layers.map GridChild.request)
    (hlines : layers.Pairwise (InLine colFirst)) : layers'.Pairwise (InLine colFirst) := by
  have hmap : ∀ l : List GridChild, l.Pairwise (InLine colFirst) ↔
      (l.map GridChild.request).Pairwise fun a b : Bool × CellRect =>
        InLine colFirst ⟨a.1, a.2, a.2⟩ ⟨b.1, b.2, b.2⟩ := by
    intro l
    rw [List.pairwise_map]
    rfl
  rw [hmap] at hlines ⊢
  rwa [h]

/-- A grid with rows of two cells that are filled from the right. -/
def gridOfTwo : GridLayout := ⟨4, 2, 1, false, false, 0, 0⟩

/-- The bitmap of the library. -/
def noneOccupied : BoolBitmap (listArr true) := ⟨0, 0, []⟩

/-- A layer in the first row and second column, and two others. -/
def threeLayers : List GridChild :=
  [⟨true, ⟨1, 2, 1, 1⟩, ⟨0, 0, 0, 0⟩⟩, ⟨true, ⟨0, 0, 1, 2⟩, ⟨0, 0, 0, 0⟩⟩,
    ⟨true, ⟨0, 0, 1, 1⟩, ⟨0, 0, 0, 0⟩⟩]

/-- Two layers of one row, and one of two rows. -/
def linedLayers : List GridChild :=
  [⟨true, ⟨0, 0, 1, 1⟩, ⟨0, 0, 0, 0⟩⟩, ⟨true, ⟨0, 0, 1, 2⟩, ⟨0, 0, 0, 0⟩⟩,
    ⟨true, ⟨0, 0, 2, 1⟩, ⟨0, 0, 0, 0⟩⟩]

/-- The search for a place ends for each layer, whatever is occupied. -/
theorem syncAutopos_ends (hA : A.Lawful) (grid : GridLayout) {occupied : BoolBitmap A}
    (hvalid : occupied.Valid) (layers : List GridChild) :
    ∃ n result, ∀ fuel, n ≤ fuel → grid.syncAutopos fuel occupied layers = some result := by
  obtain ⟨n, s, placed, hrun, -⟩ := placeLayers_spec hA grid hvalid layers
  exact ⟨n, _, fun fuel hfuel => syncAutopos_eq (hrun fuel hfuel)⟩

theorem syncAutopos_ends_three : ∃ n result, ∀ fuel, n ≤ fuel →
    gridOfTwo.syncAutopos fuel noneOccupied threeLayers = some result :=
  syncAutopos_ends (listArr_lawful true) gridOfTwo ⟨by decide, by decide⟩ threeLayers

example : (gridOfTwo.syncAutopos 20 noneOccupied threeLayers).map
    (fun r => r.2.map GridChild.cell) =
      some [⟨1, 1, 1, 1⟩, ⟨2, 1, 1, 2⟩, ⟨3, 2, 1, 1⟩] := by
  decide

end LuaAttic.Layerlib
