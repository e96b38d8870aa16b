import LuaAttic.Terra.Basic
import Mathlib.Tactic.Linarith
import Mathlib.Tactic.Ring

/-!
# Bitmaps of Booleans (`layerlib_layout.t`)

The cells of a grid that are occupied, in an array of rows.  A bitmap grows
when it is marked; then the rows are moved to their new places, last row first.
Cells that nothing was written to can hold anything, so what is relied upon is
that cells that are marked stay marked.
-/

namespace LuaAttic.Layerlib

open LuaAttic.Support LuaAttic.Terra

structure BoolBitmap (A : ArrOps Bool) where
  rows : Int
  cols : Int
  bits : A.Arr

namespace BoolBitmap

variable {A : ArrOps Bool}

/-- The index of a cell in the bits. -/
def index (bm : BoolBitmap A) (row col : Int) : Int :=
  (row - 1) * bm.cols + col - 1

def set (bm : BoolBitmap A) (row col : Int) (val : Bool) : BoolBitmap A :=
  { bm with bits := A.set bm.bits (bm.index row col) val false }

/-- The bit that is read is the one after the bit that `set` writes. -/
def get (bm : BoolBitmap A) (row col : Int) : Bool :=
  A.get bm.bits ((row - 1) * bm.cols + col) false

/-- Move the rows down to widen them. -/
def moveRows (bits : A.Arr) (rows cols newcols : Int) : A.Arr :=
  (forRange 0 rows).reverse.foldl
    (fun bits row => A.copy bits (row * newcols) (row * cols) cols) bits

def widen (bm : BoolBitmap A) (minRows minCols : Int) : BoolBitmap A :=
  let rows := doubleTo (max 1 bm.rows) minRows
  let cols := doubleTo (max 1 bm.cols) minCols
  if bm.rows < rows ∨ bm.cols < cols then
    let bits := A.setLen bm.bits (rows * cols)
    let bits :=
      if bm.cols < cols then moveRows bits bm.rows bm.cols cols else bits
    ⟨rows, cols, bits⟩
  else bm

/-- The cells of a rectangle, row by row. -/
def cells (row1 col1 rowSpan colSpan : Int) : List (Int × Int) :=
  (forRange row1 (row1 + rowSpan)).flatMap fun row =>
    (forRange col1 (col1 + colSpan)).map fun col => (row, col)

def mark (bm : BoolBitmap A) (row1 col1 rowSpan colSpan : Int) (val : Bool) :
    BoolBitmap A :=
  let row2 := row1 + rowSpan
  let col2 := col1 + colSpan
  (cells row1 col1 rowSpan colSpan).foldl
    (fun bm cell => bm.set cell.1 cell.2 val)
    (bm.widen (row2 - 1) (col2 - 1))

def check (bm : BoolBitmap A) (row1 col1 rowSpan colSpan : Int) : Bool :=
  (cells row1 col1 rowSpan colSpan).any fun cell => bm.get cell.1 cell.2

def clear (bm : BoolBitmap A) : BoolBitmap A :=
  bm.mark 1 1 bm.rows bm.cols false

/-! ## Marked cells -/

/-- The cell belongs to the bitmap and is marked. -/
structure Marked (bm : BoolBitmap A) (row col : Int) : Prop where
  row_pos : 1 ≤ row
  row_le : row ≤ bm.rows
  col_pos : 1 ≤ col
  col_le : col ≤ bm.cols
  is_set : A.get bm.bits (bm.index row col) false = true

theorem mem_cells {row1 col1 rowSpan colSpan row col : Int} :
    (row, col) ∈ cells row1 col1 rowSpan colSpan ↔
      (row1 ≤ row ∧ row < row1 + rowSpan) ∧
        (col1 ≤ col ∧ col < col1 + colSpan) := by
  simp [cells, mem_forRange]

/-! ## Moving rows -/

/-- The cells of a row come before those of the rows after it. -/
theorem row_add_lt {cols r n c : Int} (hcols : 0 ≤ cols) (hr : r < n)
    (hc : c < cols) : r * cols + c < n * cols := by
  have hstep : (r + 1) * cols ≤ n * cols :=
    mul_le_mul_of_nonneg_right hr hcols
  rw [add_mul, one_mul] at hstep
  omega

section MoveRows

variable {cols newcols : Int}

/-- The copy of one row is between ranges of the array. -/
theorem copyRanges_row (hcols : 1 ≤ cols) (hnew : cols * 2 ≤ newcols) {n : ℕ}
    {len : Int} (hlen : (n + 1 : ℕ) * newcols ≤ len) :
    CopyRanges len (n * newcols) (n * cols) cols := by
  have hn : (0 : Int) ≤ n := Int.natCast_nonneg n
  have hle : (n : Int) * cols ≤ n * newcols :=
    mul_le_mul_of_nonneg_left (by omega) hn
  have hzero : 0 ≤ (n : Int) * cols := mul_nonneg hn (by omega)
  push_cast at hlen
  rw [add_mul, one_mul] at hlen
  refine ⟨by omega, by omega, by omega, by omega, ?_⟩
  rcases Nat.eq_zero_or_pos n with rfl | hpos
  · exact Or.inl (by simp)
  · right
    right
    have hdouble : (n : Int) * (cols * 2) ≤ n * newcols :=
      mul_le_mul_of_nonneg_left hnew hn
    have hone : 1 * cols ≤ (n : Int) * cols :=
      mul_le_mul_of_nonneg_right (by omega) (by omega)
    rw [mul_comm cols 2, ← mul_assoc, mul_comm _ (2 : Int), mul_assoc] at hdouble
    omega

/-- Each row is moved to its new place, and what is past the moved rows is left
alone. -/
theorem moveRows_spec (hA : A.Lawful) (hcols : 1 ≤ cols)
    (hnew : cols * 2 ≤ newcols) (n : ℕ) (bits : A.Arr)
    (hlen : n * newcols ≤ A.len bits) :
    A.len (moveRows bits n cols newcols) = A.len bits ∧
      (∀ (r c : Int) d, 0 ≤ r → r < n → 0 ≤ c → c < cols →
        A.get (moveRows bits n cols newcols) (r * newcols + c) d =
          A.get bits (r * cols + c) d) ∧
      ∀ (j : Int) d, n * newcols ≤ j →
        A.get (moveRows bits n cols newcols) j d = A.get bits j d := by
  induction n generalizing bits with
  | zero =>
      refine ⟨rfl, fun r c d hr hlt => ?_, fun j d _ => rfl⟩
      simp only [Nat.cast_zero] at hlt
      omega
  | succ n ih =>
      have hranges := copyRanges_row hcols hnew hlen
      have hstep : moveRows bits (n + 1 : ℕ) cols newcols =
          moveRows (A.copy bits (n * newcols) (n * cols) cols) n cols newcols := by
        simp [moveRows, forRange, interval, List.range_succ]
      have hcopylen := hA.len_copy bits _ _ _ hranges
      have hle : (n : Int) * newcols ≤ (n + 1 : ℕ) * newcols :=
        mul_le_mul_of_nonneg_right (by push_cast; omega) (by omega)
      obtain ⟨ihlen, ihrows, ihrest⟩ :=
        ih (A.copy bits (n * newcols) (n * cols) cols) (by omega)
      rw [hstep]
      refine ⟨ihlen.trans hcopylen, ?_, ?_⟩
      · intro r c d hr hlt hc hclt
        push_cast at hlt
        by_cases hlast : r = n
        · rw [hlast, ihrest _ _ (by omega)]
          exact hA.get_copy bits _ _ _ _ _ hranges hc hclt
        · rw [ihrows r c d hr (by omega) hc hclt]
          have hbefore : r * cols + c < n * cols :=
            row_add_lt (by omega) (by omega) hclt
          have hnle : (n : Int) * cols ≤ n * newcols :=
            mul_le_mul_of_nonneg_left (by omega) (Int.natCast_nonneg n)
          have hrow : 0 ≤ r * cols := mul_nonneg hr (by omega)
          exact hA.get_copy_of_lt bits _ _ _ _ _ hranges (by omega)
            (Or.inl (by omega))
      · intro j d hj
        have hpast : (n : Int) * newcols + cols ≤ j := by
          push_cast at hj
          rw [add_mul, one_mul] at hj
          omega
        have hzero := hranges.dst_nonneg
        rw [ihrest j d (by omega)]
        exact hA.get_copy_of_lt bits _ _ _ _ _ hranges (by omega)
          (Or.inr hpast)

end MoveRows

/-! ## Widening and marking -/

/-- The dimensions of a bitmap are not negative. -/
structure Valid (bm : BoolBitmap A) : Prop where
  rows_nonneg : 0 ≤ bm.rows
  cols_nonneg : 0 ≤ bm.cols

theorem Marked.index_lt {bm : BoolBitmap A} {row col : Int} (hA : A.Lawful)
    (h : bm.Marked row col) :
    0 ≤ bm.index row col ∧ bm.index row col < A.len bm.bits := by
  have hrow := h.row_pos
  have hcol := h.col_pos
  have hle := h.col_le
  have hmul : 0 ≤ (row - 1) * bm.cols := mul_nonneg (by omega) (by omega)
  refine ⟨by unfold index; omega, ?_⟩
  by_contra hout
  have hget := h.is_set
  rw [hA.get_default _ _ _ (by omega)] at hget
  cases hget

/-- What `widen` does. -/
structure Widened (bm : BoolBitmap A) (minRows minCols : Int)
    (bm' : BoolBitmap A) : Prop where
  rows_pos : 1 ≤ bm'.rows
  cols_pos : 1 ≤ bm'.cols
  minRows : minRows ≤ bm'.rows
  minCols : minCols ≤ bm'.cols
  marked : ∀ row col, bm.Marked row col → bm'.Marked row col

theorem widened_widen (hA : A.Lawful) {bm : BoolBitmap A} (h : bm.Valid)
    (minRows minCols : Int) :
    Widened bm minRows minCols (bm.widen minRows minCols) := by
  obtain ⟨hrowsnn, hcolsnn⟩ := h
  obtain ⟨hrows, hrowsgrow⟩ :=
    doubleTo_spec minRows (n := max 1 bm.rows) (by omega)
  obtain ⟨hcols, hcolsgrow⟩ :=
    doubleTo_spec minCols (n := max 1 bm.cols) (by omega)
  simp only [widen]
  set rows := doubleTo (max 1 bm.rows) minRows
  set cols := doubleTo (max 1 bm.cols) minCols
  by_cases hgrow : bm.rows < rows ∨ bm.cols < cols
  · rw [if_pos hgrow]
    refine ⟨by simp only; omega, by simp only; omega, hrows, hcols, ?_⟩
    intro row col hmarked
    obtain ⟨hrow, hrowle, hcol, hcolle, hget⟩ := hmarked
    obtain ⟨hindex, hlt⟩ := Marked.index_lt hA ⟨hrow, hrowle, hcol, hcolle, hget⟩
    refine ⟨hrow, by simp only; omega, hcol, by simp only; omega, ?_⟩
    have hsize : 0 ≤ rows * cols := mul_nonneg (by omega) (by omega)
    have hold : bm.index row col < rows * cols := by
      have hcell : (row - 1) * bm.cols + (col - 1) < bm.rows * bm.cols :=
        row_add_lt hcolsnn (by omega) (by omega)
      have hle : bm.rows * bm.cols ≤ rows * cols :=
        mul_le_mul (by omega) (by omega) hcolsnn (by omega)
      unfold index
      omega
    have hresized : A.get (A.setLen bm.bits (rows * cols)) (bm.index row col)
        false = true := by
      rw [hA.get_setLen _ _ _ _ hindex hlt hold]
      exact hget
    simp only [index]
    split_ifs with hwider
    · have hdouble : bm.cols * 2 ≤ cols := by omega
      have hlen : (bm.rows.toNat : Int) * cols ≤
          A.len (A.setLen bm.bits (rows * cols)) := by
        rw [hA.len_setLen _ _ hsize, Int.toNat_of_nonneg hrowsnn]
        exact mul_le_mul_of_nonneg_right (by omega) (by omega)
      obtain ⟨-, hmoved, -⟩ := moveRows_spec hA (by omega) hdouble
        bm.rows.toNat (A.setLen bm.bits (rows * cols)) hlen
      have hcell := hmoved (row - 1) (col - 1) false (by omega) (by omega)
        (by omega) (by omega)
      rw [Int.toNat_of_nonneg hrowsnn, ← add_sub_assoc, ← add_sub_assoc] at hcell
      rw [hcell]
      exact hresized
    · have hsame : cols = bm.cols := by omega
      rw [hsame] at hresized ⊢
      exact hresized
  · rw [if_neg hgrow]
    exact ⟨by omega, by omega, by omega, by omega, fun _ _ => id⟩

theorem Widened.valid {bm bm' : BoolBitmap A} {minRows minCols : Int}
    (h : Widened bm minRows minCols bm') : bm'.Valid := by
  have hrows := h.rows_pos
  have hcols := h.cols_pos
  exact ⟨by omega, by omega⟩

/-- Setting a cell marks it and keeps the marks. -/
theorem Marked.set (hA : A.Lawful) {bm : BoolBitmap A} {row col : Int}
    (h : bm.Marked row col) {row' col' : Int}
    (hindex : 0 ≤ bm.index row' col') :
    (bm.set row' col' true).Marked row col := by
  obtain ⟨hnonneg, hlt⟩ := h.index_lt hA
  refine ⟨h.row_pos, h.row_le, h.col_pos, h.col_le, ?_⟩
  by_cases hsame : bm.index row col = bm.index row' col'
  · have hget : A.get (A.set bm.bits (bm.index row' col') true false)
        (bm.index row col) false = true := by
      rw [hsame]
      exact hA.get_set _ _ _ _ _ hindex
    exact hget
  · exact (hA.get_set_of_ne _ _ _ _ _ _ hindex hnonneg hsame hlt).trans h.is_set

theorem marked_set_self (hA : A.Lawful) {bm : BoolBitmap A} {row col : Int}
    (hrow : 1 ≤ row) (hrowle : row ≤ bm.rows) (hcol : 1 ≤ col)
    (hcolle : col ≤ bm.cols) (hindex : 0 ≤ bm.index row col) :
    (bm.set row col true).Marked row col :=
  ⟨hrow, hrowle, hcol, hcolle, hA.get_set _ _ _ _ _ hindex⟩

/-- What marking a rectangle does. -/
structure MarkedRect (bm : BoolBitmap A) (row1 col1 rowSpan colSpan : Int)
    (bm' : BoolBitmap A) : Prop where
  rows_pos : 1 ≤ bm'.rows
  cols_pos : 1 ≤ bm'.cols
  old : ∀ row col, bm.Marked row col → bm'.Marked row col
  new : ∀ row col, (row, col) ∈ cells row1 col1 rowSpan colSpan →
    bm'.Marked row col

/-- Setting cells one after the other. -/
def setCells (val : Bool) (bm : BoolBitmap A) (cells : List (Int × Int)) :
    BoolBitmap A :=
  cells.foldl (fun bm cell => bm.set cell.1 cell.2 val) bm

theorem setCells_dims (val : Bool) (bm : BoolBitmap A)
    (cells : List (Int × Int)) :
    (setCells val bm cells).rows = bm.rows ∧
      (setCells val bm cells).cols = bm.cols := by
  induction cells generalizing bm with
  | nil => exact ⟨rfl, rfl⟩
  | cons cell cells ih => exact ih (bm.set cell.1 cell.2 val)

theorem marked_setCells (hA : A.Lawful) (bm : BoolBitmap A)
    {cells : List (Int × Int)}
    (hcells : ∀ cell ∈ cells, (1 ≤ cell.1 ∧ cell.1 ≤ bm.rows) ∧
      (1 ≤ cell.2 ∧ cell.2 ≤ bm.cols)) :
    (∀ row col, bm.Marked row col → (setCells true bm cells).Marked row col) ∧
      ∀ row col, (row, col) ∈ cells → (setCells true bm cells).Marked row col := by
  induction cells generalizing bm with
  | nil => exact ⟨fun _ _ => id, fun _ _ h => absurd h List.not_mem_nil⟩
  | cons cell cells ih =>
      obtain ⟨⟨hrow, hrowle⟩, hcol, hcolle⟩ := hcells cell List.mem_cons_self
      have hindex : 0 ≤ bm.index cell.1 cell.2 := by
        have hmul : 0 ≤ (cell.1 - 1) * bm.cols :=
          mul_nonneg (by omega) (by omega)
        unfold index
        omega
      obtain ⟨hold, hnew⟩ := ih (bm.set cell.1 cell.2 true)
        fun c hc => hcells c (List.mem_cons_of_mem _ hc)
      constructor
      · intro row col hmarked
        exact hold row col (hmarked.set hA hindex)
      · intro row col hmem
        rcases List.mem_cons.mp hmem with rfl | hmem
        · exact hold row col (marked_set_self hA hrow hrowle hcol hcolle hindex)
        · exact hnew row col hmem

theorem markedRect_mark (hA : A.Lawful) {bm : BoolBitmap A} (h : bm.Valid)
    {row1 col1 : Int} (hrow1 : 1 ≤ row1) (hcol1 : 1 ≤ col1)
    (rowSpan colSpan : Int) :
    MarkedRect bm row1 col1 rowSpan colSpan
      (bm.mark row1 col1 rowSpan colSpan true) := by
  have hwidened := widened_widen hA h (row1 + rowSpan - 1) (col1 + colSpan - 1)
  have hmark : bm.mark row1 col1 rowSpan colSpan true =
      setCells true (bm.widen (row1 + rowSpan - 1) (col1 + colSpan - 1))
        (cells row1 col1 rowSpan colSpan) := rfl
  obtain ⟨hrows, hcols⟩ := setCells_dims true
    (bm.widen (row1 + rowSpan - 1) (col1 + colSpan - 1))
    (cells row1 col1 rowSpan colSpan)
  have hinside : ∀ cell ∈ cells row1 col1 rowSpan colSpan,
      (1 ≤ cell.1 ∧
          cell.1 ≤ (bm.widen (row1 + rowSpan - 1) (col1 + colSpan - 1)).rows) ∧
        (1 ≤ cell.2 ∧
          cell.2 ≤ (bm.widen (row1 + rowSpan - 1) (col1 + colSpan - 1)).cols) := by
    rintro ⟨row, col⟩ hcell
    rw [mem_cells] at hcell
    have hminRows := hwidened.minRows
    have hminCols := hwidened.minCols
    simp only
    omega
  obtain ⟨hold, hnew⟩ := marked_setCells hA _ hinside
  rw [hmark]
  constructor
  · rw [hrows]
    exact hwidened.rows_pos
  · rw [hcols]
    exact hwidened.cols_pos
  · intro row col hmarked
    exact hold row col (hwidened.marked row col hmarked)
  · exact hnew

/-- A cleared bitmap has at least one cell. -/
theorem clear_dims (hA : A.Lawful) {bm : BoolBitmap A} (h : bm.Valid) :
    1 ≤ bm.clear.rows ∧ 1 ≤ bm.clear.cols := by
  have hwidened := widened_widen hA h (1 + bm.rows - 1) (1 + bm.cols - 1)
  obtain ⟨hrows, hcols⟩ := setCells_dims false
    (bm.widen (1 + bm.rows - 1) (1 + bm.cols - 1))
    (cells 1 1 bm.rows bm.cols)
  constructor
  · exact hwidened.rows_pos.trans_eq hrows.symm
  · exact hwidened.cols_pos.trans_eq hcols.symm

/-- In a rectangle that is found occupied there is a cell for which a bit of the array
is read. -/
theorem exists_index_lt_of_check (hA : A.Lawful) {bm : BoolBitmap A}
    {row1 col1 rowSpan colSpan : Int}
    (h : bm.check row1 col1 rowSpan colSpan = true) :
    ∃ row col, (row, col) ∈ cells row1 col1 rowSpan colSpan ∧
      (row - 1) * bm.cols + col < A.len bm.bits := by
  rw [check, List.any_eq_true] at h
  obtain ⟨⟨row, col⟩, hcell, hget⟩ := h
  refine ⟨row, col, hcell, ?_⟩
  by_contra hout
  have hget : bm.get row col = true := hget
  rw [BoolBitmap.get, hA.get_default _ _ _ (by omega)] at hget
  cases hget

end BoolBitmap

end LuaAttic.Layerlib
