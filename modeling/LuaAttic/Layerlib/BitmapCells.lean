import LuaAttic.Layerlib.BoolBitmap
import LuaAttic.Support.Run

/-!
# Bitmaps as sets of cells

A bitmap would be the set of the cells that were marked.  But the bit that is read for a
cell is the bit of the next cell, so a cell that is marked is not read as marked; and the
bits of a bitmap that grows hold anything until they are written.  What is left are the
runs that never mark a cell and never leave a new bit unwritten: there all cells are read
as unmarked.
-/

namespace LuaAttic.Layerlib

open LuaAttic.Support LuaAttic.Terra

inductive BitmapOp
  | mark (row col rowSpan colSpan : Int) (val : Bool)
  | widen (minRows minCols : Int)
  | clear
  deriving DecidableEq, Repr

/-- Rows and columns count from one, and spans are not empty. -/
def BitmapOp.Valid : BitmapOp → Prop
  | mark row col rowSpan colSpan _ => (1 ≤ row ∧ 1 ≤ col) ∧ 1 ≤ rowSpan ∧ 1 ≤ colSpan
  | widen _ _ => True
  | clear => True

instance : DecidablePred BitmapOp.Valid
  | .mark _ _ _ _ _ => inferInstanceAs (Decidable ((_ ∧ _) ∧ _ ∧ _))
  | .widen _ _ => inferInstanceAs (Decidable True)
  | .clear => inferInstanceAs (Decidable True)

instance (row col rowSpan colSpan r c : Int) :
    Decidable ((r, c) ∈ BoolBitmap.cells row col rowSpan colSpan) :=
  decidable_of_iff _ BoolBitmap.mem_cells.symm

/-- What the operation does to a set of cells. -/
def BitmapOp.update (S : Int → Int → Bool) : BitmapOp → Int → Int → Bool
  | mark row col rowSpan colSpan val => fun r c =>
      if (r, c) ∈ BoolBitmap.cells row col rowSpan colSpan then val else S r c
  | widen _ _ => S
  | clear => fun _ _ => false

namespace BoolBitmap

variable {A : ArrOps Bool}

/-- `BoolBitmap:init` -/
def init : BoolBitmap A := ⟨0, 0, A.init⟩

def step (bm : BoolBitmap A) : BitmapOp → BoolBitmap A
  | .mark row col rowSpan colSpan val => bm.mark row col rowSpan colSpan val
  | .widen minRows minCols => bm.widen minRows minCols
  | .clear => bm.clear

/-- The bitmap is a set of cells. -/
structure IsSet (bm : BoolBitmap A) (S : Int → Int → Bool) : Prop where
  get : ∀ row col, 1 ≤ row → 1 ≤ col → bm.get row col = S row col
  check : ∀ row col rowSpan colSpan, 1 ≤ row → 1 ≤ col → 1 ≤ rowSpan → 1 ≤ colSpan →
    (bm.check row col rowSpan colSpan = true ↔
      ∃ r c, (r, c) ∈ cells row col rowSpan colSpan ∧ S r c = true)

/-- Each bit that is new, up to the one that is never read, belongs to the rectangle. -/
def CoversNew (bm : BoolBitmap A) (row col rowSpan colSpan : Int) : Prop :=
  ∀ cell ∈ cells 1 1 (doubleTo (max 1 bm.rows) (row + rowSpan - 1))
      (doubleTo (max 1 bm.cols) (col + colSpan - 1)),
    max 1 (bm.rows * bm.cols) ≤
        (cell.1 - 1) * doubleTo (max 1 bm.cols) (col + colSpan - 1) + cell.2 - 1 →
      cell ∈ cells row col rowSpan colSpan

/-- No cell is marked, and no new bit is left unwritten. -/
def Harmless (bm : BoolBitmap A) : BitmapOp → Prop
  | .mark row col rowSpan colSpan val =>
      val = false ∧ bm.CoversNew row col rowSpan colSpan
  | .widen minRows minCols => minRows ≤ max 1 bm.rows ∧ minCols ≤ max 1 bm.cols
  | .clear => True

instance (bm : BoolBitmap A) : DecidablePred bm.Harmless
  | .mark _ _ _ _ _ => inferInstanceAs (Decidable (_ ∧ ∀ cell ∈ cells _ _ _ _, _ → _))
  | .widen _ _ => inferInstanceAs (Decidable (_ ∧ _))
  | .clear => inferInstanceAs (Decidable True)

/-! ## Bits that are not set -/

/-- All bits but the first one, which is never read, are not set. -/
structure Clean (bm : BoolBitmap A) : Prop where
  dims : (bm.rows = 0 ∧ bm.cols = 0) ∨ (1 ≤ bm.rows ∧ 1 ≤ bm.cols)
  len : A.len bm.bits = bm.rows * bm.cols
  bits : ∀ i, 1 ≤ i → A.get bm.bits i false = false

theorem Clean.isSet {bm : BoolBitmap A} (h : bm.Clean) : bm.IsSet fun _ _ => false := by
  have hget : ∀ row col, 1 ≤ row → 1 ≤ col → bm.get row col = false := by
    intro row col hrow hcol
    have hcols : 0 ≤ bm.cols := by
      have hdims := h.dims
      omega
    have hmul : 0 ≤ (row - 1) * bm.cols := mul_nonneg (by omega) hcols
    exact h.bits _ (by omega)
  refine ⟨hget, fun row col rowSpan colSpan hrow hcol _ _ => ?_⟩
  refine iff_of_false ?_ (by simp)
  rw [Bool.not_eq_true, check, List.any_eq_false]
  rintro ⟨r, c⟩ hcell
  rw [mem_cells] at hcell
  rw [hget r c (by omega) (by omega)]
  exact Bool.false_ne_true

theorem clean_init (hinit : A.len A.init = 0) (hA : A.Lawful) : (init : BoolBitmap A).Clean :=
  ⟨.inl ⟨rfl, rfl⟩, hinit, fun i hi => hA.get_default _ _ _ (by rw [init, hinit]; omega)⟩

theorem doubleTo_of_le {n bound : Int} (h : bound ≤ n) : doubleTo n bound = n := by
  rw [doubleTo]
  cases bound.toNat with
  | zero => rfl
  | succ fuel => rw [doubleTo.go, if_neg (by omega)]

/-- What is between the rows that are moved is left alone. -/
theorem moveRows_of_gap (hA : A.Lawful) {cols newcols : Int} (hcols : 1 ≤ cols)
    (hnew : cols * 2 ≤ newcols) (n : ℕ) (bits : A.Arr) (hlen : n * newcols ≤ A.len bits)
    {j : Int} (hj : 0 ≤ j)
    (hgap : ∀ r : Int, 0 ≤ r → r < n → j < r * newcols ∨ r * newcols + cols ≤ j) (d : Bool) :
    A.get (moveRows bits n cols newcols) j d = A.get bits j d := by
  induction n generalizing bits with
  | zero => rfl
  | succ n ih =>
      have hranges := copyRanges_row hcols hnew hlen
      have hstep : moveRows bits (n + 1 : ℕ) cols newcols =
          moveRows (A.copy bits (n * newcols) (n * cols) cols) n cols newcols := by
        simp [moveRows, forRange, interval, List.range_succ]
      have hle : (n : Int) * newcols ≤ (n + 1 : ℕ) * newcols :=
        mul_le_mul_of_nonneg_right (by push_cast; omega) (by omega)
      have hcopylen := hA.len_copy bits _ _ _ hranges
      rw [hstep, ih _ (by omega) fun r hr hlt => hgap r hr (by push_cast; omega)]
      exact hA.get_copy_of_lt bits _ _ _ _ _ hranges hj
        (hgap n (Int.natCast_nonneg n) (by push_cast; omega))

/-- The bits of a bitmap that was clean are not set in the widened one. -/
structure WidenedClean (bm : BoolBitmap A) (minRows minCols : Int) (bm' : BoolBitmap A) :
    Prop where
  rows : bm'.rows = doubleTo (max 1 bm.rows) minRows
  cols : bm'.cols = doubleTo (max 1 bm.cols) minCols
  len : A.len bm'.bits = bm'.rows * bm'.cols
  bits : ∀ i, 1 ≤ i → i < bm.rows * bm.cols → A.get bm'.bits i false = false

theorem widenedClean_widen (hA : A.Lawful) {bm : BoolBitmap A} (h : bm.Clean)
    (minRows minCols : Int) : WidenedClean bm minRows minCols (bm.widen minRows minCols) := by
  obtain ⟨hdims, hlen, hbits⟩ := h
  obtain ⟨-, hrowsgrow⟩ := doubleTo_spec minRows (n := max 1 bm.rows) (by omega)
  obtain ⟨-, hcolsgrow⟩ := doubleTo_spec minCols (n := max 1 bm.cols) (by omega)
  simp only [widen]
  set rows := doubleTo (max 1 bm.rows) minRows with hrows
  set cols := doubleTo (max 1 bm.cols) minCols with hcols
  by_cases hgrow : bm.rows < rows ∨ bm.cols < cols
  · rw [if_pos hgrow]
    have hsize : 0 ≤ rows * cols := mul_nonneg (by omega) (by omega)
    have hle : bm.rows * bm.cols ≤ rows * cols :=
      mul_le_mul (by omega) (by omega) (by omega) (by omega)
    have hresized : ∀ i, 1 ≤ i → i < bm.rows * bm.cols →
        A.get (A.setLen bm.bits (rows * cols)) i false = false := by
      intro i hi hlt
      rw [hA.get_setLen _ _ _ _ (by omega) (by omega) (by omega)]
      exact hbits i hi
    have hnewlen := hA.len_setLen bm.bits _ hsize
    by_cases hwider : bm.cols < cols
    · simp only [if_pos hwider]
      rcases hdims with ⟨hzero, hzero'⟩ | ⟨hrowspos, hcolspos⟩
      · have hnone : moveRows (A.setLen bm.bits (rows * cols)) bm.rows bm.cols cols =
            A.setLen bm.bits (rows * cols) := by
          rw [moveRows, forRange_of_le hzero.le]
          rfl
        rw [hnone]
        exact ⟨rfl, rfl, hnewlen, hresized⟩
      · have hdouble : bm.cols * 2 ≤ cols := by omega
        obtain ⟨n, hn⟩ := Int.eq_ofNat_of_zero_le (show 0 ≤ bm.rows by omega)
        have hroom : (n : Int) * cols ≤ A.len (A.setLen bm.bits (rows * cols)) := by
          rw [hnewlen, ← hn]
          exact mul_le_mul_of_nonneg_right (by omega) (by omega)
        obtain ⟨hmovedlen, hmoved, -⟩ := moveRows_spec hA hcolspos hdouble n _ hroom
        rw [hn] at hresized ⊢
        refine ⟨rfl, rfl, hmovedlen.trans hnewlen, fun i hi hlt => ?_⟩
        rw [hn] at hlt
        by_cases hgap : ∀ r : Int, 0 ≤ r → r < n → i < r * cols ∨ r * cols + bm.cols ≤ i
        · rw [moveRows_of_gap hA hcolspos hdouble n _ hroom (by omega) hgap]
          exact hresized i hi hlt
        · -- the bit is one of a row that was moved
          push Not at hgap
          obtain ⟨r, hr, hrn, hfirst, hlast⟩ := hgap
          have hcell := hmoved r (i - r * cols) false hr hrn (by omega) (by omega)
          have hbefore : r * bm.cols + (i - r * cols) < n * bm.cols :=
            row_add_lt (by omega) hrn (by omega)
          have hsource : 1 ≤ r * bm.cols + (i - r * cols) := by
            rcases eq_or_lt_of_le hr with rfl | hpos
            · omega
            · have hone : 1 * bm.cols ≤ r * bm.cols :=
                mul_le_mul_of_nonneg_right (by omega) (by omega)
              omega
          rw [add_sub_cancel] at hcell
          rw [hcell]
          exact hresized _ hsource hbefore
    · simp only [if_neg hwider]
      exact ⟨rfl, rfl, hnewlen, hresized⟩
  · rw [if_neg hgrow]
    exact ⟨by omega, by omega, hlen, fun i hi _ => hbits i hi⟩

/-! ## Steps -/

/-- Cells of the bitmap that are marked with false. -/
theorem setCells_false (hA : A.Lawful) (bm : BoolBitmap A)
    (hlen : A.len bm.bits = bm.rows * bm.cols) {marked : List (Int × Int)}
    (hmarked : ∀ cell ∈ marked, (1 ≤ cell.1 ∧ cell.1 ≤ bm.rows) ∧
      (1 ≤ cell.2 ∧ cell.2 ≤ bm.cols)) :
    A.len (setCells false bm marked).bits = bm.rows * bm.cols ∧
      ∀ i, 0 ≤ i → (A.get bm.bits i false = false ∨
          ∃ cell ∈ marked, bm.index cell.1 cell.2 = i) →
        A.get (setCells false bm marked).bits i false = false := by
  induction marked generalizing bm with
  | nil =>
      refine ⟨hlen, fun i _ h => h.resolve_right ?_⟩
      rintro ⟨cell, hcell, -⟩
      exact absurd hcell List.not_mem_nil
  | cons cell marked ih =>
      obtain ⟨⟨⟨hrow, hrowle⟩, hcol, hcolle⟩, hrest⟩ := List.forall_mem_cons.mp hmarked
      have hindex : 0 ≤ bm.index cell.1 cell.2 := by
        have hmul : 0 ≤ (cell.1 - 1) * bm.cols := mul_nonneg (by omega) (by omega)
        unfold index
        omega
      have hlt : bm.index cell.1 cell.2 < bm.rows * bm.cols := by
        have hcell : (cell.1 - 1) * bm.cols + (cell.2 - 1) < bm.rows * bm.cols :=
          row_add_lt (by omega) (by omega) (by omega)
        unfold index
        omega
      have hsetlen : A.len (bm.set cell.1 cell.2 false).bits = bm.rows * bm.cols := by
        have hset := hA.len_set bm.bits _ false false hindex
        rw [hlen] at hset
        exact hset.trans (max_eq_left (by omega))
      obtain ⟨hlen', hbits⟩ := ih (bm.set cell.1 cell.2 false) hsetlen hrest
      refine ⟨hlen', fun i hi h => ?_⟩
      apply hbits i hi
      by_cases hsame : i = bm.index cell.1 cell.2
      · left
        rw [hsame]
        exact hA.get_set _ _ _ _ _ hindex
      · rcases h with hold | ⟨other, hmem, hother⟩
        · left
          by_cases hin : i < A.len bm.bits
          · exact (hA.get_set_of_ne _ _ _ _ _ _ hindex hi hsame hin).trans hold
          · exact hA.get_default _ _ _ (by rw [hsetlen]; omega)
        · rcases List.mem_cons.mp hmem with rfl | hmem
          · exact absurd hother.symm hsame
          · exact .inr ⟨other, hmem, hother⟩

theorem clean_mark_false (hA : A.Lawful) {bm : BoolBitmap A} (h : bm.Clean)
    {row col rowSpan colSpan : Int} (hrow : 1 ≤ row) (hcol : 1 ≤ col)
    (hnew : bm.CoversNew row col rowSpan colSpan) :
    (bm.mark row col rowSpan colSpan false).Clean := by
  have hwidened := widenedClean_widen hA h (row + rowSpan - 1) (col + colSpan - 1)
  obtain ⟨hrowsle, hrowsgrow⟩ :=
    doubleTo_spec (row + rowSpan - 1) (n := max 1 bm.rows) (by omega)
  obtain ⟨hcolsle, hcolsgrow⟩ :=
    doubleTo_spec (col + colSpan - 1) (n := max 1 bm.cols) (by omega)
  rw [CoversNew] at hnew
  rw [← hwidened.rows] at hrowsle hrowsgrow hnew
  rw [← hwidened.cols] at hcolsle hcolsgrow hnew
  have hmark : bm.mark row col rowSpan colSpan false =
      setCells false (bm.widen (row + rowSpan - 1) (col + colSpan - 1))
        (cells row col rowSpan colSpan) := rfl
  rw [hmark]
  set bm' := bm.widen (row + rowSpan - 1) (col + colSpan - 1)
  have hinside : ∀ cell ∈ cells row col rowSpan colSpan,
      (1 ≤ cell.1 ∧ cell.1 ≤ bm'.rows) ∧ (1 ≤ cell.2 ∧ cell.2 ≤ bm'.cols) := by
    rintro ⟨r, c⟩ hcell
    rw [mem_cells] at hcell
    simp only
    omega
  obtain ⟨hlen, hbits⟩ := setCells_false hA bm' hwidened.len hinside
  obtain ⟨hrows, hcols⟩ := setCells_dims false bm' (cells row col rowSpan colSpan)
  refine ⟨?_, by rw [hlen, hrows, hcols], fun i hi => ?_⟩
  · rw [hrows, hcols]
    omega
  · by_cases hold : i < bm.rows * bm.cols
    · exact hbits i (by omega) (.inl (hwidened.bits i hi hold))
    · by_cases hin : i < bm'.rows * bm'.cols
      · -- the cell that the bit belongs to
        have hdiv := Int.mul_ediv_add_emod i bm'.cols
        have hmod := emod_bounds (show 1 ≤ bm'.cols by omega) i
        have hquot : 0 ≤ i / bm'.cols := Int.ediv_nonneg (by omega) (by omega)
        have hquotlt : i / bm'.cols < bm'.rows :=
          Int.ediv_lt_of_lt_mul (by omega) hin
        have hindex : (i / bm'.cols + 1 - 1) * bm'.cols + (i % bm'.cols + 1) - 1 = i := by
          rw [add_sub_cancel_right, mul_comm]
          omega
        refine hbits i (by omega) (.inr ⟨(i / bm'.cols + 1, i % bm'.cols + 1), ?_, hindex⟩)
        refine hnew _ (mem_cells.mpr (by omega)) ?_
        simp only
        omega
      · exact hA.get_default _ _ _ (by rw [hlen]; omega)

theorem clean_clear (hA : A.Lawful) {bm : BoolBitmap A} (h : bm.Clean) : bm.clear.Clean := by
  refine clean_mark_false hA h (le_refl 1) (le_refl 1) fun cell hcell hindex => ?_
  have hdims := h.dims
  have hrows : doubleTo (max 1 bm.rows) (1 + bm.rows - 1) = max 1 bm.rows :=
    doubleTo_of_le (by omega)
  have hcols : doubleTo (max 1 bm.cols) (1 + bm.cols - 1) = max 1 bm.cols :=
    doubleTo_of_le (by omega)
  rw [hrows, hcols, mem_cells] at hcell
  rw [hcols] at hindex
  have hlt : (cell.1 - 1) * max 1 bm.cols + (cell.2 - 1) < max 1 bm.rows * max 1 bm.cols :=
    row_add_lt (by omega) (by omega) (by omega)
  have hone : max 1 (0 : Int) = 1 := rfl
  rcases hdims with ⟨hzero, hzero'⟩ | ⟨hpos, hpos'⟩
  · rw [hzero', hzero, hone, mul_one, mul_one] at hlt
    rw [hzero', hone, mul_one] at hindex
    omega
  · rw [max_eq_right hpos, max_eq_right hpos'] at hlt
    rw [max_eq_right hpos'] at hindex
    omega

theorem clean_widen (hA : A.Lawful) {bm : BoolBitmap A} (h : bm.Clean) {minRows minCols : Int}
    (hrows : minRows ≤ max 1 bm.rows) (hcols : minCols ≤ max 1 bm.cols) :
    (bm.widen minRows minCols).Clean := by
  have hwidened := widenedClean_widen hA h minRows minCols
  have hrows' := hwidened.rows
  have hcols' := hwidened.cols
  rw [doubleTo_of_le hrows] at hrows'
  rw [doubleTo_of_le hcols] at hcols'
  refine ⟨.inr (by omega), hwidened.len, fun i hi => ?_⟩
  by_cases hold : i < bm.rows * bm.cols
  · exact hwidened.bits i hi hold
  · refine hA.get_default _ _ _ ?_
    rw [hwidened.len, hrows', hcols']
    have hone : max 1 (0 : Int) = 1 := rfl
    rcases h.dims with ⟨hzero, hzero'⟩ | ⟨hpos, hpos'⟩
    · rw [hzero, hzero', hone, mul_one]
      exact hi
    · rw [max_eq_right hpos, max_eq_right hpos']
      omega

theorem clean_step (hA : A.Lawful) {bm : BoolBitmap A} (h : bm.Clean) {op : BitmapOp}
    (hvalid : op.Valid) (hop : bm.Harmless op) :
    (bm.step op).Clean ∧ op.update (fun _ _ => false) = fun _ _ => false := by
  cases op with
  | mark row col rowSpan colSpan val =>
      obtain ⟨rfl, hnew⟩ := hop
      refine ⟨clean_mark_false hA h hvalid.1.1 hvalid.1.2 hnew, ?_⟩
      funext r c
      simp only [BitmapOp.update, ite_self]
  | widen minRows minCols => exact ⟨clean_widen hA h hop.1 hop.2, rfl⟩
  | clear => exact ⟨clean_clear hA h, rfl⟩

/-! ## Runs -/

theorem clean_run (hA : A.Lawful) {ops : List BitmapOp} (hvalid : ∀ op ∈ ops, op.Valid)
    {bm : BoolBitmap A} (h : bm.Clean) (hops : AllAllowed step Harmless ops bm) :
    (run step ops bm).Clean ∧
      run BitmapOp.update ops (fun _ _ => false) = fun _ _ => false := by
  induction ops generalizing bm with
  | nil => exact ⟨h, rfl⟩
  | cons op ops ih =>
      obtain ⟨hop, hrest⟩ := List.forall_mem_cons.mp hvalid
      obtain ⟨hclean, hupdate⟩ := clean_step hA h hop hops.1
      rw [run_cons, run_cons, hupdate]
      exact ih hrest hclean hops.2

/-- As long as no cell is marked and no new bit is left unwritten, a bitmap is the set of
the marked cells after every part of a run. -/
theorem isSet_of_run (hA : A.Lawful) (hinit : A.len A.init = 0) {ops : List BitmapOp}
    (hvalid : ∀ op ∈ ops, op.Valid) (hops : AllAllowed step Harmless ops (init : BoolBitmap A))
    {part : List BitmapOp} (hpart : part <+: ops) :
    (run step part (init : BoolBitmap A)).IsSet
      (run BitmapOp.update part fun _ _ => false) := by
  obtain ⟨rest, rfl⟩ := hpart
  have hallowed := ((allAllowed_append part rest init).mp hops).1
  obtain ⟨hclean, hupdate⟩ := clean_run hA
    (fun op hop => hvalid op (List.mem_append_left rest hop)) (clean_init hinit hA) hallowed
  rw [hupdate]
  exact hclean.isSet

/-- A bitmap of two rows and two columns. -/
theorem isSet_of_run_two :
    (run step [.mark 1 1 2 2 false, .widen 2 1] (init : BoolBitmap (listArr true))).IsSet
      (run BitmapOp.update [.mark 1 1 2 2 false, .widen 2 1] fun _ _ => false) :=
  isSet_of_run (listArr_lawful true) rfl (by decide) (by decide)
    (show ([.mark 1 1 2 2 false, .widen 2 1] : List BitmapOp) <+:
      [.mark 1 1 2 2 false, .widen 2 1, .clear, .mark 2 2 1 1 false] from ⟨_, rfl⟩)

/-- A cell that is marked is not read as marked. -/
theorem marked_not_isSet :
    ¬ (run step [.mark 1 1 1 1 true] (init : BoolBitmap (listArr false))).IsSet
      (run BitmapOp.update [.mark 1 1 1 1 true] fun _ _ => false) := by
  intro h
  have hget := h.get 1 1 (le_refl 1) (le_refl 1)
  exact absurd hget (by decide)

end BoolBitmap

end LuaAttic.Layerlib
