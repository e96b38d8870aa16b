import LuaAttic.Bitmask.Rect
import LuaAttic.Support.Run

/-!
# Inserting and removing rows

Rows that are inserted shift those below them down, and the rectangle gives the new
ones their value.  But the height is set twice: once with the storage, which is
reallocated for it, and once more at the end.  The height is right when no row is
inserted, and only then.

The limit that `get` clamps to is an eighth too large after both operations, so that
what is out of range is read behind the last byte.  Of an array without bytes the
first byte is read in any case.
-/

namespace LuaAttic.Bitmask

open LuaAttic.Support

namespace Bitarray

variable {self : Bitarray}

/-! ## Storage -/

/-- The buffer has the bytes of the rows. -/
def Backed (b : Bitarray) : Prop := b.stride * b.h ≤ b.buffer.len

theorem le_len_call (g : Growbuffer) (newlen : ℤ) : newlen ≤ (g.call newlen).len := by
  rw [Growbuffer.call]
  split
  · exact le_max_left _ _
  · omega

theorem realloc_backed (b : Bitarray) (w h : ℤ) : (b.realloc w h).Backed :=
  le_len_call _ _

/-- The array with the storage of some more rows. -/
theorem realloc_dims (hv : self.Valid) {n : ℤ} (hn : 0 ≤ n) :
    (self.realloc self.w (self.h + n)).w = self.w ∧
      (self.realloc self.w (self.h + n)).h = self.h + n ∧
      (self.realloc self.w (self.h + n)).stride = self.stride := by
  have hw : max 0 self.w = self.w := max_eq_right hv.w_nonneg
  have hh : max 0 (self.h + n) = self.h + n := max_eq_right (add_nonneg hv.h_nonneg hn)
  refine ⟨hw, hh, ?_⟩
  rw [(realloc_valid self self.w (self.h + n)).stride_eq, hv.stride_eq]
  exact congrArg (fun w => (w + 7) / 8) hw

/-- The array after its contents were copied over, where they had to be. -/
def relocated (b : Bitarray) (n : ℤ) : Bitarray :=
  let b' := b.realloc b.w (b.h + n)
  b'.exec (if b'.buffer.id ≠ b.buffer.id then [Store.copyFrom b.data (b'.stride * b.h)]
    else [])

theorem relocated_valid (b : Bitarray) (n : ℤ) : (b.relocated n).Valid :=
  exec_valid (realloc_valid b b.w (b.h + n)) _

theorem relocated_dims (hv : self.Valid) {n : ℤ} (hn : 0 ≤ n) :
    (self.relocated n).w = self.w ∧ (self.relocated n).h = self.h + n ∧
      (self.relocated n).stride = self.stride :=
  realloc_dims hv hn

/-- The bytes of the array are the same after it was relocated. -/
theorem relocated_data (hv : self.Valid) {n : ℤ} (hn : 0 ≤ n) {i : ℤ} (h0 : 0 ≤ i)
    (hi : i < self.stride * self.h) : (self.relocated n).data i = self.data i := by
  have hstride := (realloc_dims hv hn).2.2
  by_cases hgrow : self.buffer.len <
      (self.realloc self.w (self.h + n)).stride * (self.realloc self.w (self.h + n)).h
  · have hid : (self.realloc self.w (self.h + n)).buffer.id = self.buffer.id + 1 := by
      simp only [realloc] at hgrow ⊢
      rw [Growbuffer.call, if_pos hgrow]
    have hexec : (self.relocated n).data =
        ((self.realloc self.w (self.h + n)).data).copy self.data 0 0
          ((self.realloc self.w (self.h + n)).stride * self.h) := by
      simp only [relocated, hid, exec, data, ne_eq, Nat.succ_ne_self, not_false_eq_true,
        ↓reduceIte, List.foldl_cons, List.foldl_nil, Store.exec]
    rw [hexec, hstride, Memory.copy, if_pos ⟨h0, by omega⟩, sub_zero, zero_add]
  · have hbuffer : (self.realloc self.w (self.h + n)).buffer = self.buffer := by
      simp only [realloc] at hgrow ⊢
      rw [Growbuffer.call, if_neg hgrow]
    simp only [relocated, hbuffer, exec, data, ne_eq, not_true_eq_false, ↓reduceIte,
      List.foldl_nil]

/-! ## Insertion -/

/-- The rows from `y` on, shifted down by `n` rows. -/
def shifted (b : Bitarray) (y n : ℤ) : Bitarray :=
  let b' := b.relocated n
  b'.exec [.copy (b'.stride * (y + n)) (b'.stride * y) (b'.stride * b'.h - b'.stride * (y + n))]

theorem shifted_valid (b : Bitarray) (y n : ℤ) : (b.shifted y n).Valid :=
  exec_valid (relocated_valid b n) _

theorem shifted_dims (hv : self.Valid) (y : ℤ) {n : ℤ} (hn : 0 ≤ n) :
    (self.shifted y n).w = self.w ∧ (self.shifted y n).h = self.h + n ∧
      (self.shifted y n).stride = self.stride :=
  relocated_dims hv hn

/-- The new rows are a rectangle, and the height is raised once more. -/
theorem insertRows_eq (b : Bitarray) (y n : ℤ) (val : Bool) :
    b.insertRows y n val =
      let b' := (b.shifted y n).rect 0 y ((b.shifted y n).w : ℤ) n val
      { b' with h := b'.h + n, maxI := b'.stride * (b'.h + n) } := by
  simp only [insertRows, insertRowsStores, exec, List.foldl_append]
  rfl

theorem insertRows_dims (hv : self.Valid) (y : ℤ) {n : ℤ} (hn : 0 ≤ n) (val : Bool) :
    (self.insertRows y n val).w = self.w ∧ (self.insertRows y n val).h = self.h + n + n ∧
      (self.insertRows y n val).stride = self.stride ∧
      (self.insertRows y n val).maxI = self.stride * (self.h + n + n) := by
  obtain ⟨hw, hh, hstride⟩ := shifted_dims hv y hn
  rw [insertRows_eq]
  refine ⟨hw, congrArg (· + n) hh, hstride, ?_⟩
  have hmax : ((self.shifted y n).stride : ℚ) * ((self.shifted y n).h + n) =
      self.stride * (self.h + n + n) := by
    rw [hh, hstride]
    push_cast
    ring
  exact hmax

theorem insertRows_valid (hv : self.Valid) (y : ℤ) {n : ℤ} (hn : 0 ≤ n) (val : Bool) :
    (self.insertRows y n val).Valid := by
  obtain ⟨hw, hh, hstride, hmax⟩ := insertRows_dims hv y hn val
  refine ⟨hw ▸ hv.w_nonneg, ?_, ?_, ?_⟩
  · have := hv.h_nonneg
    omega
  · rw [hstride, hw, hv.stride_eq]
  · rw [hmax, hstride, hh]
    push_cast
    linarith

/-- A row as it is after the shift. -/
theorem get_shifted (hv : self.Valid) {y n : ℤ} (hn : 0 ≤ n) {x k : ℤ}
    (hr : self.InRange x k) :
    (k < y → (self.shifted y n).get x k = self.get x k) ∧
      (y ≤ k → (self.shifted y n).get x (k + n) = self.get x k) := by
  obtain ⟨hw, hh, hstride⟩ := shifted_dims hv y hn
  obtain ⟨h0, hlt⟩ := position_range hv hr
  have hx := hr.x
  have hk := hr.y
  have hwle := hv.w_le
  have hrelocated : (self.relocated n).data.bit (self.position x k) =
      self.data.bit (self.position x k) := by
    rw [Memory.bit, Memory.bit, relocated_data hv hn (by omega) (by omega)]
  have hbit (p : ℤ) : (self.shifted y n).data.bit p =
      if 8 * (self.stride * (y + n)) ≤ p ∧ p < 8 * (self.stride * (self.h + n)) then
        (self.relocated n).data.bit (p - 8 * (self.stride * n))
      else (self.relocated n).data.bit p := by
    have hcopy : (self.shifted y n).data = (self.relocated n).data.copy
        (self.relocated n).data ((self.relocated n).stride * (y + n))
        ((self.relocated n).stride * y) ((self.relocated n).stride * (self.relocated n).h -
          (self.relocated n).stride * (y + n)) := rfl
    have hdims := relocated_dims hv hn
    have hsrc : p + 8 * (self.stride * y - self.stride * (y + n)) =
        p - 8 * (self.stride * n) := by ring
    rw [hcopy, Memory.bit_copy, hdims.2.1, hdims.2.2, add_sub_cancel, hsrc]
  constructor
  · intro hky
    have hrow : (k + 1) * self.stride ≤ (y + n) * self.stride :=
      mul_le_mul_of_nonneg_right (by omega) hv.stride_nonneg
    have habove : self.position x k < 8 * (self.stride * (y + n)) := by
      rw [position, mul_comm self.stride]
      rw [add_mul, one_mul] at hrow
      omega
    have hpos : (self.shifted y n).position x k = self.position x k := by
      rw [position, position, hstride]
    rw [get_eq (shifted_valid self y n) ⟨by omega, by omega⟩, get_eq hv hr, hpos, hbit,
      if_neg (by omega), hrelocated]
  · intro hyk
    have hrow : y * self.stride ≤ k * self.stride :=
      mul_le_mul_of_nonneg_right hyk hv.stride_nonneg
    have hpos : (self.shifted y n).position x (k + n) =
        self.position x k + 8 * (self.stride * n) := by
      rw [position, position, hstride]
      ring
    have hbelow : 8 * (self.stride * (y + n)) ≤ self.position x k + 8 * (self.stride * n) := by
      rw [position, mul_add, mul_comm self.stride y]
      omega
    have hin : self.position x k + 8 * (self.stride * n) <
        8 * (self.stride * (self.h + n)) := by
      rw [mul_add]
      omega
    rw [get_eq (shifted_valid self y n) ⟨by omega, by omega⟩, get_eq hv hr, hpos, hbit,
      if_pos ⟨hbelow, hin⟩, add_sub_cancel_right, hrelocated]

/-- The cells of the array after the rows were inserted. -/
theorem get_insertRows (hv : self.Valid) {y n : ℤ} (hn : 0 ≤ n) (val : Bool)
    {x k : ℤ} (hx : 0 ≤ x ∧ x < self.w) (hk : 0 ≤ k ∧ k < self.h + n) :
    (y ≤ k ∧ k < y + n → (self.insertRows y n val).get x k = val) ∧
      (¬ (y ≤ k ∧ k < y + n) →
        (self.insertRows y n val).get x k = (self.shifted y n).get x k) := by
  obtain ⟨hw, hh, hstride⟩ := shifted_dims hv y hn
  have hvs := shifted_valid self y n
  have hr : (self.shifted y n).InRange x k := ⟨by omega, by omega⟩
  have hrect := get_rect hvs 0 y ((self.shifted y n).w : ℤ) n val hr
  have hdims := insertRows_dims hv y hn val
  have hget : (self.insertRows y n val).get x k =
      ((self.shifted y n).rect 0 y ((self.shifted y n).w : ℤ) n val).get x k := by
    rw [get_eq (insertRows_valid hv y hn val) ⟨by omega, by omega⟩,
      get_eq (rect_valid hvs _ _ _ _ _) ⟨hr.x, hr.y⟩, insertRows_eq]
    rfl
  have hspanx : Spans 0 ((self.shifted y n).w : ℤ) x := by
    rw [spans_coe hvs.w_nonneg, zero_add]
    exact hr.x
  rw [spans_coe hn, and_iff_right hspanx] at hrect
  rwa [hget]

/-! ## Removal -/

/-- What is out of range is not removed. -/
theorem exists_removeRows_eq (hv : self.Valid) (y n : ℤ) :
    ∃ y' n', (0 ≤ y' ∧ y' ≤ self.h) ∧ (0 ≤ n' ∧ y' + n' ≤ self.h) ∧
      self.removeRows y n = self.removeRows y' n' ∧
      self.removeRowsStores y n = self.removeRowsStores y' n' := by
  have hh := hv.h_nonneg
  have hy : clamp (clamp y 0 self.h) 0 self.h = clamp y 0 self.h := by
    simp only [clamp]
    omega
  have hn : clamp (clamp n 0 (self.h - clamp y 0 self.h)) 0 (self.h - clamp y 0 self.h) =
      clamp n 0 (self.h - clamp y 0 self.h) := by
    simp only [clamp]
    omega
  refine ⟨clamp y 0 self.h, clamp n 0 (self.h - clamp y 0 self.h), ?_, ?_, ?_, ?_⟩
  · simp only [clamp]
    omega
  · simp only [clamp]
    omega
  · simp only [removeRows, removeRowsStores, hy, hn]
  · simp only [removeRowsStores, hy, hn]

theorem removeRows_dims (b : Bitarray) {y n : ℤ} (hy : 0 ≤ y) (hyh : y ≤ b.h) (hn : 0 ≤ n)
    (hnh : y + n ≤ b.h) :
    (b.removeRows y n).w = b.w ∧ (b.removeRows y n).h = b.h - n ∧
      (b.removeRows y n).stride = b.stride ∧
      (b.removeRows y n).maxI = b.stride * (b.h - n) ∧
      b.removeRowsStores y n =
        [.copy (b.stride * y) (b.stride * (y + n)) (b.stride * b.h - b.stride * (y + n))] := by
  have hcy : clamp y 0 b.h = y := by
    rw [clamp]
    omega
  have hcn : clamp n 0 (b.h - y) = n := by
    rw [clamp]
    omega
  simp only [removeRows, removeRowsStores, exec, hcy, hcn, and_self]

theorem removeRows_valid (hv : self.Valid) (y n : ℤ) : (self.removeRows y n).Valid := by
  obtain ⟨y', n', hy, hn, heq, -⟩ := exists_removeRows_eq hv y n
  obtain ⟨hw, hh, hstride, hmax, -⟩ := removeRows_dims self hy.1 hy.2 hn.1 hn.2
  rw [heq]
  refine ⟨hw ▸ hv.w_nonneg, by omega, ?_, ?_⟩
  · rw [hstride, hw, hv.stride_eq]
  · rw [hmax, hstride, hh]
    push_cast
    linarith

/-- The cells of the array after rows were removed. -/
theorem get_removeRows (hv : self.Valid) {y n : ℤ} (hy : 0 ≤ y) (hyh : y ≤ self.h)
    (hn : 0 ≤ n) (hnh : y + n ≤ self.h) {x k : ℤ} (hx : 0 ≤ x ∧ x < self.w)
    (hk : 0 ≤ k ∧ k < self.h - n) :
    (k < y → (self.removeRows y n).get x k = self.get x k) ∧
      (y ≤ k → (self.removeRows y n).get x k = self.get x (k + n)) := by
  obtain ⟨hw, hh, hstride, -, hstores⟩ := removeRows_dims self hy hyh hn hnh
  have hbit (p : ℤ) : (self.removeRows y n).data.bit p =
      if 8 * (self.stride * y) ≤ p ∧ p < 8 * (self.stride * (self.h - n)) then
        self.data.bit (p + 8 * (self.stride * n))
      else self.data.bit p := by
    have hcopy : (self.removeRows y n).data =
        (self.removeRowsStores y n).foldl Store.exec self.data := rfl
    have hend : self.stride * y + (self.stride * self.h - self.stride * (y + n)) =
        self.stride * (self.h - n) := by ring
    have hsrc : p + 8 * (self.stride * (y + n) - self.stride * y) =
        p + 8 * (self.stride * n) := by ring
    rw [hcopy, hstores, List.foldl_cons, List.foldl_nil, Store.exec, Memory.bit_copy, hend,
      hsrc]
  have hpos : (self.removeRows y n).position x k = self.position x k := by
    rw [position, position, hstride]
  have hwle := hv.w_le
  rw [get_eq (removeRows_valid hv y n) ⟨by omega, by omega⟩, hpos, hbit]
  constructor
  · intro hky
    have hrow : (k + 1) * self.stride ≤ y * self.stride :=
      mul_le_mul_of_nonneg_right (by omega) hv.stride_nonneg
    rw [add_mul, one_mul] at hrow
    have habove : self.position x k < 8 * (self.stride * y) := by
      rw [position, mul_comm self.stride]
      omega
    rw [if_neg (by omega), get_eq hv ⟨hx, by omega⟩]
  · intro hyk
    have hrow : y * self.stride ≤ k * self.stride :=
      mul_le_mul_of_nonneg_right hyk hv.stride_nonneg
    have hbelow : 8 * (self.stride * y) ≤ self.position x k := by
      rw [position, mul_comm self.stride y]
      omega
    have hlast : (k + 1) * self.stride ≤ (self.h - n) * self.stride :=
      mul_le_mul_of_nonneg_right (by omega) hv.stride_nonneg
    rw [add_mul, one_mul] at hlast
    have hin : self.position x k < 8 * (self.stride * (self.h - n)) := by
      rw [position, mul_comm self.stride (self.h - n)]
      omega
    have hold : self.position x k + 8 * (self.stride * n) = self.position x (k + n) := by
      rw [position, position]
      ring
    rw [if_pos ⟨hbelow, hin⟩, get_eq hv ⟨hx, by omega⟩, hold]

/-! ## Insertion and removal -/

/-- `insert_rows` shifts the rows from `y` on down by `n` rows. -/
structure InsertsRows (b : Bitarray) (y n : ℤ) (val : Bool) : Prop where
  height : (b.insertRows y n val).h = b.h + n
  above : ∀ x k, b.InRange x k → k < y → (b.insertRows y n val).get x k = b.get x k
  inserted : ∀ x k, 0 ≤ x → x < b.w → y ≤ k → k < y + n →
    (b.insertRows y n val).get x k = val
  below : ∀ x k, b.InRange x k → y ≤ k →
    (b.insertRows y n val).get x (k + n) = b.get x k

/-- The same cells. -/
structure SameCells (b b' : Bitarray) : Prop where
  w : b.w = b'.w
  h : b.h = b'.h
  get : ∀ x y, b'.InRange x y → b.get x y = b'.get x y

/-- All but the height is as it should be, however many rows are inserted. -/
theorem insertsRows_cells (hv : self.Valid) {y n : ℤ} (hy : 0 ≤ y) (hyh : y ≤ self.h)
    (hn : 0 ≤ n) (val : Bool) (hheight : (self.insertRows y n val).h = self.h + n) :
    self.InsertsRows y n val := by
  refine ⟨hheight, ?_, ?_, ?_⟩
  · intro x k hr hky
    have hk := hr.y
    rw [(get_insertRows hv hn val hr.x (by omega)).2 (by omega)]
    exact (get_shifted hv hn hr).1 hky
  · intro x k h0 hw hyk hky
    exact (get_insertRows hv hn val ⟨h0, hw⟩ (by omega)).1 ⟨hyk, hky⟩
  · intro x k hr hyk
    have hk := hr.y
    rw [(get_insertRows hv hn val hr.x (by omega)).2 (by omega)]
    exact (get_shifted hv hn hr).2 hyk

/-- Rows are inserted, and removed again, as they should be exactly when there are
none. -/
theorem insertsRows_iff (hv : self.Valid) {y n : ℤ} (hy : 0 ≤ y) (hyh : y ≤ self.h)
    (hn : 0 ≤ n) (val : Bool) :
    self.InsertsRows y n val ∧ SameCells ((self.insertRows y n val).removeRows y n) self ↔
      n = 0 := by
  obtain ⟨hw, hh, hstride, -⟩ := insertRows_dims hv y hn val
  constructor
  · rintro ⟨h, -⟩
    have := h.height
    omega
  · rintro rfl
    have hvi := insertRows_valid hv y hn val
    have hins := insertsRows_cells hv hy hyh hn val (by omega)
    have hrem := removeRows_dims (self.insertRows y 0 val) hy (by omega) hn (by omega)
    refine ⟨hins, hrem.1.trans hw, by omega, ?_⟩
    intro x k hr
    have hk := hr.y
    have hx := hr.x
    obtain ⟨habove, hbelow⟩ := get_removeRows hvi hy (by omega) hn (by omega) (x := x) (k := k)
      (by omega) (by omega)
    by_cases hky : k < y
    · rw [habove hky, hins.above x k hr hky]
    · rw [hbelow (by omega), hins.below x k hr (by omega)]

end Bitarray

end LuaAttic.Bitmask
