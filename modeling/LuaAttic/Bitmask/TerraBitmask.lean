import LuaAttic.Bitmask.Rect

/-!
# Bit matrices (`bitmask.t`)

The rectangle is set as the bit arrays set it.  But a cell is read from the first byte
of its row, a single cell is set through a mask that is the byte itself, and a matrix
that is widened moves its rows in the array that it had before.

The functions `fill` and `copy` come from a module that is not part of the repository,
as does `alloc`, which keeps the leading bytes and clears the rest; it may move the
array, and then what is written to the old one is lost.  Assertions hold in range.
-/

namespace LuaAttic.Bitmask

open LuaAttic.Support

/-- What is used of the module `low`. -/
structure Low where
  fill : Memory → ℤ → ℤ → BitVec 8 → Memory
  copy : Memory → ℤ → ℤ → ℤ → Memory

/-- Bytes are filled and copied, as if the copied ones were read first. -/
structure Low.Lawful (L : Low) : Prop where
  fill_eq : ∀ data dst len b, 0 ≤ len → L.fill data dst len b = data.fill dst len b
  copy_eq : ∀ data dst src len, 0 ≤ len →
    L.copy data dst src len = data.copy data dst src len

/-- The functions on plain memory. -/
def Low.plain : Low where
  fill data dst len b := data.fill dst len b
  copy data dst src len := data.copy data dst src len

theorem Low.plain_lawful : Low.plain.Lawful :=
  ⟨fun _ _ _ _ _ => rfl, fun _ _ _ _ _ => rfl⟩

/-- A 32-bit integer. -/
def int (n : ℤ) : ℤ := n.bmod (2 ^ 32)

/-- What an array of some bytes holds after it was reallocated. -/
def alloc (data : Memory) (size : ℤ) : Memory := fun i => if i < size then data i else 0

structure TerraBitmask where
  data : Memory
  w : ℤ
  h : ℤ

namespace TerraBitmask

/-- `bitmask:stride` -/
def stride (w : ℤ) : ℤ := ⌈(w : ℚ) / 8⌉

/-- `bitmask:bytesize` -/
def bytesize (w h : ℤ) : ℤ := stride w * h

/-- `bitmask:rowaddr`, as an index -/
def rowaddr (y w : ℤ) : ℤ := int (stride w * y)

/-- `bitmask:init` -/
def init : TerraBitmask := ⟨fun _ => 0, 0, 0⟩

variable (L : Low) (self : TerraBitmask)

/-- The rows from the last one on, at their places for the new width. -/
def moveRows (data : Memory) (w : ℤ) : Memory :=
  (Int.range 0 self.h).reverse.foldl
    (fun data y => L.copy data (rowaddr y w) (rowaddr y self.w) (stride self.w)) data

/-- `bitmask:widen`, where `alloc` moves the array or not -/
def widen (w h : ℤ) (moved : Bool) : TerraBitmask :=
  if w ≤ self.w ∧ h ≤ self.h then self
  else
    let w := max w self.w
    let h := max h self.h
    let newData := alloc self.data (bytesize self.w self.h)
    -- the rows are moved in the array that `self.data` still points to
    let data := if moved then self.data else newData
    let data := if 0 < self.w ∧ self.w < w then self.moveRows L data w else data
    { data := if moved then newData else data, w, h }

/-- `bitmask:addr` -/
def addr (x y : ℤ) : ℤ × ℤ :=
  let b := stride self.w * y + x
  (b.tdiv 8, 7 - b.tmod 8)

/-- `bitmask:get` -/
def get (x y : ℤ) : Bool :=
  let B := self.data (rowaddr y self.w)
  let b := x.tmod 8
  ((B >>> b.toNat) &&& 1) == 1

/-- `bitmask:set` of a cell -/
def set (x y : ℤ) (val : Bool) : TerraBitmask :=
  let i := (self.addr x y).1
  let mask := self.data i
  { self with data := self.data.mask i mask val }

/-- A row of the rectangle. -/
def setRow (data : Memory) (bi1 bi2 bytes : ℤ) (mask0 mask1 mask2 : BitVec 8) (val : Bool) :
    Memory :=
  if bytes < 0 then data.mask bi2 mask0 val
  else
    let data := L.fill data bi1 bytes (if val then 0xff else 0)
    let data := if mask1 ≠ 0 then data.mask (bi1 - 1) mask1 val else data
    if mask2 ≠ 0 then data.mask bi2 mask2 val else data

def setRows (x1 x2 y1 y2 : ℤ) (val : Bool) : Memory :=
  let stride := stride self.w
  let i1 : ℚ := x1 / 8
  let i2 : ℚ := x2 / 8
  let bi1 := ⌈i1⌉
  let bi2 := trunc i2
  let bytes := bi2 - bi1
  let bits1 := trunc ((bi1 - i1) * 8)
  let bits2 := trunc ((i2 - bi2) * 8)
  let (mask0, mask1, mask2) : BitVec 32 × BitVec 32 × BitVec 32 :=
    if bytes < 0 then
      let bits := bits2 - (8 - bits1)
      (shl (shl 1 (BitVec.ofInt 32 bits) - 1) (BitVec.ofInt 32 (8 - bits1)), 0, 0)
    else
      (0, if 0 < bits1 then bnot (shl 1 (BitVec.ofInt 32 (8 - bits1)) - 1) else 0,
        if 0 < bits2 then shl 1 (BitVec.ofInt 32 bits2) - 1 else 0)
  (Int.range y1 y2).foldl (fun data y =>
    setRow L data (int (y * stride) + bi1) (int (y * stride) + bi2) bytes
      (mask0.setWidth 8) (mask1.setWidth 8) (mask2.setWidth 8) val) self.data

/-- `bitmask:set` of a rectangle -/
def setRect (x1 y1 w h : ℤ) (val : Bool) : TerraBitmask :=
  let x2 := int (x1 + w)
  let y2 := int (y1 + h)
  let x1 := clamp x1 0 self.w
  let y1 := clamp y1 0 self.h
  let x2 := clamp x2 0 self.w
  let y2 := clamp y2 0 self.h
  let (x1, x2) := if x2 < x1 then (x2, x1) else (x1, x2)
  let (y1, y2) := if y2 < y1 then (y2, y1) else (y1, y2)
  { self with data := self.setRows L x1 x2 y1 y2 val }

/-! ## Places -/

variable {L} {self}

theorem int_eq {n : ℤ} (h : -2 ^ 31 ≤ n) (h' : n < 2 ^ 31) : int n = n :=
  Int.bmod_eq_of_le (by norm_num; omega) (by norm_num; omega)

theorem stride_eq (w : ℤ) : stride w = (w + 7) / 8 := ceil_eighth w

/-- The bytes are counted by an integer. -/
structure Valid (b : TerraBitmask) : Prop where
  w_nonneg : 0 ≤ b.w
  h_nonneg : 0 ≤ b.h
  bytes_lt : bytesize b.w b.h < 2 ^ 31

structure InRange (b : TerraBitmask) (x y : ℤ) : Prop where
  x : 0 ≤ x ∧ x < b.w
  y : 0 ≤ y ∧ y < b.h

instance (b : TerraBitmask) (x y : ℤ) : Decidable (b.InRange x y) :=
  decidable_of_iff ((0 ≤ x ∧ x < b.w) ∧ 0 ≤ y ∧ y < b.h)
    ⟨fun h => ⟨h.1, h.2⟩, fun h => ⟨h.x, h.y⟩⟩

/-- The position of a cell in rows of some bytes. -/
def position (s x y : ℤ) : ℤ := 8 * (y * s) + x

theorem stride_nonneg {w : ℤ} (h : 0 ≤ w) : 0 ≤ stride w := by
  rw [stride_eq]
  omega

theorem le_stride (w : ℤ) : w ≤ 8 * stride w := by
  rw [stride_eq]
  omega

/-- The place of a row that is in range. -/
theorem row_range {s h y : ℤ} (hs : 0 ≤ s) (hy : 0 ≤ y ∧ y < h) :
    0 ≤ y * s ∧ y * s + s ≤ s * h := by
  refine ⟨mul_nonneg hy.1 hs, ?_⟩
  calc
    y * s + s = (y + 1) * s := by ring
    _ ≤ h * s := mul_le_mul_of_nonneg_right (Int.add_one_le_of_lt hy.2) hs
    _ = s * h := mul_comm _ _

theorem rowaddr_eq (hv : self.Valid) {y : ℤ} (hy : 0 ≤ y ∧ y < self.h) :
    rowaddr y self.w = y * stride self.w := by
  have hs := stride_nonneg hv.w_nonneg
  have hrow := row_range hs hy
  have hbytes := hv.bytes_lt
  rw [bytesize] at hbytes
  rw [rowaddr, mul_comm, int_eq (by omega) (by omega)]

theorem position_range (hv : self.Valid) {x y : ℤ} (h : self.InRange x y) :
    0 ≤ position (stride self.w) x y ∧
      position (stride self.w) x y < 8 * bytesize self.w self.h := by
  have hrow := row_range (stride_nonneg hv.w_nonneg) h.y
  have hw := le_stride self.w
  have hx := h.x
  rw [position, bytesize]
  omega

/-- What is read is the bit in the first byte of the row. -/
theorem get_eq (hv : self.Valid) {x y : ℤ} (h : self.InRange x y) :
    self.get x y = self.data.bit (position (stride self.w) (x % 8) y) := by
  have hx := h.x
  have hdiv : position (stride self.w) (x % 8) y / 8 = y * stride self.w := by
    rw [position]
    omega
  have hmod : position (stride self.w) (x % 8) y % 8 = x % 8 := by
    rw [position]
    omega
  have hone (b : BitVec 8) : (b &&& 1 == 1) = b.getLsbD 0 := by
    change (b &&& 1#8 == 1#8) = b.getLsbD 0
    rw [BitVec.and_one_eq_setWidth_ofBool_getLsbD]
    cases b.getLsbD 0 <;> decide
  rw [get, rowaddr_eq hv h.y, Int.tmod_eq_emod_of_nonneg hx.1, Memory.bit, hdiv, hmod]
  simp only [hone, BitVec.getLsbD_ushiftRight, Nat.add_zero]

/-! ## Rectangles -/

theorem trunc_intCast (n : ℤ) : trunc (n : ℚ) = n := by
  simp [trunc]

theorem mask_zero (data : Memory) (i : ℤ) (val : Bool) : data.mask i 0 val = data := by
  rw [Memory.mask, maskBits_zero, Function.update_eq_self]

/-- A row of the rectangle is painted as a run of bits. -/
theorem setRow_eq (hL : L.Lawful) (data : Memory) (base x1 x2 : ℤ) (val : Bool) :
    setRow L data (base + (x1 + 7) / 8) (base + x2 / 8) (x2 / 8 - (x1 + 7) / 8)
        (if x2 / 8 < (x1 + 7) / 8 then bitsBetween (x1 % 8) (x2 % 8) else 0)
        (if x2 / 8 < (x1 + 7) / 8 ∨ x1 % 8 = 0 then 0 else bitsBetween (x1 % 8) 8)
        (if x2 / 8 < (x1 + 7) / 8 ∨ x2 % 8 = 0 then 0 else bitsBetween 0 (x2 % 8)) val =
      data.paintRun base x1 x2 val := by
  have hskip (m : Memory) (i : ℤ) (mask : BitVec 8) :
      (if mask ≠ 0 then m.mask i mask val else m) = m.mask i mask val := by
    by_cases hm : mask = 0
    · rw [hm, mask_zero, ite_self]
    · rw [if_pos hm]
  simp only [setRow, Memory.paintRun, hskip, sub_neg]
  by_cases hsame : x2 / 8 < (x1 + 7) / 8
  · simp only [hsame, ↓reduceIte]
  · have hlen : 0 ≤ x2 / 8 - (x1 + 7) / 8 := by omega
    simp only [hsame, ↓reduceIte, false_or, hL.fill_eq _ _ _ _ hlen, wholeByte]
    by_cases hx1 : x1 % 8 = 0 <;> by_cases hx2 : x2 % 8 = 0 <;>
      simp only [hx1, hx2, ↓reduceIte, mask_zero]

/-- The rows of the rectangle, with the masks computed from integers. -/
theorem setRows_eq (hL : L.Lawful) (hv : self.Valid) {x1 x2 y1 y2 : ℤ} (hx1 : 0 ≤ x1)
    (hx : x1 ≤ x2) (hy1 : 0 ≤ y1) (hy2 : y2 ≤ self.h) (val : Bool) :
    self.setRows L x1 x2 y1 y2 val =
      (Int.range y1 y2).foldl
        (fun data y => data.paintRun (y * stride self.w) x1 x2 val) self.data := by
  obtain ⟨hbits1, hbits2⟩ := leftover_bits x1 x2
  have htrunc : trunc ((x2 : ℚ) / 8) = x2 / 8 := Bitarray.trunc_eighth (by omega)
  have hrow (y : ℤ) (hy : y ∈ Int.range y1 y2) :
      int (y * stride self.w) = y * stride self.w := by
    rw [Int.mem_range_iff] at hy
    have := rowaddr_eq hv (y := y) (by omega)
    rwa [rowaddr, mul_comm] at this
  have hrest : x1 % 8 ≠ 0 → 8 - (8 * ((x1 + 7) / 8) - x1) = x1 % 8 := by omega
  have hpos1 : 0 < 8 * ((x1 + 7) / 8) - x1 ↔ ¬ x1 % 8 = 0 := by omega
  have hpos2 : 0 < x2 % 8 ↔ ¬ x2 % 8 = 0 := by omega
  have h1 : 0 ≤ x1 % 8 ∧ x1 % 8 ≤ 8 := by omega
  have h2 : 0 ≤ x2 % 8 ∧ x2 % 8 ≤ 8 := by omega
  simp only [setRows, ceil_eighth, htrunc, hbits1, hbits2, trunc_intCast, hpos1, hpos2,
    sub_neg]
  apply List.foldl_ext
  intro data y hy
  rw [hrow y hy, ← setRow_eq hL data (y * stride self.w) x1 x2 val]
  by_cases hsame : x2 / 8 < (x1 + 7) / 8
  · have hle : x1 % 8 ≤ x2 % 8 := by omega
    simp only [hsame, ↓reduceIte, hrest (by omega), setWidth_mask0 h1.1 hle h2.2, true_or]
    rfl
  · by_cases hz1 : x1 % 8 = 0 <;> by_cases hz2 : x2 % 8 = 0
    · simp only [hsame, hz1, hz2, ↓reduceIte, not_true_eq_false, or_true]
      rfl
    · simp only [hsame, hz1, hz2, ↓reduceIte, not_true_eq_false, not_false_eq_true, or_true,
        or_false, setWidth_mask2 h2.1 h2.2]
      rfl
    · simp only [hsame, hz1, hz2, ↓reduceIte, not_true_eq_false, not_false_eq_true, or_true,
        or_false, hrest hz1, setWidth_mask1 h1.1 h1.2]
      rfl
    · simp only [hsame, hz1, hz2, ↓reduceIte, not_false_eq_true, or_false, hrest hz1,
        setWidth_mask1 h1.1 h1.2, setWidth_mask2 h2.1 h2.2]
      rfl

/-- The rectangle paints the run between its sides, in the rows between its sides. -/
theorem painted_setRect (hL : L.Lawful) (hv : self.Valid) {x1 y1 w h : ℤ} (val : Bool)
    (hx : -2 ^ 31 ≤ x1 + w ∧ x1 + w < 2 ^ 31) (hy : -2 ^ 31 ≤ y1 + h ∧ y1 + h < 2 ^ 31) :
    Painted (rectBits (stride self.w) (sides x1 w self.w) (sides y1 h self.h)) val
      self.data (self.setRect L x1 y1 w h val).data := by
  have hsx := (sides_spec x1 w hv.w_nonneg).1
  have hsy := (sides_spec y1 h hv.h_nonneg).1
  have hdata : (self.setRect L x1 y1 w h val).data =
      self.setRows L (sides x1 w self.w).1 (sides x1 w self.w).2 (sides y1 h self.h).1
        (sides y1 h self.h).2 val := by
    simp only [setRect, int_eq hx.1 hx.2, int_eq hy.1 hy.2, sides_coe]
  rw [hdata, setRows_eq hL hv hsx.1 hsx.2.1 hsy.1 hsy.2.2]
  exact painted_rows _ _ _ hsx.2.1 val self.data

/-! ## Widening -/

theorem bit_alloc (data : Memory) (size p : ℤ) :
    (alloc data size).bit p = if p < 8 * size then data.bit p else false := by
  have hiff : p / 8 < size ↔ p < 8 * size := by omega
  simp only [Memory.bit, alloc, hiff]
  split
  · rfl
  · exact BitVec.getLsbD_zero

/-- Rows that are moved apart, the last one first: each is copied before anything is
written over it, and the bytes between them stay what they were. -/
theorem spread_rows {s s' : ℤ} (hs : 0 ≤ s) (hss : s ≤ s') (n : ℕ) (m : Memory) (i : ℤ) :
    (∀ y : ℤ, 0 ≤ y → y < n → y * s' ≤ i → i < y * s' + s →
        (Int.range 0 n).reverse.foldl (fun m y => m.copy m (y * s') (y * s) s) m i =
          m (y * s + (i - y * s'))) ∧
      ((∀ y : ℤ, 0 ≤ y → y < n → ¬ (y * s' ≤ i ∧ i < y * s' + s)) →
        (Int.range 0 n).reverse.foldl (fun m y => m.copy m (y * s') (y * s) s) m i = m i) := by
  have hrow {y k t : ℤ} (ht : 0 ≤ t) (hyk : y < k) : y * t + t ≤ k * t := by
    have := mul_le_mul_of_nonneg_right (Int.add_one_le_of_lt hyk) ht
    rwa [add_mul, one_mul] at this
  induction n generalizing m i with
  | zero => exact ⟨fun y h0 hy => by omega, fun _ => rfl⟩
  | succ n ih =>
      have hrange : Int.range 0 ((n + 1 : ℕ) : ℤ) = Int.range 0 n ++ [(n : ℤ)] := by
        simp [Int.range, List.range_succ]
      rw [hrange, List.reverse_append, List.reverse_singleton, List.singleton_append,
        List.foldl_cons]
      obtain ⟨ihin, ihout⟩ := ih (m.copy m (n * s') (n * s) s) i
      constructor
      · intro y h0 hy hle hlt
        obtain hyn | rfl := (show y < n ∨ y = n by omega)
        · have hsrc := hrow hs hyn
          have hdst : (n : ℤ) * s ≤ n * s' := mul_le_mul_of_nonneg_left hss (by omega)
          rw [ihin y h0 hyn hle hlt, Memory.copy, if_neg (by omega)]
        · rw [ihout, Memory.copy, if_pos ⟨hle, hlt⟩]
          intro y' _ hy'
          have := hrow (hs.trans hss) hy'
          omega
      · intro hout
        rw [ihout fun y h0 hy => hout y h0 (by omega), Memory.copy,
          if_neg (hout n (by omega) (by omega))]

/-- Where the bit of a cell is taken from when the matrix is widened. -/
def source (b : TerraBitmask) (w : ℤ) (moved : Bool) (x y : ℤ) : ℤ :=
  if moved = false ∧ x < 8 * stride b.w then position (stride b.w) x y
  else position (stride w) x y

theorem stride_mono {w w' : ℤ} (h : w ≤ w') : stride w ≤ stride w' := by
  rw [stride_eq, stride_eq]
  omega

/-- The rows that are moved in place. -/
theorem moveRows_eq (hL : L.Lawful) (hv : self.Valid) (data : Memory) {w : ℤ}
    (hw : self.w ≤ w) (hbytes : bytesize w self.h < 2 ^ 31) :
    self.moveRows L data w =
      (Int.range 0 self.h).reverse.foldl
        (fun m y => m.copy m (y * stride w) (y * stride self.w) (stride self.w)) data := by
  apply List.foldl_ext
  intro m y hy
  rw [List.mem_reverse, Int.mem_range_iff] at hy
  have hnew : TerraBitmask.Valid ⟨data, w, self.h⟩ := ⟨hv.w_nonneg.trans hw, hv.h_nonneg, hbytes⟩
  rw [rowaddr_eq hv hy, hL.copy_eq _ _ _ _ (stride_nonneg hv.w_nonneg)]
  exact congrArg (fun dst => m.copy m dst _ _) (rowaddr_eq hnew hy)

theorem widen_dims (L : Low) (b : TerraBitmask) (w h : ℤ) (moved : Bool) :
    (b.widen L w h moved).w = max w b.w ∧ (b.widen L w h moved).h = max h b.h := by
  rw [widen]
  split
  · omega
  · exact ⟨rfl, rfl⟩

/-- A row of the new layout begins behind the rows that were there before. -/
theorem bytesize_le_row {w : ℤ} (hv : self.Valid) (hw : self.w ≤ w) {y : ℤ}
    (hy : self.h ≤ y) : bytesize self.w self.h ≤ y * stride w := by
  have hs := stride_nonneg hv.w_nonneg
  calc
    bytesize self.w self.h = self.h * stride self.w := mul_comm _ _
    _ ≤ y * stride self.w := mul_le_mul_of_nonneg_right hy hs
    _ ≤ y * stride w := mul_le_mul_of_nonneg_left (stride_mono hw) (hv.h_nonneg.trans hy)

/-- Rows that are not moved within the array. -/
theorem bit_alloc_source (hv : self.Valid) {w : ℤ} (hw : self.w ≤ w) {moved : Bool}
    (hstay : moved = true ∨ ¬ (0 < self.w ∧ self.w < w)) {x y : ℤ} (hx : 0 ≤ x) :
    (alloc self.data (bytesize self.w self.h)).bit (position (stride w) x y) =
      if y < self.h then
        (alloc self.data (bytesize self.w self.h)).bit (self.source w moved x y)
      else false := by
  have hw0 := hv.w_nonneg
  have hsource : self.source w moved x y = position (stride w) x y := by
    obtain rfl | hstay := hstay
    · rw [source, if_neg (by simp)]
    · obtain h0 | rfl := (show self.w = 0 ∨ w = self.w by omega)
      · have hzero : stride self.w = 0 := by
          rw [h0, stride_eq]
          rfl
        rw [source, if_neg (by omega)]
      · rw [source, ite_self]
  rw [hsource]
  split
  · rfl
  · have := bytesize_le_row hv hw (y := y) (by omega)
    rw [bit_alloc, if_neg]
    rw [position]
    omega

/-- Rows that are moved within the array. -/
theorem bit_moveRows (hL : L.Lawful) (hv : self.Valid) {w : ℤ} (hw : self.w ≤ w)
    (hbytes : bytesize w self.h < 2 ^ 31) {x y : ℤ} (hx : 0 ≤ x ∧ x < w) (hy : 0 ≤ y) :
    (self.moveRows L (alloc self.data (bytesize self.w self.h)) w).bit
        (position (stride w) x y) =
      if y < self.h then
        (alloc self.data (bytesize self.w self.h)).bit (self.source w false x y)
      else false := by
  have hs := stride_nonneg hv.w_nonneg
  have hss := stride_mono hw
  have hxw := le_stride w
  obtain ⟨n, hn⟩ := Int.eq_ofNat_of_zero_le hv.h_nonneg
  have hspread := spread_rows hs hss n (alloc self.data (bytesize self.w self.h))
    (position (stride w) x y / 8)
  rw [← hn] at hspread
  have hmove := moveRows_eq hL hv (alloc self.data (bytesize self.w self.h)) hw hbytes
  have hmod : position (stride w) x y % 8 = x % 8 := by
    rw [position]
    omega
  have hdiv : position (stride w) x y / 8 = y * stride w + x / 8 := by
    rw [position]
    omega
  -- no row but the one at `y` is moved to where the bit is
  have hother (y' : ℤ) (h : y' * stride w ≤ y * stride w + x / 8 ∧
      y * stride w + x / 8 < y' * stride w + stride self.w) : y' = y := by
    by_contra hne
    obtain hlt | hlt := lt_or_gt_of_ne hne
    · have := mul_le_mul_of_nonneg_right (Int.add_one_le_of_lt hlt) (hs.trans hss)
      rw [add_mul, one_mul] at this
      omega
    · have := mul_le_mul_of_nonneg_right (Int.add_one_le_of_lt hlt) (hs.trans hss)
      rw [add_mul, one_mul] at this
      omega
  by_cases hcopied : y < self.h ∧ x < 8 * stride self.w
  · have hbyte := hspread.1 y hy hcopied.1 (by omega) (by omega)
    have hpos : position (stride self.w) x y / 8 = y * stride self.w + x / 8 := by
      rw [position]
      omega
    have hpos' : position (stride self.w) x y % 8 = x % 8 := by
      rw [position]
      omega
    have hsub : y * stride self.w + (y * stride w + x / 8 - y * stride w) =
        y * stride self.w + x / 8 := by ring
    rw [if_pos hcopied.1, source, if_pos ⟨rfl, hcopied.2⟩, Memory.bit, Memory.bit, hmove, hbyte,
      hmod, hpos', hdiv, hsub, hpos]
  · have hbyte := hspread.2 fun y' _ hy' h => by
      rw [hdiv] at h
      have := hother y' h
      subst this
      omega
    have hplain : (self.moveRows L (alloc self.data (bytesize self.w self.h)) w).bit
        (position (stride w) x y) =
          (alloc self.data (bytesize self.w self.h)).bit (position (stride w) x y) := by
      rw [Memory.bit, Memory.bit, hmove, hbyte]
    rw [hplain]
    split
    · rw [source, if_neg (by omega)]
    · have := bytesize_le_row hv hw (y := y) (by omega)
      rw [bit_alloc, if_neg]
      rw [position]
      omega

theorem bit_widen (hL : L.Lawful) (hv : self.Valid) {w h : ℤ}
    (hbytes : bytesize (max w self.w) (max h self.h) < 2 ^ 31) (moved : Bool) {x y : ℤ}
    (hx : 0 ≤ x ∧ x < max w self.w) (hy : 0 ≤ y ∧ y < max h self.h) :
    (self.widen L w h moved).data.bit (position (stride (max w self.w)) x y) =
      if y < self.h then
        (alloc self.data (bytesize self.w self.h)).bit (self.source (max w self.w) moved x y)
      else false := by
  have hw : self.w ≤ max w self.w := le_max_right _ _
  have hbytes' : bytesize (max w self.w) self.h < 2 ^ 31 := by
    refine lt_of_le_of_lt ?_ hbytes
    exact mul_le_mul_of_nonneg_left (le_max_right _ _) (stride_nonneg (hv.w_nonneg.trans hw))
  by_cases hdone : w ≤ self.w ∧ h ≤ self.h
  · have hw' : max w self.w = self.w := max_eq_right hdone.1
    have hh' : max h self.h = self.h := max_eq_right hdone.2
    rw [hw'] at hx ⊢
    rw [hh'] at hy
    have hrange := position_range hv ⟨hx, hy⟩
    rw [widen, if_pos hdone, if_pos hy.2, source, ite_self, bit_alloc, if_pos hrange.2]
  by_cases hstay : moved = true ∨ ¬ (0 < self.w ∧ self.w < max w self.w)
  · have hdata : (self.widen L w h moved).data =
        alloc self.data (bytesize self.w self.h) := by
      rw [widen, if_neg hdone]
      obtain rfl | hstay := hstay
      · rfl
      · cases moved <;> simp only [if_neg hstay] <;> rfl
    rw [hdata, bit_alloc_source hv hw hstay hx.1]
  · obtain ⟨hmoved, hcopy⟩ := not_or.mp hstay
    rw [not_not] at hcopy
    rw [Bool.not_eq_true] at hmoved
    subst hmoved
    have hdata : (self.widen L w h false).data =
        self.moveRows L (alloc self.data (bytesize self.w self.h)) (max w self.w) := by
      rw [widen, if_neg hdone]
      simp only [if_pos hcopy]
      rfl
    rw [hdata, bit_moveRows hL hv hw hbytes' hx hy.1]

end TerraBitmask

end LuaAttic.Bitmask
