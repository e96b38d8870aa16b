import Mathlib.Tactic.Linarith
import Mathlib.Tactic.NormNum
import LuaAttic.Bitmask.Bitarray

/-!
# Rectangles of bits

A rectangle paints, in each of its rows, the run of bits between its sides, and a
bit that is read in range is the one at its position.
-/

namespace LuaAttic.Bitmask

open LuaAttic.Support

/-! ## Masks -/

theorem setWidth_signExtend (b : BitVec 8) : (b.signExtend 32).setWidth 8 = b := by
  apply BitVec.eq_of_getLsbD_eq
  intro k hk
  rw [BitVec.getLsbD_setWidth, BitVec.getLsbD_signExtend, if_pos hk,
    decide_eq_true hk, decide_eq_true (show k < 32 by omega), Bool.true_and, Bool.true_and]

/-- The store changes a byte as the lowest byte of the mask says. -/
theorem exec_mask (m : Memory) (dst src : ℤ) (msk : BitVec 32) (val : Bool) :
    Store.exec m (.mask dst src msk val) =
      Function.update m dst (maskBits (m src) (msk.setWidth 8) val) := by
  simp only [Store.exec]
  congr 1
  cases val with
  | false =>
      simp only [maskBits, Bool.false_eq_true, ↓reduceIte, band, bnot,
        BitVec.setWidth_and, setWidth_signExtend,
        BitVec.setWidth_not (show 8 ≤ 32 by decide)]
  | true =>
      simp only [maskBits, ↓reduceIte, bor, BitVec.setWidth_or, setWidth_signExtend]

theorem exec_fill (m : Memory) (dst len : ℤ) (c : BitVec 8) :
    Store.exec m (.fill dst len c) = m.fill dst len c := rfl

theorem shl_one_sub_one : ∀ n : Fin 32,
    shl 1 (BitVec.ofInt 32 ((n : ℕ) : ℤ)) - 1 = BitVec.ofNat 32 (2 ^ (n : ℕ) - 1) := by
  decide

/-- The bits of `shl(1, n) - 1`. -/
theorem getLsbD_ones {n : ℤ} (h : 0 ≤ n) (hn : n ≤ 8) {k : ℕ} (hk : k < 32) :
    (shl 1 (BitVec.ofInt 32 n) - 1).getLsbD k = decide ((k : ℤ) < n) := by
  obtain ⟨n, rfl⟩ := Int.eq_ofNat_of_zero_le h
  rw [shl_one_sub_one ⟨n, by omega⟩, BitVec.getLsbD_ofNat,
    Nat.testBit_two_pow_sub_one, decide_eq_true hk, Bool.true_and, decide_eq_decide,
    Nat.cast_lt]

theorem getLsbD_shl (x : BitVec 32) {n : ℤ} (h : 0 ≤ n) (hn : n ≤ 8) {k : ℕ}
    (hk : k < 32) :
    (shl x (BitVec.ofInt 32 n)).getLsbD k =
      (decide (n ≤ k) && x.getLsbD (k - n.toNat)) := by
  obtain ⟨n, rfl⟩ := Int.eq_ofNat_of_zero_le h
  have hmod : (BitVec.ofInt 32 (n : ℤ)).toNat % 32 = n := by
    rw [BitVec.ofInt_natCast, BitVec.toNat_ofNat]
    omega
  have hle : decide (n ≤ k) = !decide (k < n) := by
    rw [← decide_not, decide_eq_decide, not_lt]
  rw [shl, hmod, BitVec.getLsbD_shiftLeft, decide_eq_true hk, Bool.true_and,
    Int.toNat_natCast]
  simp only [Nat.cast_le, hle]

theorem setWidth_mask0 {a b : ℤ} (ha : 0 ≤ a) (hab : a ≤ b) (hb : b ≤ 8) :
    (shl (shl 1 (BitVec.ofInt 32 (b - a)) - 1) (BitVec.ofInt 32 a)).setWidth 8 =
      bitsBetween a b := by
  apply eq_bitsBetween
  intro k hk
  rw [BitVec.getLsbD_setWidth, decide_eq_true hk, Bool.true_and,
    getLsbD_shl _ ha (by omega) (by omega),
    getLsbD_ones (by omega) (by omega) (by omega), ← Bool.decide_and,
    decide_eq_decide]
  omega

theorem setWidth_mask1 {a : ℤ} (ha : 0 ≤ a) (ha' : a ≤ 8) :
    (bnot (shl 1 (BitVec.ofInt 32 a) - 1)).setWidth 8 = bitsBetween a 8 := by
  apply eq_bitsBetween
  intro k hk
  rw [BitVec.getLsbD_setWidth, decide_eq_true hk, Bool.true_and, bnot,
    BitVec.getLsbD_not, decide_eq_true (show k < 32 by omega), Bool.true_and,
    getLsbD_ones ha ha' (by omega), ← decide_not, decide_eq_decide]
  omega

theorem setWidth_mask2 {b : ℤ} (hb : 0 ≤ b) (hb' : b ≤ 8) :
    (shl 1 (BitVec.ofInt 32 b) - 1).setWidth 8 = bitsBetween 0 b := by
  apply eq_bitsBetween
  intro k hk
  rw [BitVec.getLsbD_setWidth, decide_eq_true hk, Bool.true_and,
    getLsbD_ones hb hb' (by omega), decide_eq_decide]
  omega

/-! ## Places -/

theorem ceil_eighth (x : ℤ) : ⌈(x : ℚ) / 8⌉ = (x + 7) / 8 := by
  have h := Rat.ceil_intCast_div_natCast x 8
  norm_num at h
  omega

theorem floor_eighth (x : ℤ) : ⌊(x : ℚ) / 8⌋ = x / 8 := by
  have h := Rat.floor_intCast_div_natCast x 8
  norm_num at h
  omega

theorem tobit_intCast (n : ℤ) : tobit (n : ℚ) = BitVec.ofInt 32 n := by
  simp [tobit, trunc]

/-! ## Rows -/

section Row

variable (m : Memory) (base : ℤ) {x1 x2 : ℤ} (val : Bool)

/-- What the leftover bits at the two ends are, in bits. -/
theorem leftover_bits (x1 x2 : ℤ) :
    (((((x1 + 7) / 8 : ℤ) : ℚ) - (x1 : ℚ) / 8) * 8 = ((8 * ((x1 + 7) / 8) - x1 : ℤ) : ℚ)) ∧
      ((x2 : ℚ) / 8 - ((x2 / 8 : ℤ) : ℚ)) * 8 = ((x2 % 8 : ℤ) : ℚ) := by
  constructor
  · push_cast
    ring
  · rw [Int.emod_def]
    push_cast
    ring

/-- The masks of a run, as `rect` computes them. -/
def runMasks (x1 x2 : ℤ) : Option (BitVec 32) × Option (BitVec 32) × Option (BitVec 32) :=
  if x2 / 8 < (x1 + 7) / 8 then
    (some (shl (shl 1 (BitVec.ofInt 32 (x2 % 8 - x1 % 8)) - 1) (BitVec.ofInt 32 (x1 % 8))),
      none, none)
  else
    (none, if x1 % 8 = 0 then none else some (bnot (shl 1 (BitVec.ofInt 32 (x1 % 8)) - 1)),
      if x2 % 8 = 0 then none else some (shl 1 (BitVec.ofInt 32 (x2 % 8)) - 1))

theorem foldl_rowStores (h : x1 ≤ x2) :
    (Bitarray.rowStores (base + (x1 + 7) / 8) (base + x2 / 8) (runMasks x1 x2).1
        (runMasks x1 x2).2.1 (runMasks x1 x2).2.2 val).foldl Store.exec m =
      m.paintRun base x1 x2 val := by
  have h1 : 0 ≤ x1 % 8 ∧ x1 % 8 ≤ 8 := by omega
  have h2 : 0 ≤ x2 % 8 ∧ x2 % 8 ≤ 8 := by omega
  by_cases hsame : x2 / 8 < (x1 + 7) / 8
  · have hle : x1 % 8 ≤ x2 % 8 := by omega
    simp only [Bitarray.rowStores, runMasks, hsame, ↓reduceIte, List.foldl_cons,
      List.foldl_nil, exec_mask, setWidth_mask0 h1.1 hle h2.2, Memory.paintRun, Memory.mask]
  · have hlen : base + x2 / 8 - (base + (x1 + 7) / 8) = x2 / 8 - (x1 + 7) / 8 := by ring
    by_cases hx1 : x1 % 8 = 0 <;> by_cases hx2 : x2 % 8 = 0 <;>
      simp only [Bitarray.rowStores, runMasks, hsame, hx1, hx2, ↓reduceIte,
        Option.toList_none, Option.toList_some, List.map_nil, List.map_cons,
        List.append_nil, List.cons_append, List.nil_append, List.foldl_cons,
        List.foldl_nil, exec_mask, setWidth_mask1 h1.1 h1.2, setWidth_mask2 h2.1 h2.2,
        hlen, Memory.paintRun, Memory.mask, exec_fill, wholeByte]

end Row

/-- The masks that `rect` computes from fractions of bytes. -/
theorem rowsStores_eq (stride y1 y2 : ℤ) {x1 x2 : ℤ} (h : x1 ≤ x2) (val : Bool) :
    Bitarray.rowsStores stride x1 x2 y1 y2 val =
      (Int.range y1 y2).flatMap fun y =>
        Bitarray.rowStores (y * stride + (x1 + 7) / 8) (y * stride + x2 / 8)
          (runMasks x1 x2).1 (runMasks x1 x2).2.1 (runMasks x1 x2).2.2 val := by
  obtain ⟨hbits1, hbits2⟩ := leftover_bits x1 x2
  have hrest : x1 % 8 ≠ 0 →
      (8 : ℚ) - ((8 * ((x1 + 7) / 8) - x1 : ℤ) : ℚ) = ((x1 % 8 : ℤ) : ℚ) := by
    intro hx1
    have h : x1 % 8 = 8 - (8 * ((x1 + 7) / 8) - x1) := by omega
    rw [h, Int.cast_sub]
    norm_num
  have hpos1 : (0 : ℚ) < ((8 * ((x1 + 7) / 8) - x1 : ℤ) : ℚ) ↔ ¬ x1 % 8 = 0 := by
    rw [Int.cast_pos]
    omega
  have hpos2 : (0 : ℚ) < ((x2 % 8 : ℤ) : ℚ) ↔ ¬ x2 % 8 = 0 := by
    rw [Int.cast_pos]
    omega
  simp only [Bitarray.rowsStores, ceil_eighth, floor_eighth, hbits1, hbits2, hpos1, hpos2,
    sub_neg]
  by_cases hsame : x2 / 8 < (x1 + 7) / 8
  · have hx1 : x1 % 8 ≠ 0 := by omega
    simp only [runMasks, hsame, ↓reduceIte, hrest hx1, ← Int.cast_sub, tobit_intCast]
  · simp only [runMasks, hsame, ↓reduceIte, ite_not]
    by_cases hx1 : x1 % 8 = 0
    · simp only [hx1, ↓reduceIte, tobit_intCast]
    · simp only [hx1, hrest hx1, ↓reduceIte, tobit_intCast]

/-- A row is painted as whole bytes and what is left over at its ends. -/
theorem foldl_rowsStores (stride y1 y2 : ℤ) {x1 x2 : ℤ} (h : x1 ≤ x2) (val : Bool)
    (m : Memory) :
    (Bitarray.rowsStores stride x1 x2 y1 y2 val).foldl Store.exec m =
      (Int.range y1 y2).foldl (fun m y => m.paintRun (y * stride) x1 x2 val) m := by
  rw [rowsStores_eq stride y1 y2 h, List.foldl_flatMap]
  simp only [foldl_rowStores _ _ val h]

/-! ## Sides of a rectangle -/

theorem extent_cases (e : Extent) :
    e = ⊥ ∨ e = ((⊤ : WithTop ℤ) : Extent) ∨ ∃ n : ℤ, e = n := by
  cases e with
  | none => exact .inl rfl
  | some e =>
      cases e with
      | top => exact .inr (.inl rfl)
      | coe n => exact .inr (.inr ⟨n, rfl⟩)

theorem toInt_coe (n : ℤ) : Extent.toInt n = n := rfl

theorem extent_coe (n : ℤ) : (n : Extent) = ((n : WithTop ℤ) : WithBot (WithTop ℤ)) := rfl

theorem extent_le_iff {a b : ℤ} : (a : Extent) ≤ b ↔ a ≤ b := WithBotTop.coe_le_coe

theorem extent_add (m n : ℤ) : (m : Extent) + (n : Extent) = ((m + n : ℤ) : Extent) := rfl

theorem clamp_coe (n hi : ℤ) : clamp (n : Extent) 0 hi = (clamp n 0 hi : ℤ) := by
  rw [clamp, clamp, extent_coe (min _ _), WithTop.coe_min, WithBot.coe_min, WithTop.coe_max,
    WithBot.coe_max]
  rfl

/-- A clamped extent is an integer, on the same side of each place in range. -/
theorem toInt_clamp (e : Extent) {hi : ℤ} (h : 0 ≤ hi) :
    (0 ≤ Extent.toInt (clamp e 0 hi) ∧ Extent.toInt (clamp e 0 hi) ≤ hi) ∧
      ∀ x : ℤ, 0 ≤ x → x < hi → (Extent.toInt (clamp e 0 hi) ≤ x ↔ e ≤ x) := by
  have h0 : ((0 : ℤ) : Extent) ≤ hi := extent_le_iff.mpr h
  obtain rfl | rfl | ⟨n, rfl⟩ := extent_cases e
  · have hc : clamp (⊥ : Extent) 0 hi = ((0 : ℤ) : Extent) := by
      rw [clamp, bot_sup_eq]
      exact min_eq_left h0
    rw [hc, toInt_coe]
    exact ⟨⟨le_rfl, h⟩, fun x hx _ => iff_of_true hx bot_le⟩
  · have hc : clamp ((⊤ : WithTop ℤ) : Extent) 0 hi = hi := by
      rw [clamp, WithBot.coe_top, top_sup_eq, top_inf_eq]
    rw [hc, toInt_coe]
    refine ⟨⟨h, le_rfl⟩, fun x _ hx => iff_of_false (by omega) ?_⟩
    rw [extent_coe, WithBot.coe_le_coe, top_le_iff]
    exact WithTop.coe_ne_top
  · rw [clamp_coe, toInt_coe, clamp]
    refine ⟨by omega, fun x hx hx' => ?_⟩
    rw [extent_le_iff]
    omega

/-- Between a corner and the one opposite to it, on one axis. -/
def Spans (x1 : ℤ) (w : Extent) (x : ℤ) : Prop :=
  ((x1 : Extent) ≤ x ∧ (x : Extent) < x1 + w) ∨ (x1 + w ≤ x ∧ (x : Extent) < x1)

theorem spans_bot {x1 x : ℤ} : Spans x1 ⊥ x ↔ x < x1 := by
  rw [Spans, WithBot.add_bot, ← not_le (a := (x1 : Extent)), extent_le_iff]
  simp

theorem spans_top {x1 x : ℤ} : Spans x1 ((⊤ : WithTop ℤ) : Extent) x ↔ x1 ≤ x := by
  have hadd : (x1 : Extent) + ((⊤ : WithTop ℤ) : Extent) = ((⊤ : WithTop ℤ) : Extent) := rfl
  have hlt : (x : Extent) < ((⊤ : WithTop ℤ) : Extent) := by
    rw [extent_coe, WithBot.coe_lt_coe]
    exact WithTop.coe_lt_top x
  rw [Spans, hadd, extent_le_iff]
  simp only [hlt, not_le.mpr hlt, and_true, false_and, or_false]

theorem spans_int {x1 n x : ℤ} :
    Spans x1 n x ↔ (x1 ≤ x ∧ x < x1 + n) ∨ (x1 + n ≤ x ∧ x < x1) := by
  simp only [Spans, extent_add, ← not_le, extent_le_iff]

instance decidableSpans (x1 x : ℤ) : (w : Extent) → Decidable (Spans x1 w x)
  | none => decidable_of_iff (x < x1) spans_bot.symm
  | some none => decidable_of_iff (x1 ≤ x) spans_top.symm
  | some (some n) =>
      decidable_of_iff ((x1 ≤ x ∧ x < x1 + n) ∨ (x1 + n ≤ x ∧ x < x1)) spans_int.symm

/-- A finite size that is not negative. -/
theorem spans_coe {x1 w x : ℤ} (hw : 0 ≤ w) : Spans x1 w x ↔ x1 ≤ x ∧ x < x1 + w := by
  rw [spans_int]
  omega

/-- The sides of a rectangle on one axis, normalised and clipped. -/
def sides (x1 : ℤ) (w : Extent) (hi : ℤ) : ℤ × ℤ :=
  let x2 := Extent.toInt (clamp (x1 + w) 0 hi)
  let x1 := Extent.toInt (clamp x1 0 hi)
  if x2 < x1 then (x2, x1) else (x1, x2)

/-- The sides for a size that is an integer. -/
theorem sides_coe (x1 w hi : ℤ) :
    sides x1 w hi =
      if clamp (x1 + w) 0 hi < clamp x1 0 hi then (clamp (x1 + w) 0 hi, clamp x1 0 hi)
      else (clamp x1 0 hi, clamp (x1 + w) 0 hi) := by
  simp only [sides, extent_add, clamp_coe, toInt_coe]

theorem sides_spec (x1 : ℤ) (w : Extent) {hi : ℤ} (h : 0 ≤ hi) :
    (0 ≤ (sides x1 w hi).1 ∧ (sides x1 w hi).1 ≤ (sides x1 w hi).2 ∧
        (sides x1 w hi).2 ≤ hi) ∧
      ∀ x, 0 ≤ x → x < hi →
        ((sides x1 w hi).1 ≤ x ∧ x < (sides x1 w hi).2 ↔ Spans x1 w x) := by
  obtain ⟨h1, hle1⟩ := toInt_clamp x1 h
  obtain ⟨h2, hle2⟩ := toInt_clamp (x1 + w) h
  simp only [sides, Spans]
  constructor
  · split <;> dsimp only <;> omega
  · intro x hx hx'
    rw [← not_le (a := (x1 : Extent) + w), ← not_le (a := (x1 : Extent)),
      ← hle1 x hx hx', ← hle2 x hx hx']
    split <;> dsimp only <;> omega

/-- A position is in one row. -/
theorem row_unique {s y y' a b : ℤ} (ha : 0 ≤ a ∧ a < s) (hb : 0 ≤ b ∧ b < s)
    (h : y * s + a = y' * s + b) : y = y' := by
  have hy : (y * s + a) / s = y := by
    rw [add_comm, Int.add_mul_ediv_right _ _ (by omega), Int.ediv_eq_zero_of_lt ha.1 ha.2, zero_add]
  have hy' : (y' * s + b) / s = y' := by
    rw [add_comm, Int.add_mul_ediv_right _ _ (by omega), Int.ediv_eq_zero_of_lt hb.1 hb.2, zero_add]
  rw [← hy, ← hy', h]

/-- The positions of the bits between the sides of a rectangle, in rows of `s` bytes. -/
def rectBits (s : ℤ) (sx sy : ℤ × ℤ) : Set ℤ :=
  {p | ∃ y, (sy.1 ≤ y ∧ y < sy.2) ∧ 8 * (y * s) + sx.1 ≤ p ∧ p < 8 * (y * s) + sx.2}

/-- The cells in range whose bits are between the sides. -/
theorem mem_rectBits {s hiX hiY : ℤ} (hs : hiX ≤ 8 * s) (x1 y1 : ℤ) (w h : Extent)
    {x y : ℤ} (hx : 0 ≤ x ∧ x < hiX) (hy : 0 ≤ y ∧ y < hiY) :
    8 * (y * s) + x ∈ rectBits s (sides x1 w hiX) (sides y1 h hiY) ↔
      Spans x1 w x ∧ Spans y1 h y := by
  obtain ⟨hsx, hspanx⟩ := sides_spec x1 w (show 0 ≤ hiX by omega)
  have hspany := (sides_spec y1 h (show 0 ≤ hiY by omega)).2
  rw [← hspanx x hx.1 hx.2, ← hspany y hy.1 hy.2]
  constructor
  · rintro ⟨y', hy', hle, hlt⟩
    have hyy : y = y' := by
      refine row_unique (s := 8 * s) (a := x) (b := 8 * (y * s) + x - 8 * (y' * s)) ?_ ?_ ?_
      · omega
      · omega
      · ring
    subst hyy
    exact ⟨by omega, hy'⟩
  · rintro ⟨hx', hy'⟩
    exact ⟨y, hy', by omega⟩

namespace Bitarray

variable {self : Bitarray}

/-- The cell is in range. -/
structure InRange (b : Bitarray) (x y : ℤ) : Prop where
  x : 0 ≤ x ∧ x < b.w
  y : 0 ≤ y ∧ y < b.h

/-- The fields fit together, whatever the bytes are. -/
structure Valid (b : Bitarray) : Prop where
  w_nonneg : 0 ≤ b.w
  h_nonneg : 0 ≤ b.h
  stride_eq : b.stride = (b.w + 7) / 8
  le_maxI : b.stride * b.h - 1 / 8 ≤ b.maxI

/-- The position of a bit. -/
def position (self : Bitarray) (x y : ℤ) : ℤ := 8 * (y * self.stride) + x

theorem Valid.stride_nonneg (hv : self.Valid) : 0 ≤ self.stride := by
  have := hv.w_nonneg
  have := hv.stride_eq
  omega

theorem Valid.w_le (hv : self.Valid) : self.w ≤ 8 * self.stride := by
  have := hv.stride_eq
  omega

/-- The bytes of a row that is in range are in the array. -/
theorem Valid.row_le (hv : self.Valid) {y : ℤ} (hy : y < self.h) :
    y * self.stride + self.stride ≤ self.stride * self.h := by
  have h := mul_le_mul_of_nonneg_right (Int.add_one_le_of_lt hy) hv.stride_nonneg
  calc
    y * self.stride + self.stride = (y + 1) * self.stride := by ring
    _ ≤ self.h * self.stride := h
    _ = self.stride * self.h := mul_comm _ _

theorem Valid.row_nonneg (hv : self.Valid) {y : ℤ} (hy : 0 ≤ y) : 0 ≤ y * self.stride :=
  mul_nonneg hy hv.stride_nonneg

theorem position_range (hv : self.Valid) {x y : ℤ} (h : self.InRange x y) :
    0 ≤ self.position x y ∧ self.position x y < 8 * (self.stride * self.h) := by
  have h0 := hv.row_nonneg h.y.1
  have h1 := hv.row_le h.y.2
  have hw := hv.w_le
  have hx := h.x
  rw [position]
  omega

theorem place_eq (hv : self.Valid) {x y : ℤ} (h : self.InRange x y) :
    self.place x y = (self.position x y : ℚ) / 8 := by
  obtain ⟨h0, hlt⟩ := position_range hv h
  have heq : (y * self.stride + x / 8 : ℚ) = (self.position x y : ℚ) / 8 := by
    rw [position]
    push_cast
    ring
  have h0' : (0 : ℚ) ≤ (self.position x y : ℚ) / 8 := by positivity
  have hle : (self.position x y : ℚ) / 8 ≤ self.maxI := by
    have hlt' : (self.position x y : ℚ) + 1 ≤ 8 * (self.stride * self.h) := by
      exact_mod_cast hlt
    have := hv.le_maxI
    linarith
  rw [place, heq, clamp, max_eq_left h0', min_eq_left hle]

theorem trunc_eighth {p : ℤ} (h : 0 ≤ p) : trunc ((p : ℚ) / 8) = p / 8 := by
  rw [trunc, if_pos (by positivity), floor_eighth]

/-- The number of a bit in its byte. -/
theorem band_tobit_seven (p : ℤ) :
    band (tobit (p : ℚ)) 7 = BitVec.ofNat 32 (p % 8).toNat := by
  apply BitVec.eq_of_toNat_eq
  rw [tobit_intCast, band, BitVec.toNat_and, BitVec.toNat_ofInt, BitVec.toNat_ofNat]
  have h7 : (7 : BitVec 32).toNat = 2 ^ 3 - 1 := by decide
  rw [h7, Nat.and_two_pow_sub_one_eq_mod]
  omega

theorem band_one (x : BitVec 32) : (band x 1 == 1) = x.getLsbD 0 := by
  change (x &&& 1#32 == 1#32) = x.getLsbD 0
  rw [BitVec.and_one_eq_setWidth_ofBool_getLsbD]
  cases x.getLsbD 0 <;> decide

theorem getLsbD_shr (b : BitVec 8) {k : ℕ} (hk : k < 8) :
    (band (shr (b.signExtend 32) (BitVec.ofNat 32 k)) 1 == 1) = b.getLsbD k := by
  have hmod : (BitVec.ofNat 32 k).toNat % 32 = k := by
    rw [BitVec.toNat_ofNat]
    omega
  rw [band_one, shr, hmod, BitVec.getLsbD_ushiftRight, Nat.add_zero,
    BitVec.getLsbD_signExtend, if_pos hk, decide_eq_true (show k < 32 by omega),
    Bool.true_and]

theorem get_eq (hv : self.Valid) {x y : ℤ} (h : self.InRange x y) :
    self.get x y = self.data.bit (self.position x y) := by
  have h0 := (position_range hv h).1
  have heighth : (self.position x y : ℚ) / 8 * 8 = (self.position x y : ℚ) := by ring
  simp only [get, place_eq hv h, trunc_eighth h0, heighth, Memory.bit]
  rw [band_tobit_seven]
  exact getLsbD_shr _ (toNat_emod_lt _)

theorem realloc_valid (b : Bitarray) (w h : ℤ) : (b.realloc w h).Valid := by
  have hstride : (b.realloc w h).stride = ((b.realloc w h).w + 7) / 8 := ceil_eighth _
  exact ⟨le_max_left 0 w, le_max_left 0 h, hstride, le_rfl⟩

/-- No bit of a new array is set. -/
theorem new_data (w h : ℤ) : (new w h).data = fun _ => 0 := by
  have hlen : (-1 : ℤ) < ⌈((max 0 w : ℤ) : ℚ) / 8⌉ * max 0 h := by
    have hw : 0 ≤ ⌈((max 0 w : ℤ) : ℚ) / 8⌉ := by
      rw [ceil_eighth]
      omega
    have := mul_nonneg hw (le_max_left 0 h)
    omega
  simp only [new, realloc, data, Growbuffer.call, if_pos hlen]

theorem exec_valid (hv : self.Valid) (stores : List Store) : (self.exec stores).Valid :=
  ⟨hv.w_nonneg, hv.h_nonneg, hv.stride_eq, hv.le_maxI⟩

/-- The rectangle paints the run between its sides, in the rows between its sides. -/
theorem painted_rect (hv : self.Valid) (x1 y1 : ℤ) (w h : Extent) (val : Bool) :
    Painted (rectBits self.stride (sides x1 w self.w) (sides y1 h self.h)) val
      self.data (self.rect x1 y1 w h val).data := by
  have hx := (sides_spec x1 w hv.w_nonneg).1
  have hrun : (self.rect x1 y1 w h val).data =
      (Bitarray.rowsStores self.stride (sides x1 w self.w).1 (sides x1 w self.w).2
        (sides y1 h self.h).1 (sides y1 h self.h).2 val).foldl Store.exec self.data := rfl
  rw [hrun, foldl_rowsStores _ _ _ hx.2.1]
  exact painted_rows self.stride _ _ hx.2.1 val self.data

/-! ## Indices -/

/-- The store reads and writes at these indices only, and in no other array. -/
structure StaysWithin (s : Store) (a b : ℤ) : Prop where
  index : ∀ i, i ∈ s.written ∨ i ∈ s.read → a ≤ i ∧ i < b
  readFrom : s.readFrom = ∅

theorem within_rowStores (base : ℤ) {x1 x2 : ℤ} (h : x1 ≤ x2) (val : Bool) {s : Store}
    (hs : s ∈ Bitarray.rowStores (base + (x1 + 7) / 8) (base + x2 / 8) (runMasks x1 x2).1
      (runMasks x1 x2).2.1 (runMasks x1 x2).2.2 val) :
    StaysWithin s (base + x1 / 8) (base + (x2 + 7) / 8) := by
  by_cases hsame : x2 / 8 < (x1 + 7) / 8
  · simp only [runMasks, hsame, ↓reduceIte, rowStores, List.mem_singleton] at hs
    subst hs
    refine ⟨fun i hi => ?_, rfl⟩
    simp only [Store.written, Store.read, Set.mem_singleton_iff, or_self] at hi
    omega
  · simp only [runMasks, hsame, ↓reduceIte, rowStores, List.mem_append, List.mem_singleton,
      List.mem_map, Option.mem_toList, Option.ite_none_left_eq_some] at hs
    obtain (rfl | ⟨m, ⟨hx1, _⟩, rfl⟩) | ⟨m, ⟨hx2, _⟩, rfl⟩ := hs
    · refine ⟨fun i hi => ?_, rfl⟩
      simp only [Store.written, Store.read, Set.mem_Ico, Set.mem_empty_iff_false, or_false] at hi
      omega
    · refine ⟨fun i hi => ?_, rfl⟩
      simp only [Store.written, Store.read, Set.mem_singleton_iff, or_self] at hi
      omega
    · refine ⟨fun i hi => ?_, rfl⟩
      simp only [Store.written, Store.read, Set.mem_singleton_iff, or_self] at hi
      omega

/-- A rectangle stays in the array. -/
theorem within_rectStores (hv : self.Valid) (x1 y1 : ℤ) (w h : Extent) (val : Bool)
    {s : Store} (hs : s ∈ self.rectStores x1 y1 w h val) :
    StaysWithin s 0 (self.stride * self.h) := by
  have hx := (sides_spec x1 w hv.w_nonneg).1
  have hy := (sides_spec y1 h hv.h_nonneg).1
  have hs' : s ∈ rowsStores self.stride (sides x1 w self.w).1 (sides x1 w self.w).2
      (sides y1 h self.h).1 (sides y1 h self.h).2 val := hs
  rw [rowsStores_eq _ _ _ hx.2.1, List.mem_flatMap] at hs'
  obtain ⟨y, hy', hs'⟩ := hs'
  rw [Int.mem_range_iff] at hy'
  have hwithin := within_rowStores _ hx.2.1 val hs'
  have h0 : 0 ≤ y * self.stride := hv.row_nonneg (by omega)
  have h1 : y * self.stride + self.stride ≤ self.stride * self.h := hv.row_le (by omega)
  have hstride := hv.stride_eq
  refine ⟨fun i hi => ?_, hwithin.readFrom⟩
  have := hwithin.index i hi
  omega

/-! ## Rectangles -/

/-- The array was just created, or reallocated. -/
def JustSized (b : Bitarray) : Prop :=
  ∃ w h, b = new w h ∨ ∃ b' : Bitarray, b = b'.realloc w h

theorem JustSized.valid {b : Bitarray} (h : b.JustSized) : b.Valid := by
  obtain ⟨w, h, rfl | ⟨b', rfl⟩⟩ := h
  · exact realloc_valid _ w h
  · exact realloc_valid b' w h

theorem rect_valid (hv : self.Valid) (x1 y1 : ℤ) (w h : Extent) (val : Bool) :
    (self.rect x1 y1 w h val).Valid :=
  exec_valid hv _

/-- What a rectangle makes of a bit in range. -/
theorem get_rect (hv : self.Valid) (x1 y1 : ℤ) (w h : Extent) (val : Bool) {x y : ℤ}
    (hr : self.InRange x y) :
    (Spans x1 w x ∧ Spans y1 h y → (self.rect x1 y1 w h val).get x y = val) ∧
      (¬ (Spans x1 w x ∧ Spans y1 h y) →
        (self.rect x1 y1 w h val).get x y = self.get x y) := by
  have hpaint := painted_rect hv x1 y1 w h val
  have hmem := mem_rectBits hv.w_le x1 y1 w h hr.x hr.y
  have hget : (self.rect x1 y1 w h val).get x y =
      (self.rect x1 y1 w h val).data.bit (self.position x y) :=
    get_eq (rect_valid hv x1 y1 w h val) ⟨hr.x, hr.y⟩
  rw [hget, get_eq hv hr]
  constructor
  · intro hspan
    exact hpaint.inside _ (hmem.mpr hspan)
  · intro hspan
    apply hpaint.outside
    exact fun hp => hspan (hmem.mp hp)

/-- In an array of any size, a rectangle gives its value to the bits that it holds and
to no other bit, and writes to the bytes of the array only. -/
theorem rect_justSized {b : Bitarray} (hb : b.JustSized) (x1 y1 : ℤ) (w h : Extent)
    (val : Bool) :
    (∀ x y, b.InRange x y →
      (Spans x1 w x ∧ Spans y1 h y → (b.rect x1 y1 w h val).get x y = val) ∧
        (¬ (Spans x1 w x ∧ Spans y1 h y) →
          (b.rect x1 y1 w h val).get x y = b.get x y)) ∧
      ∀ s ∈ b.rectStores x1 y1 w h val, ∀ i ∈ s.written,
        0 ≤ i ∧ i < b.stride * b.h := by
  constructor
  · intro x y hr
    exact get_rect hb.valid x1 y1 w h val hr
  · intro s hs i hi
    exact (within_rectStores hb.valid x1 y1 w h val hs).index i (.inl hi)

theorem rect_justSized_new :
    ((new 20 3).rect 3 1 ((9 : ℤ) : Extent) ⊤ true).get 11 2 = true := by
  have hspan : Spans 3 ((9 : ℤ) : Extent) 11 ∧ Spans 1 ⊤ 2 := by
    refine ⟨.inl ⟨by decide, by decide⟩, .inl ⟨by decide, by decide⟩⟩
  exact ((rect_justSized ⟨20, 3, .inl rfl⟩ 3 1 ((9 : ℤ) : Extent) ⊤ true).1 11 2
    ⟨⟨by decide, by decide⟩, by decide, by decide⟩).1 hspan

end Bitarray

/-!
## Single bits

A single bit is a rectangle of one cell.  But the place that `set` computes is taken
once more by eight where it is used: the byte that is read is the one at an eighth of
the place of the bit, and the byte that is written the one at the position of the bit.
Only the first bit of the array is set.
-/

namespace Bitarray

variable {self : Bitarray} {x y : ℤ}

/-- The mask of a single bit. -/
def bitMask (p : ℤ) : BitVec 8 := bitsBetween (p % 8) (p % 8 + 1)

/-- `set` does what the rectangle of one cell does. -/
structure SetsCell (b : Bitarray) (x y : ℤ) (val : Bool) : Prop where
  bytes : ∀ i, 0 ≤ i → i < b.stride * b.h →
    (b.set x y val).data i = (b.rect x y (1 : ℤ) (1 : ℤ) val).data i
  written : ∀ s ∈ b.setStores x y val, ∀ i ∈ s.written, 0 ≤ i ∧ i < b.stride * b.h
  get : (b.set x y val).get x y = val
  others : ∀ x' y', b.InRange x' y' → (x', y') ≠ (x, y) →
    (b.set x y val).get x' y' = b.get x' y'

/-- The bit has its value already, and the byte that is written is in the array and
holds what is written to it. -/
structure AlreadySet (b : Bitarray) (p : ℤ) (val : Bool) : Prop where
  bit : b.data.bit p = val
  inside : p < b.stride * b.h
  byte : b.data p = maskBits (b.data (p / 64)) (bitMask p) val

theorem setWidth_shl_one (p : ℤ) :
    (shl 1 (band (tobit (p : ℚ)) 7)).setWidth 8 = bitMask p := by
  have hmod : (((p % 8).toNat : ℤ)) = p % 8 := by omega
  have h1 : (1 : BitVec 32) = shl 1 (BitVec.ofInt 32 1) - 1 := by decide
  apply eq_bitsBetween
  intro k hk
  rw [band_tobit_seven, ← BitVec.ofInt_natCast, hmod, BitVec.getLsbD_setWidth,
    decide_eq_true hk, Bool.true_and, getLsbD_shl _ (by omega) (by omega) (by omega), h1,
    getLsbD_ones (by omega) (by omega) (by omega), ← Bool.decide_and, decide_eq_decide]
  omega

/-- The byte at the position is written, from the one at an eighth of the place. -/
theorem setStores_eq (hv : self.Valid) (hr : self.InRange x y) (val : Bool) :
    self.setStores x y val =
      [.mask (self.position x y) (self.position x y / 64)
        (shl 1 (band (tobit (self.position x y : ℚ)) 7)) val] := by
  have h0 := (position_range hv hr).1
  have heighth : (self.position x y : ℚ) / 8 * 8 = (self.position x y : ℚ) := by ring
  have hdst : trunc (self.position x y : ℚ) = self.position x y := by
    rw [trunc, if_pos (by positivity), Int.floor_intCast]
  have hsrc : trunc ((self.position x y : ℚ) / 8 / 8) = self.position x y / 64 := by
    have h := Rat.floor_intCast_div_natCast (self.position x y) 64
    rw [trunc, if_pos (by positivity), div_div]
    norm_num at h ⊢
    exact h
  simp only [setStores, place_eq hv hr, heighth, hdst, hsrc]

theorem set_data (hv : self.Valid) (hr : self.InRange x y) (val : Bool) :
    (self.set x y val).data =
      Function.update self.data (self.position x y)
        (maskBits (self.data (self.position x y / 64)) (bitMask (self.position x y)) val) := by
  have hexec : (self.set x y val).data =
      (self.setStores x y val).foldl Store.exec self.data := rfl
  rw [hexec, setStores_eq hv hr, List.foldl_cons, List.foldl_nil, exec_mask,
    setWidth_shl_one]

/-- The sides of a single cell. -/
theorem sides_one {x hi : ℤ} (h : 0 ≤ x ∧ x < hi) :
    sides x (1 : ℤ) hi = (x, x + 1) := by
  have hx : clamp x 0 hi = x := by
    rw [clamp]
    omega
  have hx1 : clamp (x + 1) 0 hi = x + 1 := by
    rw [clamp]
    omega
  rw [sides_coe, hx, hx1, if_neg (by omega)]

/-- The rectangle of one cell changes the byte of its bit. -/
theorem rect_one_data (hv : self.Valid) (hr : self.InRange x y) (val : Bool) :
    (self.rect x y (1 : ℤ) (1 : ℤ) val).data =
      self.data.mask (self.position x y / 8) (bitMask (self.position x y)) val := by
  have hrect := painted_rect hv x y (1 : ℤ) (1 : ℤ) val
  rw [sides_one hr.x, sides_one hr.y] at hrect
  refine hrect.unique ((Painted.mask self.data _ _ _ val).congr fun p => ?_)
  simp only [Set.mem_ofPred_eq]
  constructor
  · intro hp
    refine ⟨y, ⟨le_rfl, by omega⟩, ?_⟩
    rw [position] at hp
    omega
  · rintro ⟨y', hy', hp⟩
    have hyy : y' = y := by omega
    subst hyy
    rw [position]
    omega

theorem spans_one {x x' : ℤ} : Spans x (1 : ℤ) x' ↔ x' = x := by
  rw [spans_coe (by decide)]
  omega

theorem mask_eq_self_iff {m : Memory} {p : ℤ} {val : Bool} :
    m.mask (p / 8) (bitMask p) val = m ↔ m.bit p = val := by
  have hpaint := Painted.mask m (p / 8) (p % 8) (p % 8 + 1) val
  refine hpaint.eq_self_iff.trans ⟨fun h => ?_, fun h q hq => ?_⟩
  · exact h p ⟨rfl, le_rfl, by omega⟩
  · have hq' : q = p := by
      simp only [Set.mem_ofPred_eq] at hq
      omega
    rw [hq', h]

theorem set_valid (hv : self.Valid) (x y : ℤ) (val : Bool) : (self.set x y val).Valid :=
  exec_valid hv _

/-- Where the bytes are those of the rectangle, all the rest follows. -/
theorem setsCell_of_data_eq (hv : self.Valid) (hr : self.InRange x y) {val : Bool}
    (h : (self.set x y val).data = (self.rect x y (1 : ℤ) (1 : ℤ) val).data)
    (hinside : self.position x y < self.stride * self.h) : self.SetsCell x y val := by
  have hget (x' y' : ℤ) (hr' : self.InRange x' y') :
      (self.set x y val).get x' y' = (self.rect x y (1 : ℤ) (1 : ℤ) val).get x' y' := by
    rw [get_eq (set_valid hv x y val) ⟨hr'.x, hr'.y⟩,
      get_eq (rect_valid hv _ _ _ _ _) ⟨hr'.x, hr'.y⟩]
    exact congrArg (fun m => Memory.bit m (self.position x' y')) h
  refine ⟨fun i _ _ => congrFun h i, ?_, ?_, ?_⟩
  · intro s hs i hi
    rw [setStores_eq hv hr, List.mem_singleton] at hs
    subst hs
    rw [Store.written, Set.mem_singleton_iff] at hi
    subst hi
    exact ⟨(position_range hv hr).1, hinside⟩
  · rw [hget x y hr]
    exact (get_rect hv x y _ _ val hr).1 ⟨spans_one.mpr rfl, spans_one.mpr rfl⟩
  · intro x' y' hr' hne
    rw [hget x' y' hr']
    apply (get_rect hv x y _ _ val hr').2
    rintro ⟨hx, hy⟩
    exact hne (Prod.ext (spans_one.mp hx) (spans_one.mp hy))

/-- What setting a bit does is what the rectangle does exactly for the first bit and
where nothing changes. -/
theorem setsCell_iff (hv : self.Valid) (hr : self.InRange x y) (val : Bool) :
    self.SetsCell x y val ↔
      self.position x y = 0 ∨ self.AlreadySet (self.position x y) val := by
  obtain ⟨h0, hlt⟩ := position_range hv hr
  have hset := set_data hv hr val
  have hrect := rect_one_data hv hr val
  constructor
  · intro h
    by_cases hp : self.position x y = 0
    · exact .inl hp
    right
    have hne : self.position x y / 8 ≠ self.position x y := by omega
    have hinside : self.position x y < self.stride * self.h := by
      have hwritten := h.written
      rw [setStores_eq hv hr] at hwritten
      exact (hwritten _ (List.mem_singleton_self _) _ (Set.mem_singleton _)).2
    have hbit := h.bytes (self.position x y / 8) (by omega) (by omega)
    have hbyte := h.bytes (self.position x y) h0 hinside
    rw [hset, hrect, Memory.mask, Function.update_of_ne hne, Function.update_self] at hbit
    rw [hset, hrect, Memory.mask, Function.update_self, Function.update_of_ne hne.symm] at hbyte
    refine ⟨mask_eq_self_iff.mp ?_, hinside, hbyte.symm⟩
    exact Function.update_eq_self_iff.mpr hbit.symm
  · rintro (hp | h)
    · refine setsCell_of_data_eq hv hr ?_ (by omega)
      rw [hset, hrect, hp]
      rfl
    · refine setsCell_of_data_eq hv hr ?_ h.inside
      rw [hset, hrect, ← h.byte, Function.update_eq_self, mask_eq_self_iff.mpr h.bit]

theorem setsCell_iff_first :
    (new 8 1).SetsCell 0 0 true ↔
      (new 8 1).position 0 0 = 0 ∨ (new 8 1).AlreadySet ((new 8 1).position 0 0) true :=
  setsCell_iff (realloc_valid _ 8 1) ⟨⟨by decide, by decide⟩, by decide, by decide⟩ true

/-- The second bit of a new array is not set. -/
theorem not_setsCell_second : ¬ (new 64 8).SetsCell 1 0 true := by
  intro h
  have hv : (new 64 8).Valid := realloc_valid _ 64 8
  have hr : (new 64 8).InRange 1 0 := ⟨⟨by decide, by decide⟩, by decide, by decide⟩
  have hpos : (new 64 8).position 1 0 = 1 := by
    rw [position, zero_mul]
    rfl
  have hget := h.get
  rw [get_eq (set_valid hv 1 0 true) ⟨hr.x, hr.y⟩, set_data hv hr] at hget
  have hbit : ((new 64 8).set 1 0 true).position 1 0 = 1 := hpos
  rw [hbit, hpos, new_data] at hget
  exact absurd hget (by decide)

end Bitarray

end LuaAttic.Bitmask
