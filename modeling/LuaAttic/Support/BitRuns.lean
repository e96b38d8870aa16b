import Mathlib.Data.Int.Range
import Mathlib.Data.Set.Lattice
import Mathlib.Tactic.Ring

/-!
# Runs of bits in an array of bytes

The bits of an array are counted through its bytes, the lowest bit of a byte
first.  A write that gives some bits a value and leaves the others alone is
described by the set of these bits, and writes with the same value, one after
the other, by the union of their sets.

A run of bits from `x1` up to `x2` is written as whole bytes and what is left
over at its two ends, or with a single mask where it stays within a byte.
-/

namespace LuaAttic.Support

/-- Bytes at indices. -/
abbrev Memory := ℤ → BitVec 8

/-- Set the bits of the mask to `val`. -/
def maskBits (b mask : BitVec 8) (val : Bool) : BitVec 8 :=
  if val then b ||| mask else b &&& ~~~mask

/-- The mask of the lowest bits. -/
def lowBits (n : ℤ) : BitVec 8 := BitVec.ofNat 8 (2 ^ n.toNat - 1)

/-- The mask of the bits from `a` up to `b`. -/
def bitsBetween (a b : ℤ) : BitVec 8 := lowBits b &&& ~~~lowBits a

/-- The byte of eight bits of the value. -/
def wholeByte (val : Bool) : BitVec 8 := if val then 0xff else 0

namespace Memory

/-- The bit at a position. -/
def bit (m : Memory) (p : ℤ) : Bool := (m (p / 8)).getLsbD (p % 8).toNat

def fill (m : Memory) (dst len : ℤ) (b : BitVec 8) : Memory :=
  fun i => if dst ≤ i ∧ i < dst + len then b else m i

/-- Bytes of `m'`, which may be the array itself, from `src` on. -/
def copy (m m' : Memory) (dst src len : ℤ) : Memory :=
  fun i => if dst ≤ i ∧ i < dst + len then m' (src + (i - dst)) else m i

def mask (m : Memory) (i : ℤ) (mask : BitVec 8) (val : Bool) : Memory :=
  Function.update m i (maskBits (m i) mask val)

/-- Set the bits `x1` up to `x2` of the row that begins at a byte. -/
def paintRun (m : Memory) (base x1 x2 : ℤ) (val : Bool) : Memory :=
  let b1 := (x1 + 7) / 8
  let b2 := x2 / 8
  if b2 < b1 then m.mask (base + b2) (bitsBetween (x1 % 8) (x2 % 8)) val
  else
    let m := m.fill (base + b1) (b2 - b1) (wholeByte val)
    let m := if x1 % 8 = 0 then m
      else m.mask (base + b1 - 1) (bitsBetween (x1 % 8) 8) val
    if x2 % 8 = 0 then m else m.mask (base + b2) (bitsBetween 0 (x2 % 8)) val

end Memory

/-! ## Bits of bytes -/

theorem getLsbD_maskBits (b mask : BitVec 8) (val : Bool) {k : ℕ} (hk : k < 8) :
    (maskBits b mask val).getLsbD k =
      if mask.getLsbD k = true then val else b.getLsbD k := by
  cases val with
  | false =>
      simp only [maskBits, Bool.false_eq_true, ↓reduceIte, BitVec.getLsbD_and,
        BitVec.getLsbD_not, hk, decide_true, Bool.true_and]
      cases mask.getLsbD k <;> simp
  | true =>
      simp only [maskBits, ↓reduceIte, BitVec.getLsbD_or]
      cases mask.getLsbD k <;> simp

theorem maskBits_zero (b : BitVec 8) (val : Bool) : maskBits b 0 val = b := by
  apply BitVec.eq_of_getLsbD_eq
  intro k hk
  rw [getLsbD_maskBits _ _ _ hk, if_neg (by simp)]

theorem getLsbD_lowBits (n : ℤ) {k : ℕ} (hk : k < 8) :
    (lowBits n).getLsbD k = decide ((k : ℤ) < n) := by
  rw [lowBits, BitVec.getLsbD_ofNat, Nat.testBit_two_pow_sub_one, decide_eq_true hk,
    Bool.true_and, decide_eq_decide]
  omega

theorem getLsbD_bitsBetween (a b : ℤ) {k : ℕ} (hk : k < 8) :
    (bitsBetween a b).getLsbD k = decide (a ≤ k ∧ (k : ℤ) < b) := by
  rw [bitsBetween, BitVec.getLsbD_and, BitVec.getLsbD_not, getLsbD_lowBits b hk,
    getLsbD_lowBits a hk, decide_eq_true hk, Bool.true_and, ← decide_not,
    ← Bool.decide_and, decide_eq_decide, not_lt, and_comm]

theorem getLsbD_wholeByte (val : Bool) {k : ℕ} (hk : k < 8) :
    (wholeByte val).getLsbD k = val := by
  cases val
  · simp [wholeByte]
  · have h : ∀ k : Fin 8, (0xff : BitVec 8).getLsbD k = true := by decide
    exact h ⟨k, hk⟩

/-- A mask that is exactly the bits from `a` up to `b`. -/
theorem eq_bitsBetween {mask : BitVec 8} {a b : ℤ}
    (h : ∀ k : ℕ, k < 8 → mask.getLsbD k = decide (a ≤ k ∧ (k : ℤ) < b)) :
    mask = bitsBetween a b := by
  apply BitVec.eq_of_getLsbD_eq
  intro k hk
  rw [h k hk, getLsbD_bitsBetween a b hk]

theorem toNat_emod_lt (p : ℤ) : (p % 8).toNat < 8 := by
  omega

namespace Memory

/-- Two arrays with the same bits in a byte have the same byte. -/
theorem eq_of_bit {m m' : Memory} {i : ℤ}
    (h : ∀ p, p / 8 = i → m.bit p = m'.bit p) : m i = m' i := by
  apply BitVec.eq_of_getLsbD_eq
  intro k hk
  have hdiv : (8 * i + k) / 8 = i := by omega
  have hmod : ((8 * i + k) % 8).toNat = k := by omega
  simpa only [bit, hdiv, hmod] using h (8 * i + k) hdiv

theorem bit_fill (m : Memory) (dst len : ℤ) (b : BitVec 8) (p : ℤ) :
    (m.fill dst len b).bit p =
      if 8 * dst ≤ p ∧ p < 8 * (dst + len) then b.getLsbD (p % 8).toNat else m.bit p := by
  have hiff : (dst ≤ p / 8 ∧ p / 8 < dst + len) ↔ (8 * dst ≤ p ∧ p < 8 * (dst + len)) := by
    omega
  simp only [bit, fill, hiff]
  split <;> rfl

theorem bit_copy (m m' : Memory) (dst src len p : ℤ) :
    (m.copy m' dst src len).bit p =
      if 8 * dst ≤ p ∧ p < 8 * (dst + len) then m'.bit (p + 8 * (src - dst)) else m.bit p := by
  have hiff : (dst ≤ p / 8 ∧ p / 8 < dst + len) ↔ (8 * dst ≤ p ∧ p < 8 * (dst + len)) := by
    omega
  have hdiv : (p + 8 * (src - dst)) / 8 = src + (p / 8 - dst) := by omega
  have hmod : (p + 8 * (src - dst)) % 8 = p % 8 := by omega
  simp only [bit, copy, hiff, hdiv, hmod]
  split <;> rfl

theorem bit_mask (m : Memory) (i : ℤ) (msk : BitVec 8) (val : Bool) (p : ℤ) :
    (m.mask i msk val).bit p =
      if p / 8 = i ∧ msk.getLsbD (p % 8).toNat = true then val else m.bit p := by
  by_cases hi : p / 8 = i
  · subst hi
    simp only [bit, mask, Function.update_self, true_and]
    exact getLsbD_maskBits _ _ _ (toNat_emod_lt p)
  · simp [bit, mask, hi]

end Memory

/-! ## Writes that give bits a value -/

/-- The bits of `S` became `val`, and no other bit changed. -/
structure Painted (S : Set ℤ) (val : Bool) (m m' : Memory) : Prop where
  inside : ∀ p ∈ S, m'.bit p = val
  outside : ∀ p, p ∉ S → m'.bit p = m.bit p

namespace Painted

variable {S T : Set ℤ} {val : Bool} {m m' m'' : Memory}

theorem refl (m : Memory) : Painted ∅ val m m :=
  ⟨fun _ hp => hp.elim, fun _ _ => rfl⟩

theorem trans (h : Painted S val m m') (h' : Painted T val m' m'') :
    Painted (S ∪ T) val m m'' := by
  constructor
  · intro p hp
    by_cases hT : p ∈ T
    · exact h'.inside p hT
    · rw [h'.outside p hT]
      exact h.inside p (hp.resolve_right hT)
  · intro p hp
    rw [Set.mem_union, not_or] at hp
    rw [h'.outside p hp.2, h.outside p hp.1]

theorem congr (h : Painted S val m m') (hST : ∀ p, p ∈ S ↔ p ∈ T) :
    Painted T val m m' := by
  rwa [← Set.ext hST]

/-- What a write makes of the bits decides the bytes. -/
theorem unique (h : Painted S val m m') (h' : Painted S val m m'') : m' = m'' := by
  funext i
  apply Memory.eq_of_bit
  intro p _
  by_cases hp : p ∈ S
  · rw [h.inside p hp, h'.inside p hp]
  · rw [h.outside p hp, h'.outside p hp]

/-- Nothing changes exactly where the bits have the value already. -/
theorem eq_self_iff (h : Painted S val m m') : m' = m ↔ ∀ p ∈ S, m.bit p = val := by
  constructor
  · rintro rfl p hp
    exact h.inside p hp
  · intro hval
    apply h.unique
    exact ⟨hval, fun _ _ => rfl⟩

theorem of_bit {P : ℤ → Prop} [DecidablePred P]
    (h : ∀ p, m'.bit p = if P p then val else m.bit p) :
    Painted {p | P p} val m m' := by
  constructor
  · intro p hp
    rw [h, if_pos (by exact hp)]
  · intro p hp
    rw [h, if_neg (by exact hp)]

theorem fill (m : Memory) (dst len : ℤ) (val : Bool) :
    Painted {p | 8 * dst ≤ p ∧ p < 8 * (dst + len)} val m
      (m.fill dst len (wholeByte val)) := by
  apply of_bit
  intro p
  rw [Memory.bit_fill, getLsbD_wholeByte val (toNat_emod_lt p)]

theorem mask (m : Memory) (i a b : ℤ) (val : Bool) :
    Painted {p | p / 8 = i ∧ a ≤ p % 8 ∧ p % 8 < b} val m
      (m.mask i (bitsBetween a b) val) := by
  apply of_bit
  intro p
  have hmod : ((p % 8).toNat : ℤ) = p % 8 := by omega
  simp only [Memory.bit_mask, getLsbD_bitsBetween a b (toNat_emod_lt p), hmod,
    decide_eq_true_eq]

/-- One write after the other. -/
theorem foldl {α : Type*} {f : Memory → α → Memory} {S : α → Set ℤ}
    (h : ∀ m a, Painted (S a) val m (f m a)) (l : List α) (m : Memory) :
    Painted {p | ∃ a ∈ l, p ∈ S a} val m (l.foldl f m) := by
  induction l generalizing m with
  | nil => exact (refl m).congr fun p => by simp
  | cons a l ih =>
      refine ((h m a).trans (ih (f m a))).congr fun p => ?_
      simp

end Painted

/-! ## A run of bits -/

theorem painted_paintRun (m : Memory) (base : ℤ) {x1 x2 : ℤ} (h : x1 ≤ x2)
    (val : Bool) :
    Painted {p | 8 * base + x1 ≤ p ∧ p < 8 * base + x2} val m
      (m.paintRun base x1 x2 val) := by
  simp only [Memory.paintRun]
  by_cases hsame : x2 / 8 < (x1 + 7) / 8
  · -- the run begins and ends within one byte
    rw [if_pos hsame]
    refine (Painted.mask m _ _ _ val).congr fun p => ?_
    simp only [Set.mem_ofPred_eq]
    omega
  · rw [if_neg hsame]
    have hfull := Painted.fill m (base + (x1 + 7) / 8) (x2 / 8 - (x1 + 7) / 8) val
    by_cases h1 : x1 % 8 = 0 <;> by_cases h2 : x2 % 8 = 0
    · simp only [h1, h2, ↓reduceIte]
      refine hfull.congr fun p => ?_
      simp only [Set.mem_ofPred_eq]
      omega
    · simp only [h1, h2, ↓reduceIte]
      refine (hfull.trans (Painted.mask _ _ _ _ val)).congr fun p => ?_
      simp only [Set.mem_union, Set.mem_ofPred_eq]
      omega
    · simp only [h1, h2, ↓reduceIte]
      refine (hfull.trans (Painted.mask _ _ _ _ val)).congr fun p => ?_
      simp only [Set.mem_union, Set.mem_ofPred_eq]
      omega
    · simp only [h1, h2, ↓reduceIte]
      refine ((hfull.trans (Painted.mask _ _ _ _ val)).trans
        (Painted.mask _ _ _ _ val)).congr fun p => ?_
      simp only [Set.mem_union, Set.mem_ofPred_eq]
      omega

/-- The rows `y1` up to `y2` of a matrix, each with the same run. -/
theorem painted_rows (stride y1 y2 : ℤ) {x1 x2 : ℤ} (h : x1 ≤ x2) (val : Bool)
    (m : Memory) :
    Painted {p | ∃ y, (y1 ≤ y ∧ y < y2) ∧
        8 * (y * stride) + x1 ≤ p ∧ p < 8 * (y * stride) + x2} val m
      ((Int.range y1 y2).foldl (fun m y => m.paintRun (y * stride) x1 x2 val) m) := by
  refine (Painted.foldl (fun m y => painted_paintRun m (y * stride) h val) _ m).congr
    fun p => ?_
  simp only [Int.mem_range_iff, Set.mem_ofPred_eq]

end LuaAttic.Support
