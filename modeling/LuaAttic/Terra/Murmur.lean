import Mathlib.Data.Int.GCD
import Mathlib.Data.Nat.ModEq
import LuaAttic.Lua.Basic
import LuaAttic.Support.Buffers
import LuaAttic.Support.Mixing

/-!
# MurmurHash2 (`hash.t`)

The port of a hash function, and the function itself, of which the repository has
another copy (`git__hash` in `libgit2/src/util.c`).
-/

namespace LuaAttic.Terra.Murmur

open LuaAttic.Lua LuaAttic.Support

/-- The mixing constant `m`. -/
def m : BitVec 32 := 0x5bd1e995

/-- The mixing constant `r`. -/
def r : ℕ := 24

/-- The byte of a key at a position. -/
def byteAt (key : Bytes) (i : ℕ) : UInt8 := key.getD i 0

/-- The integer in the four bytes of a key from a position on. -/
def wordAt (key : Bytes) (i : ℕ) : BitVec 32 := BitVec.ofNat 32 (leNat ((key.drop i).take 4))

/-- `k = k * m; k = k ^ (k >> r); k = k * m` -/
def mixed (k : BitVec 32) : BitVec 32 :=
  let k := k * m
  let k := k ^^^ k >>> r
  k * m

/-- The variables that the loop leaves. -/
structure Vars where
  h : BitVec 32
  data : ℕ
  len : ℕ

/-- The loop over the blocks, with what a block does to the hash. -/
def blocks (block : ℕ → BitVec 32 → BitVec 32) : ℕ → ℕ → BitVec 32 → Vars
  | len + 4, data, h => blocks block len (data + 4) (block data h)
  | len, data, h => ⟨h, data, len⟩

/-- The final mixes of the hash. -/
def final (h : BitVec 32) : BitVec 32 :=
  let h := h ^^^ h >>> 13
  let h := h * m
  h ^^^ h >>> 15

section Hashes

variable (key : Bytes)

/-! ## The port -/

/-- A block is the first one of the key.  The hash is `k * m` and then `k ^ k`. -/
def portBlock (_data : ℕ) (_h : BitVec 32) : BitVec 32 :=
  let k := mixed (wordAt key 0)
  k ^^^ k

/-- The last few bytes.  A byte is shifted as a byte, by no fewer bits than it has,
which gives some value. -/
def portTail (shl : UInt8 → ℕ → BitVec 32) (v : Vars) : BitVec 32 :=
  let h := v.h
  let h := if v.len = 3 then h ^^^ shl (byteAt key (v.data + 2)) 16 else h
  let h := if v.len = 2 then h ^^^ shl (byteAt key (v.data + 1)) 8 else h
  let h := if v.len = 1 then h ^^^ (byteAt key v.data).toBitVec.setWidth 32 else h
  h * m

/-- `hash.murmur2(key, len, seed)`, for a length that is not negative -/
def murmur2 (shl : UInt8 → ℕ → BitVec 32) (len : ℕ) (seed : BitVec 32) : BitVec 32 :=
  final (portTail key shl (blocks (portBlock key) len 0 (seed ^^^ BitVec.ofNat 32 len)))

/-! ## The reference -/

/-- A block is mixed into the hash. -/
def gitBlock (data : ℕ) (h : BitVec 32) : BitVec 32 := h * m ^^^ mixed (wordAt key data)

/-- The last few bytes, where each case falls through to the next. -/
def gitTail (v : Vars) : BitVec 32 :=
  let b (i : ℕ) : BitVec 32 := (byteAt key (v.data + i)).toBitVec.setWidth 32
  match v.len with
  | 3 => (v.h ^^^ b 2 <<< 16 ^^^ b 1 <<< 8 ^^^ b 0) * m
  | 2 => (v.h ^^^ b 1 <<< 8 ^^^ b 0) * m
  | 1 => (v.h ^^^ b 0) * m
  | _ => v.h

/-- `git__hash(key, len, seed)` -/
def gitHash (len : ℕ) (seed : BitVec 32) : BitVec 32 :=
  final (gitTail key (blocks (gitBlock key) len 0 (seed ^^^ BitVec.ofNat 32 len)))

end Hashes

/-!
## When the port is right

The port forgets the hash at each block, so a key with blocks has the hash of its
last few bytes.  The reference forgets nothing: for each such key there is one
seed with which the two are the same.
-/

/-! ### Seeds -/

section Seeds

variable (shl : UInt8 → ℕ → BitVec 32) (key : Bytes)

/-- The difference that the last few bytes make. -/
def missed : BitVec 32 :=
  let data := 4 * (key.length / 4)
  let b (i : ℕ) : BitVec 32 := (byteAt key (data + i)).toBitVec.setWidth 32
  match key.length % 4 with
  | 3 => shl (byteAt key (data + 2)) 16 ^^^ (b 2 <<< 16 ^^^ b 1 <<< 8 ^^^ b 0)
  | 2 => shl (byteAt key (data + 1)) 8 ^^^ (b 1 <<< 8 ^^^ b 0)
  | _ => 0#32

/-- The inverse of `m`. -/
def mInv : BitVec 32 := 0xe59b19bd

/-- The seed that the blocks bring to a hash. -/
def seedOf (h : BitVec 32) : BitVec 32 :=
  (List.range (key.length / 4)).foldr
    (fun i h => (h ^^^ mixed (wordAt key (4 * i))) * mInv) h ^^^ BitVec.ofNat 32 key.length

/-- The seeds with which a key has the hash that it should have. -/
def Agrees (seed : BitVec 32) : Prop :=
  if key = [] then 2 ^ 30 ∣ seed.toNat
  else if key.length < 4 then missed shl key = 0#32
  else seed = seedOf key (missed shl key)

end Seeds

/-! ### Steps -/

theorem m_mul_mInv : m * mInv = 1#32 := by decide

theorem mul_m_inj {x y : BitVec 32} : x * m = y * m ↔ x = y := by
  constructor
  · intro h
    rw [(mul_eq_iff_of_inverse m_mul_mInv x (y * m)).mp h]
    exact ((mul_eq_iff_of_inverse m_mul_mInv y _).mp rfl).symm
  · exact congrArg (· * m)

theorem final_injective : Function.Injective final := by
  intro x y h
  apply xor_ushiftRight_injective (s := 13) (by decide)
  apply mul_m_inj.mp
  exact xor_ushiftRight_injective (s := 15) (by decide) h

/-- The reference takes each block in. -/
theorem gitBlock_eq_iff (key : Bytes) (h : BitVec 32) (i : ℕ) (h' : BitVec 32) :
    gitBlock key (4 * i) h = h' ↔ h = (h' ^^^ mixed (wordAt key (4 * i))) * mInv := by
  rw [gitBlock, xor_eq_iff, mul_eq_iff_of_inverse m_mul_mInv]

theorem portBlock_eq_zero (key : Bytes) (data : ℕ) (h : BitVec 32) :
    portBlock key data h = 0#32 :=
  BitVec.xor_self

/-! ### Blocks -/

theorem blocks_eq (block : ℕ → BitVec 32 → BitVec 32) (len data : ℕ) (h : BitVec 32) :
    blocks block len data h =
      ⟨(List.range (len / 4)).foldl (fun h i => block (data + 4 * i) h) h,
        data + 4 * (len / 4), len % 4⟩ := by
  fun_induction blocks with
  | case1 len data h ih =>
      have hdiv : (len + 4) / 4 = len / 4 + 1 := Nat.add_div_right len (by decide)
      have hmod : (len + 4) % 4 = len % 4 := Nat.add_mod_right len 4
      have hnext : ∀ i, data + 4 * (i + 1) = data + 4 + 4 * i := fun i => by ring
      rw [ih, hdiv, hmod, List.range_succ_eq_map, List.foldl_cons, List.foldl_map]
      simp only [Nat.succ_eq_add_one, hnext, Nat.mul_zero, Nat.add_zero]
  | case2 len data h hlt =>
      have hlen : len < 4 := by
        by_contra hge
        obtain ⟨n, rfl⟩ := Nat.exists_eq_add_of_le' (Nat.le_of_not_lt hge)
        exact hlt n rfl
      rw [Nat.div_eq_of_lt hlen, Nat.mod_eq_of_lt hlen]
      rfl

section Key

variable (shl : UInt8 → ℕ → BitVec 32) (key : Bytes)

/-- A key with a block leaves no trace of what came before its last few bytes. -/
theorem portBlocks_eq {len : ℕ} (hlen : 4 ≤ len) (h : BitVec 32) :
    blocks (portBlock key) len 0 h = ⟨0#32, 4 * (len / 4), len % 4⟩ := by
  obtain ⟨n, hn⟩ := Nat.exists_eq_add_of_le' (Nat.div_pos hlen (by decide))
  rw [blocks_eq, hn, Nat.zero_add, List.range_succ, List.foldl_concat, portBlock_eq_zero]

theorem blocks_of_lt (block : ℕ → BitVec 32 → BitVec 32) {len : ℕ} (hlen : len < 4)
    (h : BitVec 32) : blocks block len 0 h = ⟨h, 0, len⟩ := by
  rw [blocks_eq, Nat.div_eq_of_lt hlen, Nat.mod_eq_of_lt hlen]
  rfl

/-- The two agree on the last few bytes, if there are any, where the hashes differ by
what the tail lacks. -/
theorem tail_eq_iff (h h' : BitVec 32) (hlen : key.length % 4 ≠ 0) :
    portTail key shl ⟨h, 4 * (key.length / 4), key.length % 4⟩ =
      gitTail key ⟨h', 4 * (key.length / 4), key.length % 4⟩ ↔ h' = h ^^^ missed shl key := by
  have hlt := Nat.mod_lt key.length (by decide : 4 > 0)
  rw [missed]
  generalize key.length % 4 = len at hlen hlt
  have hxor : ∀ s t, (h ^^^ s) * m = (h' ^^^ t) * m ↔ h' = h ^^^ (s ^^^ t) := by
    intro s t
    rw [mul_m_inj, eq_comm, xor_eq_iff, BitVec.xor_assoc]
  match len, hlt with
  | 0, _ => exact absurd rfl hlen
  | 1, _ =>
      have hsame (b : BitVec 32) := hxor b b
      simp only [BitVec.xor_self] at hsame
      simpa [portTail, gitTail] using hsame _
  | 2, _ => simpa [portTail, gitTail, BitVec.xor_assoc] using hxor _ _
  | 3, _ => simpa [portTail, gitTail, BitVec.xor_assoc] using hxor _ _

theorem seedOf_eq_iff (seed h : BitVec 32) :
    (blocks (gitBlock key) key.length 0 (seed ^^^ BitVec.ofNat 32 key.length)).h = h ↔
      seed = seedOf key h := by
  simp only [blocks_eq, Nat.zero_add]
  rw [foldl_eq_iff_foldr fun h i h' => gitBlock_eq_iff key h i h', xor_eq_iff, seedOf]

/-- What the blocks leave of a key that has some. -/
theorem tail_zero_eq_iff (h : BitVec 32) :
    portTail key shl ⟨0#32, 4 * (key.length / 4), key.length % 4⟩ =
      gitTail key ⟨h, 4 * (key.length / 4), key.length % 4⟩ ↔ h = missed shl key := by
  by_cases hrest : key.length % 4 = 0
  · have hmissed : missed shl key = 0#32 := by
      simp only [missed, hrest]
    have hport : portTail key shl ⟨0#32, 4 * (key.length / 4), 0⟩ = 0#32 := BitVec.zero_mul
    have hgit : gitTail key ⟨h, 4 * (key.length / 4), 0⟩ = h := rfl
    rw [hrest, hmissed, hport, hgit, eq_comm]
  · rw [tail_eq_iff shl key 0#32 h hrest, BitVec.zero_xor]

end Key

/-- An empty key has its hash multiplied once. -/
theorem mul_m_eq_self_iff (seed : BitVec 32) : seed * m = seed ↔ 2 ^ 30 ∣ seed.toNat := by
  have hm : m.toNat = 4 * 0x16f47a65 + 1 := by decide
  have hdvd : seed.toNat * m.toNat - seed.toNat = 4 * (seed.toNat * 0x16f47a65) := by
    rw [hm]
    omega
  have hle : seed.toNat ≤ seed.toNat * m.toNat := Nat.le_mul_of_pos_right _ (by decide)
  have hmod : seed.toNat * m.toNat % 2 ^ 32 = seed.toNat ↔
      seed.toNat ≡ seed.toNat * m.toNat [MOD 2 ^ 32] := by
    rw [Nat.ModEq, Nat.mod_eq_of_lt seed.isLt, eq_comm]
  have hcoprime : (2 ^ 30).Coprime 0x16f47a65 := by
    apply Nat.Coprime.pow_left
    decide
  have hpow : 2 ^ 32 = 4 * 2 ^ 30 := by decide
  rw [← BitVec.toNat_inj, BitVec.toNat_mul, hmod, Nat.modEq_iff_dvd' hle, hdvd, hpow,
    Nat.mul_dvd_mul_iff_left (by decide), hcoprime.dvd_mul_right]

/-- The port is right with these seeds and no others. -/
theorem murmur2_eq_iff (shl : UInt8 → ℕ → BitVec 32) (key : Bytes) (seed : BitVec 32) :
    murmur2 key shl key.length seed = gitHash key key.length seed ↔ Agrees shl key seed := by
  rw [murmur2, gitHash, final_injective.eq_iff, Agrees]
  split
  · next hnil =>
      subst hnil
      have hport : portTail [] shl ⟨seed, 0, 0⟩ = seed * m := rfl
      have hgit : gitTail [] ⟨seed, 0, 0⟩ = seed := rfl
      rw [List.length_nil, blocks_of_lt _ (by decide), blocks_of_lt _ (by decide),
        BitVec.xor_zero, hport, hgit, mul_m_eq_self_iff]
  · next hne =>
      have hpos := List.length_pos_iff.mpr hne
      split
      · next hshort =>
          have htail := tail_eq_iff shl key (seed ^^^ BitVec.ofNat 32 key.length)
            (seed ^^^ BitVec.ofNat 32 key.length)
          rw [Nat.div_eq_of_lt hshort, Nat.mod_eq_of_lt hshort] at htail
          rw [blocks_of_lt _ hshort, blocks_of_lt _ hshort, htail hpos.ne', eq_comm,
            BitVec.xor_comm, xor_eq_iff, BitVec.xor_self]
      · next hlong =>
          have hgit := blocks_eq (gitBlock key) key.length 0 (seed ^^^ BitVec.ofNat 32 key.length)
          rw [portBlocks_eq key (Nat.le_of_not_lt hlong), hgit, Nat.zero_add, tail_zero_eq_iff,
            ← seedOf_eq_iff, hgit]

/-- The hash of a key of four bytes is zero. -/
theorem not_murmur2_eq :
    ¬ ∀ (shl : UInt8 → ℕ → BitVec 32) (key : Bytes) (seed : BitVec 32),
      murmur2 key shl key.length seed = gitHash key key.length seed := by
  intro h
  exact absurd (h (fun _ _ => 0) [97, 98, 99, 100] 0) (by decide)

end LuaAttic.Terra.Murmur
