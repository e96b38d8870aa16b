import LuaAttic.RingBuffer.Queue
import Mathlib.Algebra.Order.Ring.Int

/-!
# Growing a cdata buffer

A buffer with `autogrow` makes room before it pushes.  It compares the signed
number of elements with the free space, and it tells the two copies into the
new block the number of elements where a number of bytes is asked for.
-/

namespace LuaAttic.RingBuffer

open LuaAttic.Support LuaAttic.Lua

/-! ## Elements and their bytes -/

section Elements

variable {elemsize n : ℕ} {mem mem' : Memory} {i j : Int}

theorem element_eq_iff :
    element elemsize mem i = element elemsize mem' j ↔
      ∀ k : ℕ, k < elemsize →
        mem (i * elemsize + k) = mem' (j * elemsize + k) := by
  simp only [element, interval, List.map_map]
  constructor
  · intro h k hk
    have hget := congrArg (fun l => l[k]?) h
    simpa [hk] using hget
  · intro h
    exact List.map_congr_left fun k hk => h k (List.mem_range.mp hk)

theorem map_interval_eq_iff {γ : Type*} {f g : Int → γ} :
    (interval i n).map f = (interval j n).map g ↔
      ∀ k : ℕ, k < n → f (i + k) = g (j + k) := by
  simp only [interval, List.map_map]
  constructor
  · intro h k hk
    have hget := congrArg (fun l => l[k]?) h
    simpa [hk] using hget
  · intro h
    exact List.map_congr_left fun k hk => h k (List.mem_range.mp hk)

/-- The elements of two intervals are equal when their bytes are. -/
theorem map_element_eq_iff :
    (interval i n).map (element elemsize mem) =
        (interval j n).map (element elemsize mem') ↔
      ∀ k : ℕ, k < n * elemsize →
        mem (i * elemsize + k) = mem' (j * elemsize + k) := by
  have hsplit : ∀ (i : Int) (k t : ℕ),
      (i + k) * elemsize + t = i * elemsize + ((k * elemsize + t : ℕ) : Int) := by
    intro i k t
    push_cast
    ring
  simp only [map_interval_eq_iff, element_eq_iff, hsplit]
  constructor
  · intro h k hk
    have hpos : 0 < elemsize := Nat.pos_of_mul_pos_left (by omega : 0 < n * elemsize)
    have hbyte := h (k / elemsize) (Nat.div_lt_of_lt_mul (by rwa [mul_comm]))
      (k % elemsize) (Nat.mod_lt k hpos)
    rwa [Nat.div_add_mod'] at hbyte
  · intro h k hk t ht
    apply h
    calc k * elemsize + t < k * elemsize + elemsize := by omega
      _ = (k + 1) * elemsize := by ring
      _ ≤ n * elemsize := Nat.mul_le_mul_right _ hk

/-- Copying no more than the bytes of some elements leaves the others. -/
theorem map_element_copy_of_disjoint {slots : List Int} (dst src : Memory)
    {len : Int} (hlen : len ≤ n) (h : slots.Disjoint (interval i n)) :
    slots.map (element elemsize (copy dst (i * elemsize) src j len)) =
      slots.map (element elemsize dst) := by
  apply List.map_congr_left
  intro slot hslot
  have hout : slot < i ∨ i + n ≤ slot := by
    by_contra hin
    exact h hslot (mem_interval.mpr (by omega))
  rw [element_eq_iff]
  intro k hk
  apply if_neg
  rcases hout with hlt | hle
  · have hstep : (slot + 1) * (elemsize : Int) ≤ i * elemsize :=
      mul_le_mul_of_nonneg_right hlt (by omega)
    rw [add_mul, one_mul] at hstep
    omega
  · have hstep : (i + n) * (elemsize : Int) ≤ slot * elemsize :=
      mul_le_mul_of_nonneg_right hle (by omega)
    have hbytes : (n : Int) ≤ n * elemsize :=
      le_mul_of_one_le_right (by omega) (by omega)
    rw [add_mul] at hstep
    omega

end Elements

namespace CDataBuffer

/-! ## The place of the segment -/

/-- The segment starts in the ring, as slots are counted from zero. -/
def InRing (b : CDataBuffer) : Prop := 0 ≤ b.start ∧ b.start < b.size

instance (b : CDataBuffer) : Decidable b.InRing :=
  inferInstanceAs (Decidable (_ ∧ _))

theorem inRing_normalize {b : CDataBuffer} (i : Int) :
    0 ≤ normalize i b.size - 1 ∧ normalize i b.size - 1 < b.size := by
  have hbounds := normalize_bounds b.size_pos i
  omega

theorem Becomes.inRing {b b' : CDataBuffer} {start length : Int} {data : Memory}
    (h : b.Becomes start length data b') (hstart : 0 ≤ start ∧ start < b.size) :
    b'.InRing := by
  rw [InRing, h.start, h.size]
  exact hstart

theorem pull_start_inRing {b : CDataBuffer} (hring : b.InRing) {len : Int}
    {t : Transfer}
    (h : RingBuffer.pull len (b.start + 1) b.length b.size = .ok t) :
    0 ≤ t.start - 1 ∧ t.start - 1 < b.size := by
  have hsame : 0 ≤ b.start + 1 - 1 ∧ b.start + 1 - 1 < b.size := by
    rwa [Int.add_sub_cancel]
  unfold RingBuffer.pull at h
  split_ifs at h with hused hpos hneg
  · obtain ⟨segs, -, ht⟩ := exists_of_bind_eq_ok h
    cases ht
    exact inRing_normalize _
  · obtain ⟨segs, -, ht⟩ := exists_of_bind_eq_ok h
    cases ht
    exact hsame
  · cases h
    exact hsame

/-- The elements of `b` are still there when `len` of them have been pushed:
before the new ones, or after them if `len` is negative. -/
def KeepsOld (b : CDataBuffer) (len : Int) (b' : CDataBuffer) : Prop :=
  (if len < 0 then b'.contents.drop len.natAbs
    else b'.contents.take b.contents.length) = b.contents

theorem Becomes.contents_general {b b' : CDataBuffer} {start length : Int}
    {data : Memory} (h : b.Becomes start length data b') :
    b'.contents =
      (ringSlots b.size start length.toNat).map (element b.elemsize data) := by
  rw [CDataBuffer.contents, h.size, h.start, h.length, h.elemsize, h.data]

/-! ## Pushes that have room -/

section Room

variable {b : CDataBuffer} {s : Segs} {m n : ℕ}

/-- What lies outside of the two arcs is not written to. -/
theorem map_writeSegs_of_disjoint (hs : s.Covers m n) (src : Memory)
    {slots : List Int} (h1 : slots.Disjoint (interval s.i1 m))
    (h2 : slots.Disjoint (interval s.i2 (n - m))) :
    slots.map (element b.elemsize (b.writeSegs s src)) =
      slots.map (element b.elemsize b.data) := by
  rw [writeSegs_eq_copy hs, map_element_copy_of_disjoint _ _ (le_refl _) h2,
    map_element_copy_of_disjoint _ _ (le_refl _) h1]

theorem keepsOld_push_forward (src : Memory) (hn : 0 < n)
    (hfree : (n : Int) ≤ b.size - b.length) (hring : b.InRing) :
    ∃ s b', push src n b = .ok s b' ∧ b.KeepsOld n b' ∧ b'.InRing := by
  have hlength := b.length_nonneg
  obtain ⟨s, m, hseg, hcovers, hslots⟩ :=
    segments_forward b.size_pos (b.start + 1 + b.length) hn (by omega)
  have hpush : RingBuffer.push n (b.start + 1) b.length b.size =
      .ok ⟨b.start + 1, b.length + n, s⟩ := by
    rw [RingBuffer.push, if_pos (by omega), if_pos (by omega), hseg]
    rfl
  obtain ⟨b', hok, hb'⟩ := push_of_room src (fun _ => hfree) hpush
  refine ⟨_, b', hok, ?_, hb'.inRing (by simpa [InRing] using hring)⟩
  have hstart : b.start + 1 + b.length - 1 = b.start + b.length.toNat := by
    omega
  have hold : (ringSlots b.size b.start b.length.toNat).Disjoint
      (ringSlots b.size (b.start + b.length.toNat) n) :=
    disjoint_ringSlots _ (by omega)
  have hlen : (b.length + n).toNat = b.length.toNat + n := by omega
  rw [hstart] at hslots
  rw [← hslots, List.disjoint_append_right] at hold
  rw [KeepsOld, if_neg (by omega), hb'.contents_general, hlen,
    Int.add_sub_cancel, ringSlots_add, List.map_append,
    List.take_left' (by simp)]
  exact map_writeSegs_of_disjoint hcovers src hold.1 hold.2

theorem keepsOld_push_backward (src : Memory) (hn : 0 < n)
    (hfree : (n : Int) ≤ b.size - b.length) :
    ∃ s b', push src (-n) b = .ok s b' ∧ b.KeepsOld (-n) b' ∧ b'.InRing := by
  have hlength := b.length_nonneg
  obtain ⟨s, hseg, hcovers, hslots⟩ :=
    segments_backward b.size_pos b.start hn (by omega)
  have hpush : RingBuffer.push (-n) (b.start + 1) b.length b.size =
      .ok ⟨normalize (b.start + 1 + -n) b.size, b.length + n, s⟩ := by
    rw [RingBuffer.push, if_pos (by omega), if_neg (by omega),
      if_pos (by omega), Int.add_sub_cancel, hseg, Int.natAbs_neg,
      Int.natAbs_natCast]
    rfl
  obtain ⟨b', hok, hb'⟩ := push_of_room src (fun _ => by omega) hpush
  refine ⟨_, b', hok, ?_, hb'.inRing (inRing_normalize _)⟩
  have hold : (ringSlots b.size (b.start - n) n).Disjoint
      (ringSlots b.size (b.start - n + n) b.length.toNat) :=
    disjoint_ringSlots _ (by omega)
  have hstart : (normalize (b.start + 1 + -n) b.size - 1) % b.size =
      (b.start - n) % b.size := by
    have heq : b.start + 1 + -n - 1 = b.start - n := by omega
    rw [normalize_emod, heq]
  have hlen : (b.length + n).toNat = n + b.length.toNat := by omega
  rw [← hslots, Int.sub_add_cancel, List.disjoint_append_left] at hold
  rw [KeepsOld, if_pos (by omega), hb'.contents_general, hlen,
    ringSlots_congr hstart, ringSlots_add, List.map_append,
    List.drop_left' (by simp), Int.sub_add_cancel]
  exact map_writeSegs_of_disjoint hcovers src (List.disjoint_symm hold.2)
    (List.disjoint_symm hold.1)

theorem keepsOld_push_none (src : Memory) (hring : b.InRing) :
    ∃ s b', push src 0 b = .ok s b' ∧ b.KeepsOld 0 b' ∧ b'.InRing := by
  have hle := b.length_le
  have hpush : RingBuffer.push 0 (b.start + 1) b.length b.size =
      .ok ⟨b.start + 1, b.length, ⟨1, 0, 1, 0⟩⟩ := by
    rw [RingBuffer.push, if_pos (by simp only [Int.natAbs_zero]; omega)]
    rfl
  obtain ⟨b', hok, hb'⟩ := push_of_room src (fun _ => by omega) hpush
  refine ⟨_, b', hok, ?_, hb'.inRing (by simpa [InRing] using hring)⟩
  rw [KeepsOld, if_neg (by omega), hb'.contents_general, Int.add_sub_cancel,
    List.take_of_length_le (by simp)]
  rfl

/-- A push that has room keeps what is in the buffer. -/
theorem keepsOld_push (src : Memory) {len : Int}
    (hfree : len.natAbs ≤ b.size - b.length) (hring : b.InRing) :
    ∃ s b', push src len b = .ok s b' ∧ b.KeepsOld len b' ∧ b'.InRing := by
  obtain ⟨n, rfl | rfl⟩ := Int.eq_nat_or_neg len
  · rcases Nat.eq_zero_or_pos n with rfl | hn
    · exact keepsOld_push_none src hring
    · exact keepsOld_push_forward src hn (by simpa using hfree) hring
  · rcases Nat.eq_zero_or_pos n with rfl | hn
    · exact keepsOld_push_none src hring
    · exact keepsOld_push_backward src hn (by simpa using hfree)

end Room

/-! ## Growing -/

section Growing

variable {b : CDataBuffer}

/-- The number of elements of the segment up to the end of the ring. -/
def upToEnd (b : CDataBuffer) : ℕ := (min b.length (b.size - b.start)).toNat

/-- The number of elements of the segment after the end of the ring. -/
def pastEnd (b : CDataBuffer) : ℕ := b.length.toNat - b.upToEnd

theorem upToEnd_add_pastEnd (b : CDataBuffer) :
    b.upToEnd + b.pastEnd = b.length.toNat := by
  simp only [upToEnd, pastEnd]
  omega

/-- The new block: two copies of as many bytes as there are elements. -/
def regrown (b : CDataBuffer) : Memory :=
  copy (copy zeroed 0 b.data (b.start * b.elemsize) b.upToEnd)
    (b.upToEnd * b.elemsize) b.data 0 b.pastEnd

theorem segments_of_inRing (hring : b.InRing) :
    ∃ s, segments (b.start + 1) b.length b.size = .ok s ∧
      (normalizeSegs s).i1 = b.start ∧ (normalizeSegs s).n1 = b.upToEnd ∧
      (normalizeSegs s).n2 = b.pastEnd ∧
      (b.pastEnd ≠ 0 → (normalizeSegs s).i2 = 0) := by
  obtain ⟨hstart, hend⟩ := hring
  have hlength := b.length_nonneg
  have hle := b.length_le
  have hnormal : normalize (b.start + 1) b.size = b.start + 1 := by
    rw [normalize, Int.add_sub_cancel, Int.emod_eq_of_lt hstart hend]
  simp only [segments, hnormal, if_pos (by omega : b.length.natAbs ≤ b.size)]
  refine ⟨_, rfl, ?_⟩
  simp only [upToEnd, pastEnd]
  split_ifs with hpos
  · rw [normalizeSegs, if_neg (by simp only; omega)]
    simp only
    omega
  · rw [normalizeSegs, if_neg (by simp only; omega)]
    simp only
    omega

/-- The buffer after it has grown to make room for `len` elements. -/
structure Grows (b : CDataBuffer) (len : Int) (b' : CDataBuffer) : Prop where
  size : b'.size = max (b.size * 2) (b.length + len)
  elemsize : b'.elemsize = b.elemsize
  autogrow : b'.autogrow = b.autogrow
  start : b'.start = 0
  length : b'.length = b.length
  data : b'.data = b.regrown

theorem checksize_of_grow (hring : b.InRing) (len : Int)
    (hfull : b.size - b.length < len) :
    ∃ b', checksize len b = .ok () b' ∧ b.Grows len b' := by
  obtain ⟨s, hseg, hi1, hn1, hn2, hi2⟩ := segments_of_inRing hring
  have hdata : copy (copy zeroed 0 b.data
      ((normalizeSegs s).i1 * b.elemsize) (normalizeSegs s).n1)
      ((normalizeSegs s).n1 * b.elemsize) b.data
      ((normalizeSegs s).i2 * b.elemsize) (normalizeSegs s).n2 =
        b.regrown := by
    rw [hi1, hn1, hn2, regrown]
    by_cases hpast : b.pastEnd = 0
    · rw [hpast, Nat.cast_zero, copy_zero, copy_zero]
    · rw [hi2 hpast, Int.zero_mul]
  have hnot : ¬ len ≤ b.size - b.length := by omega
  simp only [checksize, get_bind_apply, if_neg hnot, hseg]
  exact ⟨_, rfl, ⟨rfl, rfl, rfl, rfl, rfl, hdata⟩⟩

/-- The bytes of the segment that are not copied are zero: in each of its two
arcs, all but as many bytes as the arc has elements. -/
def RestZero (b : CDataBuffer) : Prop :=
  (∀ k : ℕ, b.upToEnd ≤ k → k < b.upToEnd * b.elemsize →
    b.data (b.start * b.elemsize + k) = 0) ∧
  ∀ k : ℕ, b.pastEnd ≤ k → k < b.pastEnd * b.elemsize → b.data k = 0

theorem restZero_of_elemsize_le_one (h : b.elemsize ≤ 1) : b.RestZero := by
  have hbytes : ∀ n : ℕ, n * b.elemsize ≤ n := fun n =>
    (Nat.mul_le_mul_left n h).trans_eq (Nat.mul_one n)
  constructor
  · intro k hle hlt
    have := hbytes b.upToEnd
    omega
  · intro k hle hlt
    have := hbytes b.pastEnd
    omega

theorem contents_of_inRing (hring : b.InRing) :
    b.contents =
      (interval b.start b.upToEnd).map (element b.elemsize b.data) ++
        (interval 0 b.pastEnd).map (element b.elemsize b.data) := by
  obtain ⟨hstart, hend⟩ := hring
  have hle := b.length_le
  have hlength := b.length_nonneg
  rw [contents, ← List.map_append, ← upToEnd_add_pastEnd]
  congr 1
  simp only [pastEnd, upToEnd]
  exact ringSlots_arcs hstart (by omega) (by omega) (by omega)

theorem regrown_upToEnd (b : CDataBuffer) {k : ℕ}
    (hk : k < b.upToEnd * b.elemsize) :
    b.regrown k =
      if k < b.upToEnd then b.data (b.start * b.elemsize + k) else 0 := by
  have hk' : (k : Int) < b.upToEnd * b.elemsize := by exact_mod_cast hk
  have hsecond : ¬ ((b.upToEnd * b.elemsize : Int) ≤ k ∧
      (k : Int) < b.upToEnd * b.elemsize + b.pastEnd) := by
    omega
  simp only [regrown, copy, if_neg hsecond, zeroed]
  split_ifs
  · congr 1
    omega
  · omega
  · omega
  · rfl

theorem regrown_pastEnd (b : CDataBuffer) {k : ℕ}
    (hk : k < b.pastEnd * b.elemsize) :
    b.regrown ((b.upToEnd * b.elemsize : ℕ) + k) =
      if k < b.pastEnd then b.data k else 0 := by
  have hpos : 0 < b.elemsize :=
    Nat.pos_of_mul_pos_left (by omega : 0 < b.pastEnd * b.elemsize)
  have hbytes : b.upToEnd ≤ b.upToEnd * b.elemsize :=
    Nat.le_mul_of_pos_right _ hpos
  simp only [regrown, copy, zeroed, ← Nat.cast_mul]
  split_ifs
  · congr 1
    omega
  · omega
  · omega
  · omega
  · omega
  · rfl

/-- The grown buffer has the same elements exactly when the bytes that are not
copied are zero. -/
theorem Grows.contents_eq_iff {b' : CDataBuffer} {len : Int}
    (h : b.Grows len b') (hring : b.InRing) :
    b'.contents = b.contents ↔ b.RestZero := by
  have hle := b.length_le
  have hlength := b.length_nonneg
  have hcontents : b'.contents =
      (interval 0 b.upToEnd).map (element b.elemsize b.regrown) ++
        (interval b.upToEnd b.pastEnd).map (element b.elemsize b.regrown) := by
    rw [contents, h.size, h.start, h.length, h.elemsize, h.data,
      ringSlots_eq_interval (le_refl 0) (by omega), ← upToEnd_add_pastEnd,
      interval_add, Int.zero_add, List.map_append]
  rw [hcontents, contents_of_inRing hring,
    List.append_eq_append_iff_of_size_eq_left (by simp), map_element_eq_iff,
    map_element_eq_iff]
  refine and_congr (forall_congr' fun k => ?_) (forall_congr' fun k => ?_)
  · constructor
    · intro heq hle hlt
      have hbyte := heq hlt
      rw [Int.zero_mul, Int.zero_add, b.regrown_upToEnd hlt,
        if_neg (by omega)] at hbyte
      exact hbyte.symm
    · intro hzero hlt
      rw [Int.zero_mul, Int.zero_add, b.regrown_upToEnd hlt]
      split_ifs with hcopied
      · rfl
      · exact (hzero (by omega) hlt).symm
  · rw [← Nat.cast_mul]
    constructor
    · intro heq hle hlt
      have hbyte := heq hlt
      rw [Int.zero_mul, Int.zero_add, b.regrown_pastEnd hlt,
        if_neg (by omega)] at hbyte
      exact hbyte.symm
    · intro hzero hlt
      rw [Int.zero_mul, Int.zero_add, b.regrown_pastEnd hlt]
      split_ifs with hcopied
      · rfl
      · exact (hzero (by omega) hlt).symm

/-! ## Pushes to a growing buffer -/

/-- The push returns, keeps the elements that were in the buffer, and leaves a
buffer whose segment is in the ring. -/
def PushesSafely (b : CDataBuffer) (src : Memory) (len : Int) : Prop :=
  ∃ segs b', push src len b = .ok segs b' ∧ b.KeepsOld len b' ∧
    (0 ≤ b'.length ∧ b'.length ≤ b'.size) ∧ 0 ≤ b'.start ∧ b'.start < b'.size

/-- The push has room, or it grows the buffer and the bytes that are not copied
are zero. -/
def GrowsSafely (b : CDataBuffer) (len : Int) : Prop :=
  len.natAbs ≤ b.size - b.length ∨ (0 < len ∧ b.RestZero)

theorem push_of_grow {b' : CDataBuffer} {len : Int} (src : Memory)
    (hauto : b.autogrow = true) (hsize : checksize len b = .ok () b')
    (h : b.Grows len b') : push src len b = push src len b' := by
  have hroom : len ≤ b'.size - b'.length := by
    rw [h.size, h.length]
    omega
  have hsize' : checksize len b' = .ok () b' := by
    simp only [checksize, get_bind_apply, if_pos hroom, pure_apply]
  rw [push, get_bind_apply, get_bind_apply, h.autogrow, hauto, if_pos rfl,
    bind_of_ok hsize, bind_of_ok hsize']

/-- The buffer does not grow for what is pushed before the head. -/
theorem push_overflow {len : Int} (src : Memory)
    (hneg : b.autogrow = true → len ≤ 0)
    (hfull : ¬ len.natAbs ≤ b.size - b.length) :
    push src len b = .error .assertionFailed b := by
  have hle := b.length_le
  have hsize : (if b.autogrow then checksize len else pure ()) b = .ok () b := by
    split_ifs with hauto
    · have hroom : len ≤ b.size - b.length := by
        have := hneg hauto
        omega
      simp only [checksize, get_bind_apply, if_pos hroom, pure_apply]
    · rfl
  have hpush : RingBuffer.push len (b.start + 1) b.length b.size =
      .error .assertionFailed := if_neg hfull
  rw [push, get_bind_apply, bind_of_ok hsize, get_bind_apply]
  exact ofExcept_attach_bind_of_error hpush _ b

/-- A push after the tail grows the buffer and then has room. -/
theorem push_grow (hring : b.InRing) (src : Memory) {len : Int}
    (hauto : b.autogrow = true) (hpos : 0 < len)
    (hfull : ¬ len.natAbs ≤ b.size - b.length) :
    ∃ b1 s b', b.Grows len b1 ∧ push src len b = .ok s b' ∧
      b1.KeepsOld len b' ∧ b'.InRing := by
  have hlength := b.length_nonneg
  obtain ⟨b1, hsize, hgrows⟩ := checksize_of_grow hring len (by omega)
  have hring1 : b1.InRing := by
    rw [InRing, hgrows.start, hgrows.size]
    omega
  have hfree : len.natAbs ≤ b1.size - b1.length := by
    rw [hgrows.size, hgrows.length]
    omega
  obtain ⟨s, b', hok, hkeeps, hring'⟩ := keepsOld_push src hfree hring1
  rw [← push_of_grow src hauto hsize hgrows] at hok
  exact ⟨b1, s, b', hgrows, hok, hkeeps, hring'⟩

theorem pushesSafely_iff (hauto : b.autogrow = true) (hring : b.InRing)
    (src : Memory) (len : Int) :
    b.PushesSafely src len ↔ b.GrowsSafely len := by
  by_cases hroom : len.natAbs ≤ b.size - b.length
  · obtain ⟨s, b', hok, hkeeps, hring'⟩ := keepsOld_push src hroom hring
    exact iff_of_true
      ⟨s, b', hok, hkeeps, ⟨b'.length_nonneg, b'.length_le⟩, hring'⟩
      (Or.inl hroom)
  by_cases hpos : 0 < len
  · obtain ⟨b1, s, b', hgrows, hok, hkeeps, hring'⟩ :=
      push_grow hring src hauto hpos hroom
    have hlen : b1.contents.length = b.contents.length := by
      rw [length_contents, length_contents, hgrows.length]
    have hiff : b.KeepsOld len b' ↔ b.RestZero := by
      rw [KeepsOld, if_neg (by omega), hlen] at hkeeps
      rw [← hgrows.contents_eq_iff hring, KeepsOld, if_neg (by omega), hkeeps]
    constructor
    · rintro ⟨s', b'', hok', hkeeps', -⟩
      rw [hok] at hok'
      cases hok'
      exact Or.inr ⟨hpos, hiff.mp hkeeps'⟩
    · rintro (hroom' | ⟨-, hzero⟩)
      · exact absurd hroom' hroom
      · exact ⟨s, b', hok, hiff.mpr hzero, ⟨b'.length_nonneg, b'.length_le⟩,
          hring'⟩
  · refine iff_of_false ?_ ?_
    · rintro ⟨s, b', hok, -⟩
      rw [push_overflow src (fun _ => by omega) hroom] at hok
      cases hok
    · rintro (hroom' | ⟨hpos', -⟩)
      · exact hroom hroom'
      · exact hpos hpos'

/-- The segment stays in the ring whatever is requested. -/
theorem inRing_step (hring : b.InRing) (r : Request) : (b.step r).InRing := by
  cases r with
  | push src len =>
      by_cases hroom : len.natAbs ≤ b.size - b.length
      · obtain ⟨s, b', hok, -, hring'⟩ := keepsOld_push src hroom hring
        rwa [step_push hok]
      by_cases hgrow : b.autogrow = true ∧ 0 < len
      · obtain ⟨b1, s, b', -, hok, -, hring'⟩ :=
          push_grow hring src hgrow.1 hgrow.2 hroom
        rwa [step_push hok]
      · have herror := push_overflow src (fun hauto => by
          by_contra hpos
          exact hgrow ⟨hauto, by omega⟩) hroom
        rwa [step, finalState_of_error herror]
  | pull dst len keep =>
      cases ht : RingBuffer.pull len (b.start + 1) b.length b.size with
      | ok t =>
          obtain ⟨b', hok, hb'⟩ := pull_of_ok b dst ht keep
          rw [(step_pull hok).1]
          apply hb'.inRing
          cases keep with
          | true => exact hring
          | false => exact pull_start_inRing hring ht
      | error e =>
          have herror : pull dst len keep b = .error e b :=
            ofExcept_attach_bind_of_error ht _ b
          rwa [step, finalState_of_error herror]

theorem inRing_run (hring : b.InRing) (requests : List Request) :
    (run step requests b).InRing := by
  induction requests generalizing b with
  | nil => exact hring
  | cons r requests ih => exact ih (inRing_step hring r)

theorem PushesSafely.keepsOld {src : Memory} {len : Int}
    (h : b.PushesSafely src len) :
    returnsCheck (push src len) b = true ∧
      b.KeepsOld len (b.step (.push src len)) := by
  obtain ⟨s, b', hok, hkeeps, -⟩ := h
  rw [step_push hok]
  exact ⟨(returnsCheck_eq_true_iff _ _).mpr (returns_of_ok hok), hkeeps⟩

end Growing

/-! ## A full buffer -/

/-- A full buffer of one element. -/
def fullOne (elemsize : ℕ) : CDataBuffer where
  size := 1
  size_pos := by decide
  start := 0
  length := 1
  length_nonneg := by decide
  length_le := by decide
  elemsize := elemsize
  autogrow := true
  data := fun _ => 65

theorem pushesSafely_iff_fullOne :
    (fullOne 1).PushesSafely pair 1 ↔ (fullOne 1).GrowsSafely 1 :=
  pushesSafely_iff rfl (by decide) pair 1

/-- A push before the head of a full buffer overflows, and elements of two
bytes lose their second byte. -/
theorem full_push_not_safe :
    returnsCheck (push pair (-1)) (fullOne 1) = false ∧
      ¬ (fullOne 1).PushesSafely pair (-1) ∧
      (fullOne 2).contents = [[65, 65]] ∧
      ((fullOne 2).step (.push pair 1)).contents = [[65, 0], [67, 0]] ∧
      ¬ (fullOne 2).PushesSafely pair 1 := by
  refine ⟨by decide, fun h => ?_, by decide, by decide,
    fun h => ?_⟩
  · exact absurd h.keepsOld.1 (by decide)
  · have hkeeps := h.keepsOld.2
    revert hkeeps
    unfold KeepsOld
    decide

end CDataBuffer

end LuaAttic.RingBuffer
