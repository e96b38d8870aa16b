import LuaAttic.RingBuffer.Algorithm
import LuaAttic.Support.Deque
import LuaAttic.Support.Run
import Mathlib.Data.List.Rotate

/-!
# A cdata buffer as a double-ended queue

With elements of one byte a transfer moves the elements of its two arcs.  Both
are moved in the order of the arcs, which for a backward transfer that passes
the end of the ring is not the order of the elements: the two parts change
places.
-/

namespace LuaAttic.RingBuffer

open LuaAttic.Support LuaAttic.Lua

/-! ## Copying -/

theorem copy_zero (dst : Memory) (i : Int) (src : Memory) (j : Int) :
    copy dst i src j 0 = dst := by
  funext k
  exact if_neg (by omega)

theorem map_copy (dst : Memory) (i : Int) (src : Memory) (j : Int) (n : ℕ) :
    (interval i n).map (copy dst i src j n) = (interval j n).map src := by
  rw [interval, interval, List.map_map, List.map_map]
  apply List.map_congr_left
  intro k hk
  rw [List.mem_range] at hk
  have hoffset : i + (k : Int) - i + j = j + k := by omega
  simp only [Function.comp_apply, copy]
  rw [if_pos (by omega), hoffset]

theorem map_copy_of_disjoint {slots : List Int} (dst : Memory) {i : Int}
    (src : Memory) (j : Int) {n : ℕ} (h : slots.Disjoint (interval i n)) :
    slots.map (copy dst i src j n) = slots.map dst := by
  apply List.map_congr_left
  intro k hk
  exact if_neg fun hin => h hk (mem_interval.mpr hin)

/-! ## Elements -/

/-- The element of a block of memory at an index. -/
def element (elemsize : ℕ) (mem : Memory) (i : Int) : Bytes :=
  (interval (i * elemsize) elemsize).map mem

/-- The first elements of a block of memory. -/
def elements (elemsize : ℕ) (mem : Memory) (n : ℕ) : List Bytes :=
  (interval 0 n).map (element elemsize mem)

@[simp] theorem length_elements (elemsize : ℕ) (mem : Memory) (n : ℕ) :
    (elements elemsize mem n).length = n := by
  simp [elements]

theorem map_element_one (mem : Memory) (slots : List Int) :
    slots.map (element 1 mem) = (slots.map mem).map fun c => [c] := by
  have helement : element 1 mem = fun i => [mem i] := by
    funext i
    simp [element, interval]
  rw [helement, List.map_map]
  rfl

namespace CDataBuffer

/-- The elements of the segment, from the head to the tail. -/
def contents (b : CDataBuffer) : List Bytes :=
  (ringSlots b.size b.start b.length.toNat).map (element b.elemsize b.data)

@[simp] theorem length_contents (b : CDataBuffer) :
    b.contents.length = b.length.toNat := by
  simp [contents]

/-- A fixed buffer of one-byte elements. -/
structure FixedBytes (b : CDataBuffer) : Prop where
  elemsize : b.elemsize = 1
  fixed : b.autogrow = false

/-! ## The two copies of a transfer -/

section Segs

variable {b : CDataBuffer} {s : Segs} {m n : ℕ}

/-- The offsets are counted in elements, and the lengths in bytes. -/
theorem writeSegs_eq_copy (hs : s.Covers m n) (src : Memory) :
    b.writeSegs s src =
      copy (copy b.data (s.i1 * b.elemsize) src (0 * b.elemsize) m)
        (s.i2 * b.elemsize) src (m * b.elemsize) (n - m : ℕ) := by
  have hwrite : ∀ (len : Int) dst i j,
      (if len ≠ 0 then b.write len dst i src j else dst) =
        copy dst (i * b.elemsize) src (j * b.elemsize) len := by
    intro len dst i j
    split_ifs with hlen
    · rfl
    · rw [not_not] at hlen
      rw [hlen, copy_zero]
  simp only [writeSegs, hwrite, hs.n1, hs.n2]

theorem writeSegs_eq (hb : b.FixedBytes) (hs : s.Covers m n) (src : Memory) :
    b.writeSegs s src =
      copy (copy b.data s.i1 src 0 m) s.i2 src m (n - m : ℕ) := by
  rw [writeSegs_eq_copy hs]
  simp [hb.elemsize]

theorem readSegs_eq (hb : b.FixedBytes) (hs : s.Covers m n) (dst : Memory) :
    b.readSegs s dst =
      copy (copy dst 0 b.data s.i1 m) m b.data s.i2 (n - m : ℕ) := by
  have hread : ∀ (len : Int) dst i j,
      (if len ≠ 0 then b.read len dst i b.data j else dst) =
        copy dst i b.data j len := by
    intro len dst i j
    split_ifs with hlen
    · simp [read, hb.elemsize]
    · rw [not_not] at hlen
      rw [hlen, copy_zero]
  simp only [readSegs, hread, hs.n1, hs.n2]

/-- The writes put the source into the two arcs, and nothing elsewhere. -/
theorem map_writeSegs (hb : b.FixedBytes) (hs : s.Covers m n) (src : Memory)
    (hdisjoint : (interval s.i1 m).Disjoint (interval s.i2 (n - m))) :
    (interval s.i1 m).map (b.writeSegs s src) = (interval 0 m).map src ∧
      (interval s.i2 (n - m)).map (b.writeSegs s src) =
        (interval m (n - m)).map src ∧
      ∀ slots : List Int, slots.Disjoint (interval s.i1 m) →
        slots.Disjoint (interval s.i2 (n - m)) →
          slots.map (b.writeSegs s src) = slots.map b.data := by
  rw [writeSegs_eq hb hs]
  refine ⟨?_, map_copy _ _ _ _ _, ?_⟩
  · rw [map_copy_of_disjoint _ _ _ hdisjoint, map_copy]
  · intro slots h1 h2
    rw [map_copy_of_disjoint _ _ _ h2, map_copy_of_disjoint _ _ _ h1]

/-- The reads put the first arc before the second one. -/
theorem map_readSegs (hb : b.FixedBytes) (hs : s.Covers m n) (dst : Memory) :
    (interval 0 n).map (b.readSegs s dst) =
      (interval s.i1 m).map b.data ++ (interval s.i2 (n - m)).map b.data := by
  have hdisjoint : (interval 0 m).Disjoint (interval (m : Int) (n - m)) := by
    intro k h1 h2
    rw [mem_interval] at h1 h2
    omega
  rw [readSegs_eq hb hs, interval_split hs.le, List.map_append,
    map_copy_of_disjoint _ _ _ hdisjoint, map_copy, map_copy]

end Segs

/-! ## Single transfers -/

/-- The buffer afterwards, up to the elements. -/
structure Becomes (b : CDataBuffer) (start length : Int) (data : Memory)
    (b' : CDataBuffer) : Prop where
  size : b'.size = b.size
  elemsize : b'.elemsize = b.elemsize
  autogrow : b'.autogrow = b.autogrow
  start : b'.start = start
  length : b'.length = length
  data : b'.data = data

theorem Becomes.fixedBytes {b b' : CDataBuffer} {start length : Int} {data : Memory}
    (h : b.Becomes start length data b') (hb : b.FixedBytes) : b'.FixedBytes :=
  ⟨h.elemsize.trans hb.elemsize, h.autogrow.trans hb.fixed⟩

/-- A push that has room does not grow the buffer. -/
theorem push_of_room {b : CDataBuffer} (src : Memory) {len : Int}
    (hroom : b.autogrow = true → len ≤ b.size - b.length) {t : Transfer}
    (h : RingBuffer.push len (b.start + 1) b.length b.size = .ok t) :
    ∃ b', push src len b = .ok (normalizeSegs t.segs) b' ∧
      b.Becomes (t.start - 1) t.length
        (b.writeSegs (normalizeSegs t.segs) src) b' := by
  have hsize : (if b.autogrow then checksize len else pure ()) b = .ok () b := by
    cases hauto : b.autogrow with
    | true =>
        simp only [if_true, checksize, get_bind_apply, if_pos (hroom hauto),
          pure_apply]
    | false => rfl
  rw [push, get_bind_apply, bind_of_ok hsize, get_bind_apply, attach_of_ok h]
  exact ⟨_, rfl, ⟨rfl, rfl, rfl, rfl, rfl, rfl⟩⟩

theorem push_of_ok {b : CDataBuffer} (hb : b.FixedBytes) (src : Memory) {len : Int}
    {t : Transfer}
    (h : RingBuffer.push len (b.start + 1) b.length b.size = .ok t) :
    ∃ b', push src len b = .ok (normalizeSegs t.segs) b' ∧
      b.Becomes (t.start - 1) t.length
        (b.writeSegs (normalizeSegs t.segs) src) b' := by
  refine push_of_room src (fun hauto => ?_) h
  rw [hb.fixed] at hauto
  cases hauto

theorem pull_of_ok (b : CDataBuffer) (dst : Memory) {len : Int} {t : Transfer}
    (h : RingBuffer.pull len (b.start + 1) b.length b.size = .ok t)
    (keep : Bool) :
    ∃ b', pull dst len keep b =
        .ok (normalizeSegs t.segs, b.readSegs (normalizeSegs t.segs) dst) b' ∧
      b.Becomes (if keep then b.start else t.start - 1)
        (if keep then b.length else t.length) b.data b' := by
  rw [pull, get_bind_apply, attach_of_ok h]
  cases keep with
  | true => exact ⟨_, rfl, ⟨rfl, rfl, rfl, rfl, rfl, rfl⟩⟩
  | false => exact ⟨_, rfl, ⟨rfl, rfl, rfl, rfl, rfl, rfl⟩⟩

theorem Becomes.contents {b b' : CDataBuffer} {start length : Int}
    {data : Memory} (h : b.Becomes start length data b') (hb : b.FixedBytes) :
    b'.contents =
      ((ringSlots b.size start length.toNat).map data).map fun c => [c] := by
  rw [CDataBuffer.contents, h.size, h.start, h.length, h.elemsize, hb.elemsize,
    h.data, map_element_one]

theorem contents_eq {b : CDataBuffer} (hb : b.FixedBytes) :
    b.contents =
      ((ringSlots b.size b.start b.length.toNat).map b.data).map
        fun c => [c] := by
  rw [contents, hb.elemsize, map_element_one]

section Transfers

variable {b : CDataBuffer} {n : ℕ}

/-- A push after the tail appends the elements. -/
theorem push_forward (hb : b.FixedBytes) (src : Memory) (hn : 0 < n)
    (hfree : (n : Int) ≤ b.size - b.length) :
    ∃ s b', push src n b = .ok s b' ∧ b'.FixedBytes ∧
      b'.contents = b.contents ++ elements 1 src n := by
  have hlength := b.length_nonneg
  obtain ⟨s, m, hseg, hcovers, hslots⟩ :=
    segments_forward b.size_pos (b.start + 1 + b.length) hn (by omega)
  have hpush : RingBuffer.push n (b.start + 1) b.length b.size =
      .ok ⟨b.start + 1, b.length + n, s⟩ := by
    rw [RingBuffer.push, if_pos (by omega), if_pos (by omega), hseg]
    rfl
  obtain ⟨b', hok, hb'⟩ := push_of_ok hb src hpush
  refine ⟨_, b', hok, hb'.fixedBytes hb, ?_⟩
  have hstart : b.start + 1 + b.length - 1 = b.start + b.length.toNat := by
    omega
  rw [hstart] at hslots
  have hnew : (ringSlots b.size (b.start + b.length.toNat) n).Nodup :=
    nodup_ringSlots _ (by omega)
  have hold : (ringSlots b.size b.start b.length.toNat).Disjoint
      (ringSlots b.size (b.start + b.length.toNat) n) :=
    disjoint_ringSlots _ (by omega)
  rw [← hslots] at hnew hold
  rw [List.disjoint_append_right] at hold
  obtain ⟨h1, h2, hrest⟩ := map_writeSegs hb hcovers src
    (List.disjoint_of_nodup_append hnew)
  have hlen : (b.length + n).toNat = b.length.toNat + n := by omega
  rw [hb'.contents hb, contents_eq hb, elements, map_element_one,
    ← List.map_append]
  congr 1
  rw [hlen, Int.add_sub_cancel, ringSlots_add, List.map_append, ← hslots,
    List.map_append, h1, h2, hrest _ hold.1 hold.2, interval_split hcovers.le,
    List.map_append]

/-- A push before the head prepends the elements, but those that come after the
end of the ring has been passed change places with the others. -/
theorem push_backward (hb : b.FixedBytes) (src : Memory) (hn : 0 < n)
    (hfree : (n : Int) ≤ b.size - b.length) :
    ∃ s b', push src (-n) b = .ok s b' ∧ b'.FixedBytes ∧
      b'.contents =
        (elements 1 src n).rotate (min n (normalize b.start b.size).toNat) ++
          b.contents := by
  have hlength := b.length_nonneg
  obtain ⟨s, hseg, hcovers, hslots⟩ :=
    segments_backward b.size_pos b.start hn (by omega)
  set m := min n (normalize b.start b.size).toNat
  have hpush : RingBuffer.push (-n) (b.start + 1) b.length b.size =
      .ok ⟨normalize (b.start + 1 + -n) b.size, b.length + n, s⟩ := by
    rw [RingBuffer.push, if_pos (by omega), if_neg (by omega),
      if_pos (by omega), Int.add_sub_cancel, hseg, Int.natAbs_neg,
      Int.natAbs_natCast]
    rfl
  obtain ⟨b', hok, hb'⟩ := push_of_ok hb src hpush
  refine ⟨_, b', hok, hb'.fixedBytes hb, ?_⟩
  have hnew : (ringSlots b.size (b.start - n) n).Nodup :=
    nodup_ringSlots _ (by omega)
  have hold : (ringSlots b.size (b.start - n) n).Disjoint
      (ringSlots b.size (b.start - n + n) b.length.toNat) :=
    disjoint_ringSlots _ (by omega)
  rw [← hslots] at hnew hold
  rw [Int.sub_add_cancel, List.disjoint_append_left] at hold
  obtain ⟨h1, h2, hrest⟩ := map_writeSegs hb hcovers src
    (List.disjoint_symm (List.disjoint_of_nodup_append hnew))
  have hstart : (normalize (b.start + 1 + -n) b.size - 1) % b.size =
      (b.start - n) % b.size := by
    have heq : b.start + 1 + -n - 1 = b.start - n := by omega
    rw [normalize_emod, heq]
  have hlen : (b.length + n).toNat = n + b.length.toNat := by omega
  have hparts : (elements 1 src n).rotate m =
      ((interval m (n - m)).map src ++ (interval 0 m).map src).map
        fun c => [c] := by
    have hrotate := List.rotate_append_length_eq ((interval 0 m).map src)
      ((interval m (n - m)).map src)
    rw [List.length_map, length_interval] at hrotate
    rw [elements, map_element_one, ← List.map_rotate, interval_split hcovers.le,
      List.map_append, hrotate]
  rw [hb'.contents hb, contents_eq hb, hparts, ← List.map_append]
  congr 1
  rw [hlen, ringSlots_congr hstart, ringSlots_add, List.map_append, ← hslots,
    List.map_append, h1, h2, Int.sub_add_cancel,
    hrest _ (List.disjoint_symm hold.2) (List.disjoint_symm hold.1)]

/-- The contents fall into the first `m` elements and the others. -/
theorem contents_split (hb : b.FixedBytes) {m : ℕ} (hm : m + n = b.length) :
    b.contents.take m =
        ((ringSlots b.size b.start m).map b.data).map (fun c => [c]) ∧
      b.contents.drop m =
        ((ringSlots b.size (b.start + m) n).map b.data).map fun c => [c] := by
  have hlen : b.length.toNat = m + n := by omega
  rw [contents_eq hb, hlen, ringSlots_add, List.map_append, List.map_append]
  constructor
  · exact List.take_left' (by simp)
  · exact List.drop_left' (by simp)

/-- A pull from the head gives the first elements. -/
theorem pull_forward (hb : b.FixedBytes) (dst : Memory) (hn : 0 < n)
    (hused : (n : Int) ≤ b.length) (keep : Bool) :
    ∃ s dst' b', pull dst n keep b = .ok (s, dst') b' ∧ b'.FixedBytes ∧
      elements 1 dst' n = b.contents.take n ∧
      b'.contents = if keep then b.contents else b.contents.drop n := by
  have hle := b.length_le
  obtain ⟨s, m, hseg, hcovers, hslots⟩ :=
    segments_forward b.size_pos (b.start + 1) hn (by omega)
  have hpull : RingBuffer.pull n (b.start + 1) b.length b.size =
      .ok ⟨normalize (b.start + 1 + n) b.size, b.length - n, s⟩ := by
    rw [RingBuffer.pull, if_pos (by omega), if_pos (by omega), hseg]
    rfl
  obtain ⟨b', hok, hb'⟩ := pull_of_ok b dst hpull keep
  obtain ⟨htake, hdrop⟩ := contents_split (m := n)
    (n := (b.length - n).toNat) hb (by omega)
  refine ⟨_, _, b', hok, hb'.fixedBytes hb, ?_, ?_⟩
  · rw [Int.add_sub_cancel] at hslots
    rw [htake, elements, map_element_one, map_readSegs hb hcovers,
      ← List.map_append, hslots]
  · rw [hb'.contents hb]
    cases keep with
    | true => exact (contents_eq hb).symm
    | false =>
        have hstart : (normalize (b.start + 1 + n) b.size - 1) % b.size =
            (b.start + n) % b.size := by
          have heq : b.start + 1 + n - 1 = b.start + n := by omega
          rw [normalize_emod, heq]
        simp only [Bool.false_eq_true, if_false]
        rw [hdrop, ringSlots_congr hstart]

/-- A pull from the tail gives the last elements, but those that come before
the end of the ring is passed change places with the others. -/
theorem pull_backward (hb : b.FixedBytes) (dst : Memory) (hn : 0 < n)
    (hused : (n : Int) ≤ b.length) (keep : Bool) :
    ∃ s dst' b', pull dst (-n) keep b = .ok (s, dst') b' ∧ b'.FixedBytes ∧
      elements 1 dst' n =
        (b.contents.drop (b.contents.length - n)).rotate
          (n - min n (normalize (b.start + b.length) b.size).toNat) ∧
      b'.contents =
        if keep then b.contents
        else b.contents.take (b.contents.length - n) := by
  have hle := b.length_le
  obtain ⟨s, hseg, hcovers, hslots⟩ :=
    segments_backward b.size_pos (b.start + b.length) hn (by omega)
  set m := min n (normalize (b.start + b.length) b.size).toNat
  have hpull : RingBuffer.pull (-n) (b.start + 1) b.length b.size =
      .ok ⟨b.start + 1, b.length - n, s⟩ := by
    have heq : b.start + 1 + b.length - 1 = b.start + b.length := by omega
    rw [RingBuffer.pull, if_pos (by omega), if_neg (by omega),
      if_pos (by omega), heq, hseg, Int.natAbs_neg, Int.natAbs_natCast]
    rfl
  obtain ⟨b', hok, hb'⟩ := pull_of_ok b dst hpull keep
  have hlen : b.contents.length - n = (b.length - n).toNat := by
    rw [length_contents]
    omega
  obtain ⟨htake, hdrop⟩ := contents_split (m := (b.length - n).toNat) (n := n)
    hb (by omega)
  refine ⟨_, _, b', hok, hb'.fixedBytes hb, ?_, ?_⟩
  · have hstart : b.start + b.length - n = b.start + (b.length - n).toNat := by
      omega
    have hrotate := List.rotate_append_length_eq
      ((interval (normalizeSegs s).i2 (n - m)).map b.data)
      ((interval (normalizeSegs s).i1 m).map b.data)
    rw [List.length_map, length_interval] at hrotate
    rw [hstart] at hslots
    rw [hlen, hdrop, ← List.map_rotate, ← hslots, List.map_append, hrotate,
      elements, map_element_one, map_readSegs hb hcovers]
  · rw [hb'.contents hb]
    cases keep with
    | true => exact (contents_eq hb).symm
    | false =>
        simp only [Bool.false_eq_true, if_false]
        rw [hlen, htake, Int.add_sub_cancel]

end Transfers

end CDataBuffer

end LuaAttic.RingBuffer
