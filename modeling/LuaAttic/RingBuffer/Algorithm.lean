import LuaAttic.Lua.Basic
import LuaAttic.Support.Deque
import LuaAttic.Support.Ring
import LuaAttic.Support.Run

/-!
# The stateless ring buffer algorithm (`ringbuffer2.lua`)

A ring buffer is a segment `(start, length)` of a ring of a given size.  The
algorithm counts slots from one and maps an arc, of positive or of negative
length, to one or two arcs that do not pass the end of the ring.
-/

namespace LuaAttic.RingBuffer

open LuaAttic.Support LuaAttic.Lua

/-- The two arcs that a segment is mapped to; a negative length goes
backwards. -/
structure Segs where
  i1 : Int
  n1 : Int
  i2 : Int
  n2 : Int
  deriving DecidableEq, Repr

/-- What `push` and `pull` return: the new segment and the transferred arcs. -/
structure Transfer where
  start : Int
  length : Int
  segs : Segs
  deriving DecidableEq, Repr

/-- Normalize `i` over the range from `1` to `size`. -/
def normalize (i size : Int) : Int := (i - 1) % size + 1

/-- Sweep an arbitrary arc over the ring. -/
def segments (start length size : Int) : Except Error Segs :=
  let start := normalize start size
  if length.natAbs ≤ size then
    .ok <|
      if 0 < length then
        let length1 := size + 1 - start
        ⟨start, min length length1, 1, max 0 (length - length1)⟩
      else
        let length1 := -start
        ⟨start, max length length1, size, min 0 (length - length1)⟩
  else .error .assertionFailed

def freeSegments (start length size : Int) : Except Error Segs :=
  segments (start + length) ((if 0 < length then 1 else -1) * size - length)
    size

/-- Offset from the head, or from the slot after the tail if it is
negative. -/
def offset (offset start length size : Int) : Int :=
  normalize (start + offset + if 0 ≤ offset then 0 else length) size

/-- Add elements after the tail, or before the head if `len` is negative. -/
def push (len start length size : Int) : Except Error Transfer :=
  if len.natAbs ≤ size - length then
    let newlength := length + len.natAbs
    if 0 < len then do
      let segs ← segments (start + length) len size
      return ⟨start, newlength, segs⟩
    else if len < 0 then do
      let segs ← segments (start - 1) len size
      return ⟨normalize (start + len) size, newlength, segs⟩
    else .ok ⟨start, length, ⟨1, 0, 1, 0⟩⟩
  else .error .assertionFailed

/-- Remove elements from the head, or from the tail if `len` is negative. -/
def pull (len start length size : Int) : Except Error Transfer :=
  if len.natAbs ≤ length then
    let newlength := length - len.natAbs
    if 0 < len then do
      let segs ← segments start len size
      return ⟨normalize (start + len) size, newlength, segs⟩
    else if len < 0 then do
      let segs ← segments (start + length - 1) len size
      return ⟨start, newlength, segs⟩
    else .ok ⟨start, length, ⟨1, 0, 1, 0⟩⟩
  else .error .assertionFailed

/-- Invert the direction of arcs of negative length, and count from zero. -/
def normalizeSegs (s : Segs) : Segs :=
  let s := if s.n1 < 0 then
      ⟨s.i1 + s.n1 + 1, -s.n1, s.i2 + s.n2 + 1, -s.n2⟩
    else s
  ⟨s.i1 - 1, s.n1, s.i2 - 1, s.n2⟩

/-! ## The slots of the arcs -/

variable {start size : Int}

theorem normalize_bounds (hsize : 1 ≤ size) (i : Int) :
    1 ≤ normalize i size ∧ normalize i size ≤ size := by
  have hpos := Int.emod_nonneg (i - 1) (b := size) (by omega)
  have hlt := Int.emod_lt_of_pos (i - 1) (b := size) (by omega)
  unfold normalize
  omega

theorem normalize_emod (i size : Int) :
    (normalize i size - 1) % size = (i - 1) % size := by
  unfold normalize
  rw [Int.add_sub_cancel, Int.emod_emod]

/-- The normalized arcs of a segment of `n` slots, the first of which has `m`
of them. -/
structure Segs.Covers (s : Segs) (m n : ℕ) : Prop where
  n1 : s.n1 = m
  n2 : s.n2 = (n - m : ℕ)
  le : m ≤ n

/-- A forward segment falls into the arcs in the order of its steps. -/
theorem segments_forward (hsize : 1 ≤ size) (start : Int) {n : ℕ} (hn : 0 < n)
    (hle : (n : Int) ≤ size) :
    ∃ s m, segments start n size = .ok s ∧ (normalizeSegs s).Covers m n ∧
      interval (normalizeSegs s).i1 m ++ interval (normalizeSegs s).i2 (n - m) =
        ringSlots size (start - 1) n := by
  obtain ⟨hfirst, hlast⟩ := normalize_bounds hsize start
  have hmod := normalize_emod start size
  rw [← ringSlots_congr hmod]
  set i := normalize start size with hi
  have hok : segments start n size =
      .ok ⟨i, min n (size + 1 - i), 1, max 0 (n - (size + 1 - i))⟩ := by
    simp only [segments, ← hi]
    rw [if_pos (by omega), if_pos (by omega)]
  refine ⟨_, min n (size + 1 - i).toNat, hok, ?_, ?_⟩
  · simp only [normalizeSegs]
    rw [if_neg (by omega)]
    exact ⟨by simp only; omega, by simp only; omega, min_le_left _ _⟩
  · simp only [normalizeSegs]
    rw [if_neg (by omega)]
    simp only
    by_cases hend : i - 1 + n ≤ size
    · have hmin : min n (size + 1 - i).toNat = n := by omega
      rw [hmin, Nat.sub_self, interval_zero, List.append_nil,
        ringSlots_eq_interval (by omega) hend]
    · have hmin : min n (size + 1 - i).toNat = (size + 1 - i).toNat := by omega
      have hwrap : ringSlots size (i - 1) ((size + 1 - i).toNat +
          (n - (size + 1 - i).toNat)) = interval (i - 1) _ ++ interval 0 _ :=
        ringSlots_wrap (by omega) (by omega) (by omega)
      rw [Nat.add_sub_cancel' (by omega)] at hwrap
      rw [hmin, hwrap, Int.sub_self]

/-- A backward segment falls into the arcs in the opposite order: the second
arc is stepped through before the first one. -/
theorem segments_backward (hsize : 1 ≤ size) (start : Int) {n : ℕ} (hn : 0 < n)
    (hle : (n : Int) ≤ size) :
    ∃ s, segments start (-n) size = .ok s ∧
      (normalizeSegs s).Covers (min n (normalize start size).toNat) n ∧
      interval (normalizeSegs s).i2 (n - min n (normalize start size).toNat) ++
          interval (normalizeSegs s).i1 (min n (normalize start size).toNat) =
        ringSlots size (start - n) n := by
  obtain ⟨hfirst, hlast⟩ := normalize_bounds hsize start
  have hmod : (normalize start size - n) % size = (start - n) % size := by
    have h := Int.ModEq.sub_right (n - 1 : Int) (normalize_emod start size)
    have heq : ∀ j : Int, j - 1 - (n - 1) = j - n := fun j => by omega
    rwa [heq, heq] at h
  rw [← ringSlots_congr hmod]
  set i := normalize start size with hi
  have hok : segments start (-n) size =
      .ok ⟨i, max (-n) (-i), size, min 0 (-n - -i)⟩ := by
    simp only [segments, ← hi]
    rw [if_pos (by omega), if_neg (by omega)]
  refine ⟨_, hok, ?_, ?_⟩
  · simp only [normalizeSegs]
    rw [if_pos (by omega)]
    exact ⟨by simp only; omega, by simp only; omega, min_le_left _ _⟩
  · simp only [normalizeSegs]
    rw [if_pos (by omega)]
    simp only
    by_cases hend : (n : Int) ≤ i
    · have hmin : min n i.toNat = n := by omega
      have hi1 : i + max (-n : Int) (-i) + 1 - 1 = i - n := by omega
      rw [hmin, Nat.sub_self, interval_zero, List.nil_append, hi1,
        ringSlots_eq_interval (by omega) (by omega)]
    · have hmin : min n i.toNat = i.toNat := by omega
      have hi1 : i + max (-n : Int) (-i) + 1 - 1 = 0 := by omega
      have hturn : (i - n) % size = (i - n + size) % size :=
        (Int.add_emod_right _ _).symm
      have hwrap : ringSlots size (i - n + size) (n - i.toNat + i.toNat) =
          interval (i - n + size) _ ++ interval 0 _ :=
        ringSlots_wrap (by omega) (by omega) (by omega)
      have hi2 : size + min 0 (-n - -i : Int) + 1 - 1 = i - n + size := by omega
      rw [Nat.sub_add_cancel (by omega)] at hwrap
      rw [hmin, hi1, hi2, ringSlots_congr hturn, hwrap]

/-!
## Ring buffers of uniform cdata values (`ringbuffer2.lua`)

A buffer keeps its elements in a block of memory and counts slots from zero.
Memory is byte-addressed, relative to a pointer: adding `i` to a pointer moves
it by `i` elements, while a copy is told how many bytes to move.  The segment
reader and writer, and the allocator, are the default ones.
-/
open MonadExcept (ofExcept)

/-- The bytes behind a pointer. -/
abbrev Memory := Int → UInt8

/-- `ffi.copy(dst + i, src + j, n)`, with the offsets in bytes. -/
def copy (dst : Memory) (i : Int) (src : Memory) (j n : Int) : Memory :=
  fun k => if i ≤ k ∧ k < i + n then src (k - i + j) else dst k

/-- Memory that was allocated by `ffi.new`. -/
def zeroed : Memory := fun _ => 0

structure CDataBuffer where
  size : Int
  size_pos : 1 ≤ size
  start : Int
  length : Int
  length_nonneg : 0 ≤ length
  length_le : length ≤ size
  /-- the size of an element of `data` -/
  elemsize : ℕ
  autogrow : Bool
  data : Memory

theorem push_length {len start length size : Int} {t : Transfer}
    (h : push len start length size = .ok t) :
    len.natAbs ≤ size - length ∧ t.length = length + len.natAbs := by
  unfold push at h
  split_ifs at h with hfree hpos hneg
  · obtain ⟨segs, -, ht⟩ := exists_of_bind_eq_ok h
    cases ht
    exact ⟨hfree, rfl⟩
  · obtain ⟨segs, -, ht⟩ := exists_of_bind_eq_ok h
    cases ht
    exact ⟨hfree, rfl⟩
  · cases h
    exact ⟨hfree, by simp only; omega⟩

theorem pull_length {len start length size : Int} {t : Transfer}
    (h : pull len start length size = .ok t) :
    len.natAbs ≤ length ∧ t.length = length - len.natAbs := by
  unfold pull at h
  split_ifs at h with hused hpos hneg
  · obtain ⟨segs, -, ht⟩ := exists_of_bind_eq_ok h
    cases ht
    exact ⟨hused, rfl⟩
  · obtain ⟨segs, -, ht⟩ := exists_of_bind_eq_ok h
    cases ht
    exact ⟨hused, rfl⟩
  · cases h
    exact ⟨hused, by simp only; omega⟩

namespace CDataBuffer

/-- `cdatabuffer`, for a buffer that comes with `data`. -/
def new (size start length : Int) (elemsize : ℕ) (autogrow : Bool)
    (data : Memory) : Except Error CDataBuffer :=
  if h : 1 ≤ size ∧ 0 ≤ length ∧ length ≤ size then
    .ok ⟨size, h.1, start, length, h.2.1, h.2.2, elemsize, autogrow, data⟩
  else .error .assertionFailed

/-- The pointer `dst + dofs` moves by elements, the copy is `len` bytes
long. -/
def write (b : CDataBuffer) (len : Int) (dst : Memory) (dofs : Int)
    (src : Memory) (sofs : Int) : Memory :=
  copy dst (dofs * b.elemsize) src (sofs * b.elemsize) len

def read (b : CDataBuffer) (len : Int) (dst : Memory) (dofs : Int)
    (src : Memory) (sofs : Int) : Memory :=
  copy dst (dofs * b.elemsize) src (sofs * b.elemsize) len

def checksize (len : Int) : Program CDataBuffer Unit := do
  let b ← get
  if len ≤ b.size - b.length then pure ()
  else do
    let newsize := max (b.size * 2) (b.length + len)
    let segs := normalizeSegs
      (← ofExcept (segments (b.start + 1) b.length b.size))
    let newdata := copy zeroed 0 b.data (segs.i1 * b.elemsize) segs.n1
    let newdata := copy newdata (segs.n1 * b.elemsize) b.data
      (segs.i2 * b.elemsize) segs.n2
    set { b with
      data := newdata
      size := newsize
      size_pos := by
        have := b.size_pos
        omega
      length_le := by
        have := b.length_le
        have := b.size_pos
        omega
      start := 0 }

/-- The writes of `push`, one for each arc that is not empty. -/
def writeSegs (b : CDataBuffer) (segs : Segs) (src : Memory) : Memory :=
  let data := b.data
  let data :=
    if segs.n1 ≠ 0 then b.write segs.n1 data segs.i1 src 0 else data
  if segs.n2 ≠ 0 then b.write segs.n2 data segs.i2 src segs.n1 else data

/-- The reads of `pull`, one for each arc that is not empty. -/
def readSegs (b : CDataBuffer) (segs : Segs) (dst : Memory) : Memory :=
  let dst := if segs.n1 ≠ 0 then b.read segs.n1 dst 0 b.data segs.i1 else dst
  if segs.n2 ≠ 0 then b.read segs.n2 dst segs.n1 b.data segs.i2 else dst

/-- The buffer with the segment that `push` or `pull` returned. -/
def withSegment (b : CDataBuffer) (t : Transfer) (hnonneg : 0 ≤ t.length)
    (hle : t.length ≤ b.size) (data : Memory) : CDataBuffer :=
  { b with
    start := t.start - 1
    length := t.length
    length_nonneg := hnonneg
    length_le := hle
    data := data }

def push (src : Memory) (len : Int) : Program CDataBuffer Segs := do
  let b ← get
  (if b.autogrow then checksize len else pure ())
  let b ← get
  let t ← ofExcept (attach (RingBuffer.push len (b.start + 1) b.length b.size))
  let segs := normalizeSegs t.val.segs
  have hbounds : 0 ≤ t.val.length ∧ t.val.length ≤ b.size := by
    have := push_length t.property
    have := b.length_nonneg
    omega
  set (b.withSegment t.val hbounds.1 hbounds.2 (b.writeSegs segs src))
  return segs

/-- With `keep` the elements are read and not removed.  Besides the arcs,
`pull` leaves the elements in `dst`. -/
def pull (dst : Memory) (len : Int) (keep : Bool) :
    Program CDataBuffer (Segs × Memory) := do
  let b ← get
  let t ← ofExcept (attach (RingBuffer.pull len (b.start + 1) b.length b.size))
  have hbounds : 0 ≤ t.val.length ∧ t.val.length ≤ b.size := by
    have := pull_length t.property
    have := b.length_le
    omega
  (if keep then pure ()
    else set (b.withSegment t.val hbounds.1 hbounds.2 b.data))
  let segs := normalizeSegs t.val.segs
  return (segs, b.readSegs segs dst)

/-- Offset from the head, or from the slot after the tail. -/
def offset (b : CDataBuffer) (ofs : Int) : Int :=
  RingBuffer.offset ofs (b.start + 1) b.length b.size - 1

end CDataBuffer

/-!
## Ring buffers of Lua values (`ringbuffer2.lua`)

A value buffer keeps its elements in a table and counts slots from one.  It
grows in place: the shorter part of a segment that passes the end of the ring
is moved, so that the segment fits the enlarged ring.
-/
open MonadExcept (ofExcept)

/-- A Lua value; `α` are the values other than nil and the Booleans. -/
inductive Value (α : Type)
  | nil
  | boolean (b : Bool)
  | other (x : α)
  deriving DecidableEq, Repr

structure ValueBuffer (α : Type) where
  size : Int
  size_pos : 1 ≤ size
  start : Int
  length : Int
  length_nonneg : 0 ≤ length
  length_le : length ≤ size
  autogrow : Bool
  data : Int → Value α

variable {α : Type}

/-- `t[i] = val` -/
def assign (t : Int → Value α) (i : Int) (val : Value α) : Int → Value α :=
  fun j => if j = i then val else t j

/-- Move `n` values one by one, leaving `false` to keep the slots. -/
def moveSlots (t : Int → Value α) (dst src : Int) (n : ℕ) : Int → Value α :=
  (List.range n).foldl
    (fun t (i : ℕ) =>
      assign (assign t (dst + i) (t (src + i))) (src + i) (.boolean false)) t

def checksign (sign : Option Int) : Except Error Int :=
  let sign := sign.getD 1
  if sign.natAbs = 1 then .ok sign else .error .assertionFailed

namespace ValueBuffer

/-- `valuebuffer` -/
def new (size : Int) (start length : Option Int) (autogrow : Bool)
    (data : Int → Value α) : Except Error (ValueBuffer α) :=
  let start := start.getD 1
  let length := length.getD 0
  if h : 1 ≤ size ∧ 0 ≤ length ∧ length ≤ size then
    .ok ⟨size, h.1, start, length, h.2.1, h.2.2, autogrow, data⟩
  else .error .assertionFailed

/-- The buffer after it has grown. -/
def resized (b : ValueBuffer α) (newsize start : Int) (hsize : b.size ≤ newsize)
    (data : Int → Value α) : ValueBuffer α :=
  { b with
    size := newsize
    size_pos := b.size_pos.trans hsize
    length_le := b.length_le.trans hsize
    start := start
    data := data }

def checksize (len : Int) : Program (ValueBuffer α) Unit := do
  let b ← get
  if len ≤ b.size - b.length then pure ()
  else do
    let newsize := max (b.size * 2) (b.length + len)
    have hsize : b.size ≤ newsize := by
      have := b.size_pos
      omega
    let segs ← ofExcept (segments b.start b.length b.size)
    if segs.n2 < segs.n1 then
      -- move segment 2 right after segment 1
      let o := segs.i1 + segs.n1 - 1
      set (b.resized newsize b.start hsize
        (moveSlots b.data (o + 1) 1 segs.n2.toNat))
    else
      -- move segment 1 to the end of the new buffer
      let o := newsize - segs.n1 + 1
      set (b.resized newsize o hsize
        (moveSlots b.data o segs.i1 segs.n1.toNat))

/-- The buffer with the segment that `push` or `pull` returned. -/
def withSegment (b : ValueBuffer α) (t : Transfer) (hnonneg : 0 ≤ t.length)
    (hle : t.length ≤ b.size) (data : Int → Value α) : ValueBuffer α :=
  { b with
    start := t.start
    length := t.length
    length_nonneg := hnonneg
    length_le := hle
    data := data }

def push (val : Value α) (sign : Option Int) : Program (ValueBuffer α) Int := do
  let sign ← ofExcept (checksign sign)
  let b ← get
  (if b.autogrow then checksize 1 else pure ())
  let b ← get
  let t ← ofExcept (attach (RingBuffer.push sign b.start b.length b.size))
  have hbounds : 0 ≤ t.val.length ∧ t.val.length ≤ b.size := by
    have := push_length t.property
    have := b.length_nonneg
    omega
  let i := t.val.segs.i1
  set (b.withSegment t.val hbounds.1 hbounds.2 (assign b.data i val))
  return i

/-- With `keep` the value is read and not removed. -/
def pull (sign : Option Int) (keep : Bool) :
    Program (ValueBuffer α) (Value α × Int) := do
  let sign ← ofExcept (checksign sign)
  let b ← get
  let t ← ofExcept (attach (RingBuffer.pull sign b.start b.length b.size))
  have hbounds : 0 ≤ t.val.length ∧ t.val.length ≤ b.size := by
    have := pull_length t.property
    have := b.length_le
    omega
  let i := t.val.segs.i1
  let val := b.data i
  (if keep then pure ()
    else set (b.withSegment t.val hbounds.1 hbounds.2
      (assign b.data i (.boolean false))))
  return (val, i)

/-- Offset from the head, or from the slot after the tail. -/
def offset (b : ValueBuffer α) (ofs : Int) : Int :=
  RingBuffer.offset ofs b.start b.length b.size

/-- The values of the segment, from the head to the tail. -/
def contents (b : ValueBuffer α) : List (Value α) :=
  (ringSlots b.size (b.start - 1) b.length.toNat).map fun i => b.data (i + 1)

@[simp] theorem length_contents (b : ValueBuffer α) :
    b.contents.length = b.length.toNat := by
  simp [contents]

end ValueBuffer

end LuaAttic.RingBuffer
