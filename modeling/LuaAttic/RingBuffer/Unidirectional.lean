import LuaAttic.RingBuffer.ValueQueue
import Mathlib.Algebra.Order.Ring.Int
import Mathlib.Tactic.Positivity
import Mathlib.Tactic.Zify

/-!
# Unidirectional ring buffers (`ringbuffer_t.lua`)

A buffer of Lua values to which values are added at the tail and from which
they are removed at the head.  Its `offset` is a method that counts slots from
one, until the buffer grows: then the field holds the function that the method
is made of, which counts from zero.
-/

namespace LuaAttic.RingBuffer

open LuaAttic.Support LuaAttic.Lua
open MonadExcept (ofExcept)

/-- `bit.band`, which works on 32-bit integers. -/
def band (a b : Int) : Int := (BitVec.ofInt 32 a &&& BitVec.ofInt 32 b).toInt

/-- The functions that normalize an offset. -/
inductive OffsetFunc
  | offsetAnd
  | offsetMod
  deriving DecidableEq, Repr

def OffsetFunc.apply (size offset : Int) : OffsetFunc → Int
  | offsetAnd => band offset (size - 1)
  | offsetMod => offset % size

/-- The function to use: it is faster if the size is a power of two. -/
def offsetFunc (size : Int) : OffsetFunc :=
  if band size (size - 1) = 0 then .offsetAnd else .offsetMod

/-- What the field `offset` of a buffer can be. -/
inductive OffsetMethod
  /-- the method `vbuf:offset` -/
  | vbuf
  | func (f : OffsetFunc)
  deriving DecidableEq, Repr

/-- The two segments of a buffer `(0, size)`. -/
def segmentsT (offset length size : Int) : Segs :=
  let length1 := size - offset
  ⟨offset, min length length1, 0, max 0 (length - length1)⟩

structure VBuffer (α : Type) where
  start : Int
  length : Int
  size : Int
  /-- the field `_offset` -/
  offsetFunc : OffsetFunc
  /-- the field `offset` -/
  offsetMethod : OffsetMethod
  data : Int → Value α

namespace VBuffer

variable {α : Type}

/-- `vbuffer` -/
def new (start length size : Option Int) (data : Int → Value α) : VBuffer α where
  start := start.getD 1
  length := length.getD 0
  size := size.getD 0
  offsetFunc := RingBuffer.offsetFunc (size.getD 0)
  offsetMethod := .vbuf
  data := data

/-- `self:offset(offset)` -/
def offset (b : VBuffer α) (offset : Int) : Int :=
  match b.offsetMethod with
  | .vbuf => b.offsetFunc.apply b.size (offset - 1) + 1
  | .func f => f.apply b.size offset

def push (v : Value α) : Program (VBuffer α) Int := do
  let b ← get
  if 1 ≤ b.size - b.length then do
    let i := b.offset (b.start + b.length)
    set { b with length := b.length + 1, data := assign b.data i v }
    return i
  else throw .assertionFailed

def pull : Program (VBuffer α) (Value α) := do
  let b ← get
  if 1 ≤ b.length then do
    let i := b.offset b.start
    let v := b.data i
    set { b with data := assign b.data i .nil }
    return v
  else throw .assertionFailed

def checksize (len : Int) : Program (VBuffer α) Unit := do
  let b ← get
  if len ≤ b.size - b.length then pure ()
  else do
    let newsize := max (b.size * 2) (b.length + len)
    let segs := segmentsT b.start b.length b.size
    if segs.n2 < segs.n1 then
      -- move segment 2 right after segment 1
      let o := segs.i1 + segs.n1 - 1
      set { b with
        data := moveSlots b.data (o + 1) 1 segs.n2.toNat
        size := newsize
        offsetMethod := .func (RingBuffer.offsetFunc newsize) }
    else
      -- move segment 1 to the end of the new buffer
      let o := newsize - segs.n1 + 1
      set { b with
        data := moveSlots b.data o segs.i1 segs.n1.toNat
        start := o
        size := newsize
        offsetMethod := .func (RingBuffer.offsetFunc newsize) }

/-- The values in the buffer, from the head on. -/
def contents (b : VBuffer α) : List (Value α) :=
  (interval b.start b.length.toNat).map fun i => b.data (b.offset i)

end VBuffer

/-! ## The offset functions -/

theorem band_two_pow_sub_one (x : Int) {k : ℕ} (hk : k < 32) :
    band x (2 ^ k - 1) = x % 2 ^ k := by
  have hpow : 2 ^ k ≤ 2 ^ 31 := Nat.pow_le_pow_right (by decide) (by omega)
  have hpos : 0 < 2 ^ k := Nat.two_pow_pos k
  have hmask : (BitVec.ofInt 32 (2 ^ k - 1)).toNat = 2 ^ k - 1 := by
    have hcast : (2 ^ k - 1 : Int) = ((2 ^ k - 1 : ℕ) : Int) := by
      push_cast [Nat.one_le_two_pow]
      rfl
    rw [hcast, BitVec.toNat_ofInt]
    omega
  have hnat : (BitVec.ofInt 32 x &&& BitVec.ofInt 32 (2 ^ k - 1)).toNat =
      (x % 2 ^ k).toNat := by
    have hdvd : (2 ^ k : Int) ∣ 2 ^ 32 := pow_dvd_pow 2 (by omega)
    rw [BitVec.toNat_and, hmask, Nat.and_two_pow_sub_one_eq_mod,
      BitVec.toNat_ofInt]
    have hmod : x % 2 ^ 32 % 2 ^ k = x % 2 ^ k := Int.emod_emod_of_dvd x hdvd
    have hnonneg := Int.emod_nonneg x (b := 2 ^ 32) (by decide)
    zify
    rw [Int.toNat_of_nonneg (by exact_mod_cast hnonneg),
      Int.toNat_of_nonneg (Int.emod_nonneg x (by positivity))]
    exact_mod_cast hmod
  have hlt : (x % 2 ^ k).toNat < 2 ^ k := by
    have := Int.emod_lt_of_pos x (b := 2 ^ k) (by positivity)
    have := Int.emod_nonneg x (b := 2 ^ k) (by positivity)
    zify
    omega
  rw [band, BitVec.toInt_eq_toNat_of_lt (by rw [hnat]; omega), hnat]
  exact Int.toNat_of_nonneg (Int.emod_nonneg x (by positivity))

/-- Both functions are the remainder, as long as the size has 32 bits. -/
theorem offsetFunc_apply {size : Int} (hpos : 1 ≤ size) (hsize : size < 2 ^ 32)
    (x : Int) : (offsetFunc size).apply size x = x % size := by
  unfold offsetFunc
  split_ifs with hband
  · obtain ⟨n, rfl⟩ := Int.eq_ofNat_of_zero_le (by omega : 0 ≤ size)
    have hpred : ((n : Int) - 1) = ((n - 1 : ℕ) : Int) := by omega
    have hnat : n &&& (n - 1) = 0 := by
      have hzero : BitVec.ofInt 32 n &&& BitVec.ofInt 32 (n - 1 : ℕ) = 0 := by
        rw [← BitVec.toInt_inj, ← hpred]
        exact hband
      have htoNat := congrArg BitVec.toNat hzero
      rw [BitVec.toNat_and, BitVec.ofInt_natCast, BitVec.ofInt_natCast,
        BitVec.toNat_ofNat, BitVec.toNat_ofNat, Nat.mod_eq_of_lt (by omega),
        Nat.mod_eq_of_lt (by omega)] at htoNat
      exact htoNat
    obtain ⟨k, rfl⟩ :=
      (Nat.and_sub_one_eq_zero_iff_isPowerOfTwo (by omega)).mp hnat
    have hk : k < 32 := by
      by_contra hge
      have := Nat.pow_le_pow_right (n := 2) (by decide) (not_lt.mp hge)
      omega
    push_cast
    exact band_two_pow_sub_one x hk
  · rfl

namespace VBuffer

variable {α : Type} {b : VBuffer α}

/-! ## The slots of the queue -/

/-- The state of a buffer that no value has been pulled from. -/
structure Valid (b : VBuffer α) : Prop where
  start_pos : 1 ≤ b.start
  length_nonneg : 0 ≤ b.length
  length_le : b.length ≤ b.size
  size_lt : b.size < 2 ^ 32
  offset : b.offsetMethod = .func (RingBuffer.offsetFunc b.size) ∨
    (b.offsetMethod = .vbuf ∧ b.offsetFunc = RingBuffer.offsetFunc b.size)

/-- The index that slots are counted from. -/
def base (b : VBuffer α) : Int :=
  match b.offsetMethod with
  | .vbuf => 1
  | .func _ => 0

theorem Valid.offset_eq (h : b.Valid) (hpos : 1 ≤ b.size) (x : Int) :
    b.offset x = (x - b.base) % b.size + b.base := by
  rcases h.offset with hfunc | ⟨hvbuf, hfunc⟩
  · simp only [VBuffer.offset, base, hfunc]
    rw [offsetFunc_apply hpos h.size_lt, Int.sub_zero, Int.add_zero]
  · simp only [VBuffer.offset, base, hvbuf, hfunc]
    rw [offsetFunc_apply hpos h.size_lt]

/-- In one turn of the ring no slot occurs twice. -/
theorem Valid.offset_ne (h : b.Valid) {x y : Int} (hxy : x < y)
    (hturn : y < x + b.size) : b.offset x ≠ b.offset y := by
  rw [h.offset_eq (by omega), h.offset_eq (by omega)]
  intro heq
  have hmod : (x - b.base) % b.size = (y - b.base) % b.size := by omega
  have hdvd := Int.ModEq.dvd hmod
  have hle := Int.le_of_dvd (by omega) hdvd
  omega

/-- Slots that lie in the ring are where they are. -/
theorem Valid.offset_self (h : b.Valid) {x : Int} (hx : 1 ≤ x)
    (hlt : x < b.size) : b.offset x = x := by
  have hbase : b.base = 0 ∨ b.base = 1 := by
    unfold base
    split
    · exact Or.inr rfl
    · exact Or.inl rfl
  rw [h.offset_eq (by omega), Int.emod_eq_of_lt (by omega) (by omega)]
  omega

theorem contents_eq_nil (h : b.length = 0) : b.contents = [] := by
  rw [contents, h]
  rfl

theorem length_contents (h : b.Valid) : (b.contents.length : Int) = b.length := by
  have hlength := h.length_nonneg
  simp only [contents, List.length_map, length_interval]
  omega

/-! ## Single requests -/

theorem push_spec (h : b.Valid) (v : Value α) (hroom : 1 ≤ b.size - b.length) :
    ∃ i b', push v b = .ok i b' ∧ b'.Valid ∧ b'.contents = b.contents ++ [v] := by
  have hlength := h.length_nonneg
  simp only [push, get_bind_apply, if_pos hroom, set_bind_apply, pure_apply]
  refine ⟨_, _, rfl, ?_, ?_⟩
  · exact ⟨h.start_pos, by simp only; omega, by simp only; omega, h.size_lt,
      h.offset⟩
  · have hlen : (b.length + 1).toNat = b.length.toNat + 1 := by omega
    have hnext : b.start + (b.length.toNat : Int) = b.start + b.length := by
      omega
    have hone : ∀ i : Int, interval i 1 = [i] := by
      intro i
      simp [interval]
    simp only [contents]
    rw [hlen, interval_add, List.map_append, hnext, hone]
    congr 1
    · apply List.map_congr_left
      intro x hx
      rw [mem_interval] at hx
      exact assign_of_ne (h.offset_ne (by omega) (by omega)) v
    · simp only [List.map_cons, List.map_nil]
      exact congrArg (fun w => [w]) (assign_self _ _ _)

theorem pull_spec (h : 1 ≤ b.length) :
    ∃ v b', pull b = .ok v b' ∧ b.contents.head? = some v := by
  simp only [pull, get_bind_apply, if_pos h, set_bind_apply, pure_apply]
  refine ⟨_, _, rfl, ?_⟩
  have hlen : b.length.toNat = 1 + (b.length - 1).toNat := by omega
  rw [contents, hlen, interval_add]
  simp [interval]

/-- The buffer has room for `n` more values, or its growth does not have to
move any. -/
def GrowsInPlace (b : VBuffer α) (n : Int) : Prop :=
  n ≤ b.size - b.length ∨
    (max (b.size * 2) (b.length + n) < 2 ^ 32 ∧
      (b.length = 0 ∨ b.start + b.length ≤ b.size))

instance (b : VBuffer α) (n : Int) : Decidable (b.GrowsInPlace n) :=
  inferInstanceAs (Decidable (_ ∨ _))

theorem checksize_spec (h : b.Valid) {n : Int} (hgrow : b.GrowsInPlace n) :
    ∃ b', checksize n b = .ok () b' ∧ b'.Valid ∧ b'.contents = b.contents ∧
      b'.length = b.length ∧ n ≤ b'.size - b'.length := by
  have hstart := h.start_pos
  have hlength := h.length_nonneg
  have hle := h.length_le
  by_cases hroom : n ≤ b.size - b.length
  · refine ⟨b, ?_, h, rfl, rfl, hroom⟩
    simp only [checksize, get_bind_apply, if_pos hroom, pure_apply]
  · obtain ⟨hnew, hplace⟩ := hgrow.resolve_left hroom
    have hn1 : (segmentsT b.start b.length b.size).n1 =
        min b.length (b.size - b.start) := rfl
    have hn2 : (segmentsT b.start b.length b.size).n2 =
        max 0 (b.length - (b.size - b.start)) := rfl
    simp only [checksize, get_bind_apply, if_neg hroom]
    by_cases hempty : b.length = 0
    · rw [if_neg (by rw [hn1, hn2]; omega)]
      refine ⟨_, rfl, ?_, ?_, rfl, by simp only; omega⟩
      · exact ⟨by simp only [hn1]; omega, h.length_nonneg, by simp only; omega,
          hnew, Or.inl rfl⟩
      · rw [contents_eq_nil hempty]
        exact contents_eq_nil hempty
    · have hfit := hplace.resolve_left hempty
      have hnone : (segmentsT b.start b.length b.size).n2.toNat = 0 := by
        rw [hn2]
        omega
      rw [if_pos (by rw [hn1, hn2]; omega), hnone]
      let b' : VBuffer α :=
        { b with
          size := max (b.size * 2) (b.length + n)
          offsetMethod :=
            .func (RingBuffer.offsetFunc (max (b.size * 2) (b.length + n))) }
      have hvalid : b'.Valid :=
        ⟨hstart, hlength, by simp only [b']; omega, hnew, Or.inl rfl⟩
      have hcontents : b'.contents = b.contents := by
        apply List.map_congr_left
        intro x hx
        have hx : b.start ≤ x ∧ x < b.start + b.length.toNat :=
          mem_interval.mp hx
        rw [h.offset_self (by omega) (by omega),
          hvalid.offset_self (by omega) (by simp only [b']; omega)]
      exact ⟨b', rfl, hvalid, hcontents, rfl, by simp only [b']; omega⟩

/-! ## Runs -/

inductive Request (α : Type)
  | push (v : Value α)
  | pull
  | checksize (n : Int)
  deriving DecidableEq, Repr

/-- A buffer together with the values that have been pushed and not pulled
yet. -/
structure Tracked (α : Type) where
  buffer : VBuffer α
  queue : List (Value α)
  /-- whether a value has been pulled -/
  pulled : Bool

/-- The buffer and the queue after a request. -/
def Tracked.serve (s : Tracked α) : Request α → Tracked α
  | .push v =>
      match VBuffer.push v s.buffer with
      | .ok _ b => { s with buffer := b, queue := s.queue ++ [v] }
      | .error _ b => { s with buffer := b }
  | .pull =>
      match VBuffer.pull s.buffer with
      | .ok _ b => ⟨b, s.queue.tail, true⟩
      | .error _ b => { s with buffer := b }
  | .checksize n => { s with buffer := finalState (VBuffer.checksize n) s.buffer }

/-- The request is served as the queue demands: a push fails only when the
buffer is full; a pull returns the first value, or fails if there is none;
`checksize` keeps the values and makes room. -/
def Tracked.ServesQueue (s : Tracked α) : Request α → Prop
  | .push v =>
      Ends (VBuffer.push v) s.buffer (fun _ _ => True)
        fun _ => (s.queue.length : Int) = s.buffer.size
  | .pull =>
      Ends VBuffer.pull s.buffer (fun v _ => s.queue.head? = some v)
        fun _ => s.queue = []
  | .checksize n =>
      (finalState (VBuffer.checksize n) s.buffer).contents = s.queue ∧
        n ≤ (finalState (VBuffer.checksize n) s.buffer).size - s.queue.length

/-- No value has been pulled, and growing does not have to move any. -/
def Tracked.Allowed (s : Tracked α) : Request α → Prop
  | .push _ => s.pulled = false
  | .pull => s.pulled = false
  | .checksize n => s.pulled = false ∧ s.buffer.GrowsInPlace n

instance [DecidableEq α] (s : Tracked α) : ∀ r, Decidable (s.ServesQueue r)
  | .push v => inferInstanceAs (Decidable (Ends (VBuffer.push v) _ _ _))
  | .pull => inferInstanceAs (Decidable (Ends VBuffer.pull _ _ _))
  | .checksize _ => inferInstanceAs (Decidable (_ ∧ _))

instance (s : Tracked α) : ∀ r, Decidable (s.Allowed r)
  | .push _ => inferInstanceAs (Decidable (s.pulled = false))
  | .pull => inferInstanceAs (Decidable (s.pulled = false))
  | .checksize _ => inferInstanceAs (Decidable (_ ∧ _))

/-- Until a value has been pulled, the buffer holds the queue. -/
def Tracked.InStep (s : Tracked α) : Prop :=
  s.pulled = false → s.buffer.Valid ∧ s.buffer.contents = s.queue

theorem Tracked.serve_push {s : Tracked α} (h : s.InStep)
    (hnew : s.pulled = false) (v : Value α) :
    (s.serve (.push v)).InStep ∧ s.ServesQueue (.push v) := by
  obtain ⟨hvalid, hqueue⟩ := h hnew
  by_cases hroom : 1 ≤ s.buffer.size - s.buffer.length
  · obtain ⟨i, b', hok, hvalid', hcontents⟩ := push_spec hvalid v hroom
    refine ⟨fun _ => ?_, Ends.of_ok hok trivial⟩
    simp only [serve, hok]
    exact ⟨hvalid', by rw [hcontents, hqueue]⟩
  · have herror : VBuffer.push v s.buffer = .error .assertionFailed s.buffer := by
      simp only [VBuffer.push, get_bind_apply, if_neg hroom, throw_apply]
    refine ⟨fun _ => ?_, Ends.of_error herror ?_⟩
    · simp only [serve, herror]
      exact ⟨hvalid, hqueue⟩
    · have hle := hvalid.length_le
      rw [← hqueue, length_contents hvalid]
      omega

theorem Tracked.serve_pull {s : Tracked α} (h : s.InStep)
    (hnew : s.pulled = false) :
    (s.serve .pull).InStep ∧ s.ServesQueue .pull := by
  obtain ⟨hvalid, hqueue⟩ := h hnew
  by_cases hused : 1 ≤ s.buffer.length
  · obtain ⟨v, b', hok, hhead⟩ := pull_spec hused
    constructor
    · intro hpulled
      simp only [serve, hok, Bool.true_eq_false] at hpulled
    · refine Ends.of_ok hok ?_
      rw [← hqueue, hhead]
  · have herror : VBuffer.pull s.buffer = .error .assertionFailed s.buffer := by
      simp only [VBuffer.pull, get_bind_apply, if_neg hused, throw_apply]
    constructor
    · intro _
      simp only [serve, herror]
      exact ⟨hvalid, hqueue⟩
    · refine Ends.of_error herror ?_
      rw [← hqueue]
      have hlength := hvalid.length_nonneg
      exact contents_eq_nil (by omega)

theorem Tracked.serve_checksize {s : Tracked α} (h : s.InStep)
    (hnew : s.pulled = false) {n : Int} (hgrow : s.buffer.GrowsInPlace n) :
    (s.serve (.checksize n)).InStep ∧ s.ServesQueue (.checksize n) := by
  obtain ⟨hvalid, hqueue⟩ := h hnew
  obtain ⟨b', hok, hvalid', hcontents, hlen, hroom⟩ :=
    VBuffer.checksize_spec hvalid hgrow
  have hfinal : finalState (VBuffer.checksize n) s.buffer = b' :=
    finalState_of_ok hok
  constructor
  · intro _
    simp only [serve, hfinal]
    exact ⟨hvalid', by rw [hcontents, hqueue]⟩
  · simp only [ServesQueue, hfinal]
    refine ⟨by rw [hcontents, hqueue], ?_⟩
    rw [← hqueue, length_contents hvalid, ← hlen]
    exact hroom

theorem Tracked.serve_spec {s : Tracked α} {r : Request α} (h : s.InStep)
    (hallowed : s.Allowed r) : (s.serve r).InStep ∧ s.ServesQueue r := by
  cases r with
  | push v => exact serve_push h hallowed v
  | pull => exact serve_pull h hallowed
  | checksize n => exact serve_checksize h hallowed.1 hallowed.2

/-- In every run in which no request follows a successful pull and no growth
has to move values, the buffer is a queue. -/
theorem serves_queue (h : b.Valid) {requests : List (Request α)}
    (hall : AllAllowed Tracked.serve Tracked.Allowed requests
      ⟨b, b.contents, false⟩) :
    AllAllowed Tracked.serve Tracked.ServesQueue requests
      ⟨b, b.contents, false⟩ :=
  have hinit : Tracked.InStep ⟨b, b.contents, false⟩ := fun _ => ⟨h, rfl⟩
  AllAllowed.of_invariant
    (fun _ _ hs hr => (Tracked.serve_spec hs hr).1)
    (fun _ _ hs hr => (Tracked.serve_spec hs hr).2) hinit hall

theorem valid_new {size : Int} (hsize : 0 ≤ size) (hlt : size < 2 ^ 32)
    (data : Int → Value α) : (new none none (some size) data).Valid :=
  ⟨le_refl 1, le_refl 0, hsize, hlt, Or.inr ⟨rfl, rfl⟩⟩

/-- An empty buffer of a given size. -/
def empty (size : Int) : VBuffer ℕ := new none none (some size) fun _ => .nil

theorem serves_queue_empty :
    AllAllowed Tracked.serve Tracked.ServesQueue
      [.push (.other 1), .push (.other 2), .checksize 5, .push (.other 3), .pull]
      ⟨empty 4, (empty 4).contents, false⟩ :=
  serves_queue (valid_new (by decide) (by decide) _) (by decide)

/-- The second pull does not return the second value, and a full buffer that
grows does not keep its values. -/
theorem serves_queue_fails :
    ¬ AllAllowed Tracked.serve Tracked.ServesQueue
        [.push (.other 1), .push (.other 2), .pull, .pull]
        ⟨empty 4, (empty 4).contents, false⟩ ∧
      ¬ AllAllowed Tracked.serve Tracked.ServesQueue
        [.push (.other 1), .push (.other 2), .checksize 1]
        ⟨empty 2, (empty 2).contents, false⟩ := by
  decide

end VBuffer

end LuaAttic.RingBuffer
