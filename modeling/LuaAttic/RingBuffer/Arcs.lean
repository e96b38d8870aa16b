import LuaAttic.RingBuffer.Algorithm

/-!
# The arcs of a ring

A position of the circle is normalized to a slot from one to the size.  The arcs of a
segment visit its slots step by step, in the direction of the segment; the arcs of the
free segment have the other slots, and what is pushed or pulled is taken from the free
slots or from the used ones.
-/

namespace LuaAttic.RingBuffer

open LuaAttic.Support LuaAttic.Lua

/-- The positions of an arc, step by step; a negative length goes backwards. -/
def arc (i n : Int) : List Int := (List.range n.natAbs).map fun k : ℕ => i + n.sign * (k : Int)

/-- The slots of a segment of the ring, step by step. -/
def ringArc (size start length : Int) : List Int := (arc start length).map (normalize · size)

/-- The slots that two arcs visit. -/
def Segs.slots (s : Segs) : List Int := arc s.i1 s.n1 ++ arc s.i2 s.n2

variable {size start i j m n : Int}

/-! ## Arcs -/

@[simp] theorem arc_zero (i : Int) : arc i 0 = [] := rfl

theorem arc_natCast (i : Int) (n : ℕ) : arc i n = interval i n := by
  rcases Nat.eq_zero_or_pos n with rfl | hpos
  · rfl
  · have hsign : ((n : ℕ) : Int).sign = 1 := Int.sign_eq_one_of_pos (by omega)
    simp only [arc, interval, hsign, one_mul, Int.natAbs_natCast]

theorem arc_neg_natCast (i : Int) (n : ℕ) :
    arc i (-n) = (List.range n).map fun k : ℕ => i - (k : Int) := by
  rcases Nat.eq_zero_or_pos n with rfl | hpos
  · rfl
  · have hsign : (-(n : Int)).sign = -1 := Int.sign_eq_neg_one_of_neg (by omega)
    simp only [arc, hsign, neg_one_mul, Int.natAbs_neg, Int.natAbs_natCast, ← sub_eq_add_neg]

theorem arc_add_of_nonneg (hm : 0 ≤ m) (hn : 0 ≤ n) (i : Int) :
    arc i (m + n) = arc i m ++ arc (i + m) n := by
  obtain ⟨m, rfl⟩ := Int.eq_ofNat_of_zero_le hm
  obtain ⟨n, rfl⟩ := Int.eq_ofNat_of_zero_le hn
  have hadd := arc_natCast i (m + n)
  push_cast at hadd
  rw [hadd, interval_add, arc_natCast, arc_natCast]

theorem arc_add_of_nonpos (hm : m ≤ 0) (hn : n ≤ 0) (i : Int) :
    arc i (m + n) = arc i m ++ arc (i + m) n := by
  obtain ⟨a, rfl⟩ := Int.exists_eq_neg_ofNat hm
  obtain ⟨b, rfl⟩ := Int.exists_eq_neg_ofNat hn
  have hadd := arc_neg_natCast i (a + b)
  push_cast at hadd
  rw [← neg_add_rev, add_comm (b : Int), hadd, arc_neg_natCast, arc_neg_natCast, List.range_add,
    List.map_append, List.map_map]
  refine congrArg _ (List.map_congr_left fun k _ => ?_)
  simp only [Function.comp_apply]
  push_cast
  omega

theorem mem_arc_of_nonneg (hn : 0 ≤ n) : j ∈ arc i n ↔ i ≤ j ∧ j < i + n := by
  obtain ⟨n, rfl⟩ := Int.eq_ofNat_of_zero_le hn
  rw [arc_natCast, mem_interval]

theorem mem_arc_of_nonpos (hn : n ≤ 0) : j ∈ arc i n ↔ i + n < j ∧ j ≤ i := by
  obtain ⟨n, rfl⟩ := Int.exists_eq_neg_ofNat hn
  rw [arc_neg_natCast, List.mem_map]
  constructor
  · rintro ⟨k, hk, rfl⟩
    rw [List.mem_range] at hk
    omega
  · intro h
    exact ⟨(i - j).toNat, List.mem_range.mpr (by omega), by omega⟩

/-! ## Arcs of the ring -/

theorem normalize_of_inRing (h : 1 ≤ i ∧ i ≤ size) : normalize i size = i := by
  rw [normalize, Int.emod_eq_of_lt (by omega) (by omega), Int.sub_add_cancel]

theorem normalize_emod_size (i size : Int) : normalize i size % size = i % size := by
  have h : (normalize i size - 1 + 1) % size = (i - 1 + 1) % size :=
    Int.ModEq.add_right 1 (normalize_emod i size)
  rwa [Int.sub_add_cancel, Int.sub_add_cancel] at h

theorem normalize_congr (h : i % size = j % size) : normalize i size = normalize j size :=
  congrArg (· + 1) (Int.ModEq.sub_right 1 h)

/-- Only the slot where a segment starts matters. -/
theorem ringArc_congr (h : i % size = j % size) (n : Int) :
    ringArc size i n = ringArc size j n := by
  rw [ringArc, ringArc, arc, arc, List.map_map, List.map_map]
  exact List.map_congr_left fun k _ => normalize_congr (Int.ModEq.add_right (n.sign * k) h)

/-- An arc that does not leave the ring. -/
theorem ringArc_of_inRing (h : ∀ j ∈ arc i n, 1 ≤ j ∧ j ≤ size) :
    ringArc size i n = arc i n := by
  rw [ringArc]
  conv_rhs => rw [← List.map_id (arc i n)]
  exact List.map_congr_left fun j hj => normalize_of_inRing (h j hj)

theorem bounds_of_mem_ringArc (hsize : 1 ≤ size) (hj : j ∈ ringArc size start n) :
    1 ≤ j ∧ j ≤ size := by
  obtain ⟨k, -, rfl⟩ := List.mem_map.mp hj
  exact normalize_bounds hsize k

/-- The slots of a segment by their distance from its start. -/
theorem mem_ringArc_of_nonneg (hsize : 1 ≤ size) (hn : 0 ≤ n) (hle : n ≤ size) :
    i ∈ ringArc size start n ↔ (1 ≤ i ∧ i ≤ size) ∧ (i - start) % size < n := by
  constructor
  · intro hi
    refine ⟨bounds_of_mem_ringArc hsize hi, ?_⟩
    obtain ⟨k, hk, rfl⟩ := List.mem_map.mp hi
    rw [mem_arc_of_nonneg hn] at hk
    have hdist : (normalize k size - start) % size = (k - start) % size :=
      Int.ModEq.sub_right start (normalize_emod_size k size)
    rw [hdist, Int.emod_eq_of_lt (by omega) (by omega)]
    omega
  · rintro ⟨hring, hdist⟩
    have hbounds := emod_bounds hsize (i - start)
    refine List.mem_map.mpr ⟨start + (i - start) % size, ?_, ?_⟩
    · rw [mem_arc_of_nonneg hn]
      omega
    · rw [← normalize_of_inRing hring]
      refine normalize_congr ?_
      rw [Int.add_emod_emod, add_sub_cancel, normalize_of_inRing hring]

theorem nodup_ringArc (start : Int) (hle : (n.natAbs : Int) ≤ size) :
    (ringArc size start n).Nodup := by
  rw [ringArc, arc, List.map_map]
  refine List.Nodup.map_on (fun j hj k hk hslot => ?_) List.nodup_range
  rw [List.mem_range] at hj hk
  -- there is a step, so the sign is not zero
  have hstep : n.sign * n.sign = 1 := by
    rcases lt_trichotomy n 0 with hneg | rfl | hpos
    · rw [Int.sign_eq_neg_one_of_neg hneg]
      rfl
    · simp at hj
    · rw [Int.sign_eq_one_of_pos hpos]
      rfl
  have hmod : (start + n.sign * j) % size = (start + n.sign * k) % size := by
    have hslot' : normalize (start + n.sign * j) size = normalize (start + n.sign * k) size :=
      hslot
    rw [← normalize_emod_size, hslot', normalize_emod_size]
  have hsteps : (n.sign * (n.sign * j)) % size = (n.sign * (n.sign * k)) % size :=
    Int.ModEq.mul_left n.sign (Int.ModEq.add_left_cancel' start hmod)
  rw [← mul_assoc, ← mul_assoc, hstep, one_mul, one_mul,
    Int.emod_eq_of_lt (by omega) (by omega), Int.emod_eq_of_lt (by omega) (by omega)] at hsteps
  exact_mod_cast hsteps

theorem ringArc_add_of_nonneg (hm : 0 ≤ m) (hn : 0 ≤ n) (start : Int) :
    ringArc size start (m + n) = ringArc size start m ++ ringArc size (start + m) n := by
  rw [ringArc, arc_add_of_nonneg hm hn, List.map_append]
  rfl

theorem ringArc_add_of_nonpos (hm : m ≤ 0) (hn : n ≤ 0) (start : Int) :
    ringArc size start (m + n) = ringArc size start m ++ ringArc size (start + m) n := by
  rw [ringArc, arc_add_of_nonpos hm hn, List.map_append]
  rfl

/-- What is visited backwards from before a slot ends there when it is visited
forwards. -/
theorem mem_ringArc_backwards (hn : n ≤ 0) (start : Int) :
    i ∈ ringArc size (start - 1) n ↔ i ∈ ringArc size (start + n) (-n) := by
  simp only [ringArc, List.mem_map, mem_arc_of_nonpos hn,
    mem_arc_of_nonneg (neg_nonneg.mpr hn)]
  constructor
  · rintro ⟨j, hj, rfl⟩
    exact ⟨j, by omega, rfl⟩
  · rintro ⟨j, hj, rfl⟩
    exact ⟨j, by omega, rfl⟩

/-- A segment that fits in the ring has the slots of its two parts, which have none in
common. -/
theorem ringArc_parts (hm : 0 ≤ m) (hn : 0 ≤ n) (hle : m + n ≤ size) (start i : Int) :
    (i ∈ ringArc size start (m + n) ↔
        i ∈ ringArc size start m ∨ i ∈ ringArc size (start + m) n) ∧
      ¬ (i ∈ ringArc size start m ∧ i ∈ ringArc size (start + m) n) := by
  have hnodup := nodup_ringArc start (show ((m + n).natAbs : Int) ≤ size by omega)
  rw [ringArc_add_of_nonneg hm hn] at hnodup ⊢
  exact ⟨List.mem_append,
    fun h => List.disjoint_of_nodup_append hnodup h.1 h.2⟩

/-- The whole ring. -/
theorem mem_ringArc_size (hsize : 1 ≤ size) (start : Int) :
    i ∈ ringArc size start size ↔ 1 ≤ i ∧ i ≤ size := by
  have hbounds := emod_bounds hsize (i - start)
  rw [mem_ringArc_of_nonneg hsize (by omega) le_rfl]
  exact and_iff_left hbounds.2

/-! ## Segments -/

theorem segments_slots (hsize : 1 ≤ size) (start : Int) {length : Int}
    (hle : (length.natAbs : Int) ≤ size) :
    ∃ s, segments start length size = .ok s ∧ s.slots = ringArc size start length := by
  obtain ⟨hfirst, hlast⟩ := normalize_bounds hsize start
  have hmod := normalize_emod_size start size
  rw [← ringArc_congr hmod]
  simp only [segments, if_pos hle]
  set i := normalize start size with hi
  refine ⟨_, rfl, ?_⟩
  split_ifs with hpos
  · -- forwards, up to the last slot
    set a := min length (size + 1 - i) with ha
    set b := max 0 (length - (size + 1 - i)) with hb
    have hlength : length = a + b := by omega
    have hsecond : ringArc size (i + a) b = arc 1 b := by
      by_cases hzero : b = 0
      · rw [hzero]
        rfl
      · have hturn : (i + a) % size = 1 % size := by
          have hend : i + a = 1 + size := by omega
          rw [hend, Int.add_emod_right]
        rw [ringArc_congr hturn]
        refine ringArc_of_inRing fun j hj => ?_
        rw [mem_arc_of_nonneg (by omega)] at hj
        omega
    rw [hlength, ringArc_add_of_nonneg (by omega) (by omega), hsecond, ringArc_of_inRing]
    · rfl
    · intro j hj
      rw [mem_arc_of_nonneg (by omega)] at hj
      omega
  · -- backwards, down to the first slot
    set a := max length (-i) with ha
    set b := min 0 (length - -i) with hb
    have hlength : length = a + b := by omega
    have hsecond : ringArc size (i + a) b = arc size b := by
      by_cases hzero : b = 0
      · rw [hzero]
        rfl
      · have hturn : (i + a) % size = size % size := by
          have hend : i + a = 0 := by omega
          rw [hend, Int.emod_self, Int.zero_emod]
        rw [ringArc_congr hturn]
        refine ringArc_of_inRing fun j hj => ?_
        rw [mem_arc_of_nonpos (by omega)] at hj
        omega
    rw [hlength, ringArc_add_of_nonpos (by omega) (by omega), hsecond, ringArc_of_inRing]
    · rfl
    · intro j hj
      rw [mem_arc_of_nonpos (by omega)] at hj
      omega

/-- The arcs visit the slots of a segment step by step, none of them twice. -/
structure Sweeps (size start length : Int) (s : Segs) : Prop where
  visits : s.slots = ringArc size start length
  inRing : ∀ i ∈ s.slots, 1 ≤ i ∧ i ≤ size
  nodup : s.slots.Nodup

theorem segments_sweeps (hsize : 1 ≤ size) (start : Int) {length : Int}
    (hle : (length.natAbs : Int) ≤ size) :
    ∃ s, segments start length size = .ok s ∧ Sweeps size start length s := by
  obtain ⟨s, hs, hslots⟩ := segments_slots hsize start hle
  refine ⟨s, hs, hslots, fun i hi => ?_, ?_⟩
  · rw [hslots] at hi
    exact bounds_of_mem_ringArc hsize hi
  · rw [hslots]
    exact nodup_ringArc start hle

/-- What is left of the ring behind a segment. -/
theorem mem_ringArc_rest (hsize : 1 ≤ size) (hm : 0 ≤ m) (hn : 0 ≤ n) (hfill : m + n = size) :
    i ∈ ringArc size (start + m) n ↔ (1 ≤ i ∧ i ≤ size) ∧ i ∉ ringArc size start m := by
  obtain ⟨hall, hapart⟩ := ringArc_parts hm hn hfill.le start i
  rw [hfill, mem_ringArc_size hsize] at hall
  tauto

/-- The arcs of the free segment have the slots that are not in the segment. -/
theorem freeSegments_slots (hsize : 1 ≤ size) (start : Int) {length : Int} (hne : length ≠ 0)
    (hle : (length.natAbs : Int) ≤ size) :
    ∃ s, freeSegments start length size = .ok s ∧
      ∀ i, i ∈ s.slots ↔ (1 ≤ i ∧ i ≤ size) ∧ i ∉ ringArc size start length := by
  rw [freeSegments]
  rcases lt_or_gt_of_ne hne with hneg | hpos
  · rw [if_neg (by omega), neg_one_mul]
    obtain ⟨s, hs, hslots⟩ := segments_slots hsize (start + length)
      (show ((-size - length).natAbs : Int) ≤ size by omega)
    refine ⟨s, hs, fun i => ?_⟩
    -- both segments forwards, the free one starting behind the used one
    have hused : i ∈ ringArc size start length ↔
        i ∈ ringArc size (start + 1 + length) (-length) := by
      rw [← mem_ringArc_backwards hneg.le, add_sub_cancel_right]
    have hfree : i ∈ ringArc size (start + length) (-size - length) ↔
        i ∈ ringArc size (start + 1 + length + -length) (size + length) := by
      have hback : start + length = start + 1 + length - 1 := by omega
      have hlen : -(-size - length) = size + length := by omega
      have hturn : (start + 1 + length + (-size - length)) % size =
          (start + 1 + length + -length) % size := by
        have hshift : start + 1 + length + (-size - length) =
            start + 1 + length + -length - size := by omega
        rw [hshift, Int.sub_emod_right]
      rw [hback, mem_ringArc_backwards (by omega), hlen, ringArc_congr hturn]
    rw [hslots, hfree, hused]
    exact mem_ringArc_rest hsize (by omega) (by omega) (by omega)
  · rw [if_pos hpos, one_mul]
    obtain ⟨s, hs, hslots⟩ := segments_slots hsize (start + length)
      (show ((size - length).natAbs : Int) ≤ size by omega)
    refine ⟨s, hs, fun i => ?_⟩
    rw [hslots]
    exact mem_ringArc_rest hsize hpos.le (by omega) (by omega)

/-! ## Transfers -/

/-- The arcs are free before, and used afterwards. -/
structure Transfer.Adds (size start length : Int) (t : Transfer) : Prop where
  disjoint : ∀ i ∈ t.segs.slots, i ∉ ringArc size start length
  used : ∀ i, i ∈ ringArc size t.start t.length ↔
    i ∈ ringArc size start length ∨ i ∈ t.segs.slots

/-- The arcs are used before, and free afterwards. -/
structure Transfer.Removes (size start length : Int) (t : Transfer) : Prop where
  subset : ∀ i ∈ t.segs.slots, i ∈ ringArc size start length
  used : ∀ i, i ∈ ringArc size t.start t.length ↔
    i ∈ ringArc size start length ∧ i ∉ t.segs.slots

theorem push_adds {length : Int} (hsize : 1 ≤ size) (hlength : 0 ≤ length) (start : Int)
    (hn : (n.natAbs : Int) ≤ size - length) :
    ∃ t, push n start length size = .ok t ∧ t.Adds size start length := by
  rw [push, if_pos hn]
  rcases lt_trichotomy n 0 with hneg | rfl | hpos
  · rw [if_neg (by omega), if_pos hneg]
    obtain ⟨s, hs, hslots⟩ := segments_slots hsize (start - 1)
      (show (n.natAbs : Int) ≤ size by omega)
    have habs : (n.natAbs : Int) = -n := by omega
    simp only [hs, habs]
    refine ⟨_, rfl, ?_⟩
    have harcs : ∀ i, i ∈ s.slots ↔ i ∈ ringArc size (start + n) (-n) := by
      intro i
      rw [hslots, mem_ringArc_backwards hneg.le]
    have hused : ringArc size (normalize (start + n) size) (length + -n) =
        ringArc size (start + n) (-n + length) := by
      rw [ringArc_congr (normalize_emod_size _ size), add_comm length]
    have hparts := ringArc_parts (neg_nonneg.mpr hneg.le) hlength
      (show -n + length ≤ size by omega) (start + n)
    simp only [add_neg_cancel_right] at hparts
    refine ⟨fun i hi hmem => ?_, fun i => ?_⟩
    · exact (hparts i).2 ⟨(harcs i).mp hi, hmem⟩
    · rw [hused, (hparts i).1, harcs, or_comm]
  · rw [if_neg (by omega), if_neg (by omega)]
    exact ⟨_, rfl, by simp [Segs.slots], by simp [Segs.slots]⟩
  · rw [if_pos hpos]
    obtain ⟨s, hs, hslots⟩ := segments_slots hsize (start + length)
      (show (n.natAbs : Int) ≤ size by omega)
    have habs : (n.natAbs : Int) = n := by omega
    simp only [hs, habs]
    refine ⟨_, rfl, ?_⟩
    have hparts := ringArc_parts hlength hpos.le (show length + n ≤ size by omega) start
    refine ⟨fun i hi hmem => ?_, fun i => ?_⟩
    · rw [hslots] at hi
      exact (hparts i).2 ⟨hmem, hi⟩
    · rw [hslots]
      exact (hparts i).1

theorem pull_removes {length : Int} (hsize : 1 ≤ size) (hfull : length ≤ size) (start : Int)
    (hn : (n.natAbs : Int) ≤ length) :
    ∃ t, pull n start length size = .ok t ∧ t.Removes size start length := by
  rw [pull, if_pos hn]
  rcases lt_trichotomy n 0 with hneg | rfl | hpos
  · rw [if_neg (by omega), if_pos hneg]
    obtain ⟨s, hs, hslots⟩ := segments_slots hsize (start + length - 1)
      (show (n.natAbs : Int) ≤ size by omega)
    have habs : (n.natAbs : Int) = -n := by omega
    simp only [hs, habs]
    refine ⟨_, rfl, ?_⟩
    have harcs : ∀ i, i ∈ s.slots ↔ i ∈ ringArc size (start + (length - -n)) (-n) := by
      intro i
      have hback : start + (length - -n) = start + length + n := by omega
      rw [hslots, mem_ringArc_backwards hneg.le, hback]
    have hparts := ringArc_parts (show 0 ≤ length - -n by omega) (neg_nonneg.mpr hneg.le)
      (show length - -n + -n ≤ size by omega) start
    simp only [sub_add_cancel] at hparts
    refine ⟨fun i hi => ?_, fun i => ?_⟩
    · exact (hparts i).1.mpr (Or.inr ((harcs i).mp hi))
    · obtain ⟨hall, hapart⟩ := hparts i
      rw [harcs, hall]
      tauto
  · rw [if_neg (by omega), if_neg (by omega)]
    exact ⟨_, rfl, by simp [Segs.slots], by simp [Segs.slots]⟩
  · rw [if_pos hpos]
    obtain ⟨s, hs, hslots⟩ := segments_slots hsize start (show (n.natAbs : Int) ≤ size by omega)
    have habs : (n.natAbs : Int) = n := by omega
    simp only [hs, habs]
    refine ⟨_, rfl, ?_⟩
    have hused : ringArc size (normalize (start + n) size) (length - n) =
        ringArc size (start + n) (length - n) :=
      ringArc_congr (normalize_emod_size _ size) _
    have hparts := ringArc_parts hpos.le (show 0 ≤ length - n by omega)
      (show n + (length - n) ≤ size by omega) start
    simp only [add_sub_cancel] at hparts
    refine ⟨fun i hi => ?_, fun i => ?_⟩
    · rw [hslots] at hi
      exact (hparts i).1.mpr (Or.inl hi)
    · obtain ⟨hall, hapart⟩ := hparts i
      rw [hused, hslots, hall]
      tauto

/-- Segments and free segments part the ring; what is pushed or pulled becomes used or
free. -/
theorem ring_segments (hsize : 1 ≤ size) (start : Int) :
    (∀ length : Int, length ≠ 0 → (length.natAbs : Int) ≤ size → ∃ s f,
      segments start length size = .ok s ∧ Sweeps size start length s ∧
      freeSegments start length size = .ok f ∧
      ∀ i, i ∈ f.slots ↔ (1 ≤ i ∧ i ≤ size) ∧ i ∉ s.slots) ∧
    ∀ length, 0 ≤ length → length ≤ size → ∀ n : Int,
      ((n.natAbs : Int) ≤ size - length →
        ∃ t, push n start length size = .ok t ∧ t.Adds size start length) ∧
      ((n.natAbs : Int) ≤ length →
        ∃ t, pull n start length size = .ok t ∧ t.Removes size start length) := by
  refine ⟨fun length hne hle => ?_, fun length hlength hfull n =>
    ⟨push_adds hsize hlength start, pull_removes hsize hfull start⟩⟩
  obtain ⟨s, hs, hsweeps⟩ := segments_sweeps hsize start hle
  obtain ⟨f, hf, hfree⟩ := freeSegments_slots hsize start hne hle
  exact ⟨s, f, hs, hsweeps, hf, by rwa [hsweeps.visits]⟩

/-- Four slots backwards from the second one of ten, and two slots pushed before it. -/
theorem ring_segments_ten :
    (∃ s f, segments 2 (-4) 10 = .ok s ∧ Sweeps 10 2 (-4) s ∧ freeSegments 2 (-4) 10 = .ok f ∧
      ∀ i, i ∈ f.slots ↔ (1 ≤ i ∧ i ≤ 10) ∧ i ∉ s.slots) ∧
    (∃ t, push (-2) 2 3 10 = .ok t ∧ t.Adds 10 2 3) ∧
    ∃ t, pull (-2) 9 4 10 = .ok t ∧ t.Removes 10 9 4 :=
  ⟨(ring_segments (by decide) 2).1 (-4) (by decide) (by decide),
    ((ring_segments (by decide) 2).2 3 (by decide) (by decide) (-2)).1 (by decide),
    ((ring_segments (by decide) 9).2 4 (by decide) (by decide) (-2)).2 (by decide)⟩

end LuaAttic.RingBuffer
