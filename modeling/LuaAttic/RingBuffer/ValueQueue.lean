import LuaAttic.RingBuffer.Algorithm

/-!
# A value buffer as a double-ended queue

A push or a pull transfers one slot, which is the one after the tail or before
the head.  When a full buffer grows, its segment is one of the enlarged ring
with the same values.
-/

namespace LuaAttic.RingBuffer

open LuaAttic.Support LuaAttic.Lua

variable {α : Type}

/-! ## Single slots -/

section Slots

variable {start size : Int}

theorem segments_one (hsize : 1 ≤ size) (start : Int) :
    segments start 1 size = .ok ⟨normalize start size, 1, 1, 0⟩ := by
  obtain ⟨hfirst, hlast⟩ := normalize_bounds hsize start
  have h1 : min 1 (size + 1 - normalize start size) = 1 := by omega
  have h2 : max 0 (1 - (size + 1 - normalize start size)) = 0 := by omega
  simp only [segments]
  rw [if_pos (by simpa using hsize), if_pos (by omega), h1, h2]

theorem segments_neg_one (hsize : 1 ≤ size) (start : Int) :
    segments start (-1) size = .ok ⟨normalize start size, -1, size, 0⟩ := by
  obtain ⟨hfirst, hlast⟩ := normalize_bounds hsize start
  have h1 : max (-1) (-normalize start size) = -1 := by omega
  have h2 : min 0 (-1 - -normalize start size) = 0 := by omega
  simp only [segments]
  rw [if_pos (by simpa using hsize), if_neg (by omega), h1, h2]

@[simp] theorem ringSlots_one (size start : Int) :
    ringSlots size start 1 = [start % size] := by
  simp [ringSlots]

theorem normalize_sub_one (i size : Int) :
    normalize i size - 1 = (i - 1) % size :=
  Int.add_sub_cancel _ _

end Slots

/-! ## Tables -/

section Tables

variable {t : Int → Value α} {slots : List Int}

theorem assign_self (t : Int → Value α) (i : Int) (val : Value α) :
    assign t i val i = val := if_pos rfl

theorem assign_of_ne {i j : Int} (h : j ≠ i) (val : Value α) :
    assign t i val j = t j := if_neg h

theorem map_assign_of_not_mem {i : Int} (h : i - 1 ∉ slots) (val : Value α) :
    slots.map (fun j => assign t i val (j + 1)) =
      slots.map fun j => t (j + 1) := by
  apply List.map_congr_left
  intro j hj
  apply assign_of_ne
  rintro rfl
  exact h (by rwa [Int.add_sub_cancel])

/-- A loop that moves values out of a range into a disjoint one. -/
theorem moveSlots_apply {dst src : Int} {n : ℕ}
    (hdisjoint : dst + n ≤ src ∨ src + n ≤ dst) (j : Int) :
    moveSlots t dst src n j =
      if dst ≤ j ∧ j < dst + n then t (j - dst + src)
      else if src ≤ j ∧ j < src + n then .boolean false
      else t j := by
  induction n generalizing j with
  | zero =>
      rw [if_neg (by omega), if_neg (by omega)]
      rfl
  | succ n ih =>
      have ih := ih (by omega)
      have hstep : moveSlots t dst src (n + 1) =
          assign (assign (moveSlots t dst src n) (dst + n)
            (moveSlots t dst src n (src + n))) (src + n) (.boolean false) := by
        simp only [moveSlots, List.range_succ, List.foldl_append,
          List.foldl_cons, List.foldl_nil]
      have hsrc : moveSlots t dst src n (src + n) = t (src + n) := by
        rw [ih, if_neg (by omega), if_neg (by omega)]
      rw [hstep, hsrc]
      by_cases hlast : j = src + n
      · rw [hlast, assign_self, if_neg (by omega), if_pos (by omega)]
      · rw [assign_of_ne hlast]
        by_cases hnew : j = dst + n
        · have hback : dst + (n : Int) - dst + src = src + n := by omega
          rw [hnew, assign_self, if_pos (by omega), hback]
        · rw [assign_of_ne hnew, ih]
          split_ifs <;> first | rfl | omega

theorem map_moveSlots {dst src : Int} {n : ℕ}
    (hdisjoint : dst + n ≤ src ∨ src + n ≤ dst) :
    (interval (dst - 1) n).map (fun j => moveSlots t dst src n (j + 1)) =
      (interval (src - 1) n).map fun j => t (j + 1) := by
  simp only [interval, List.map_map]
  apply List.map_congr_left
  intro k hk
  rw [List.mem_range] at hk
  have hback : dst - 1 + (k : Int) + 1 - dst + src = src - 1 + k + 1 := by omega
  simp only [Function.comp_apply]
  rw [moveSlots_apply hdisjoint, if_pos (by omega), hback]

theorem map_moveSlots_of_disjoint {dst src : Int} {n : ℕ}
    (hdisjoint : dst + n ≤ src ∨ src + n ≤ dst)
    (hdst : slots.Disjoint (interval (dst - 1) n))
    (hsrc : slots.Disjoint (interval (src - 1) n)) :
    slots.map (fun j => moveSlots t dst src n (j + 1)) =
      slots.map fun j => t (j + 1) := by
  apply List.map_congr_left
  intro j hj
  rw [moveSlots_apply hdisjoint, if_neg, if_neg]
  · intro hin
    exact hsrc hj (mem_interval.mpr (by omega))
  · intro hin
    exact hdst hj (mem_interval.mpr (by omega))

/-- The two arcs of a segment that starts at a slot counted from one. -/
structure IsArcs (size start : Int) (m n : ℕ) : Prop where
  first : 1 ≤ start
  last : start - 1 + m ≤ size
  wrap : n ≠ 0 → start - 1 + m = size
  length : (m : Int) + n ≤ size

section Growing

variable {size newsize start : Int} {m n : ℕ}

/-- Moving the second arc after the first one. -/
theorem map_moveSecond (h : IsArcs size start m n)
    (hnew : size * 2 ≤ newsize) :
    (ringSlots newsize (start - 1) (m + n)).map
        (fun i => moveSlots t (start + m) 1 n (i + 1)) =
      (ringSlots size (start - 1) (m + n)).map fun i => t (i + 1) := by
  obtain ⟨hfirst, hlast, hwrap, hlength⟩ := h
  have hmove : start + m + n ≤ 1 ∨ 1 + (n : Int) ≤ start + m := by omega
  have hdst : (interval (start - 1) m).Disjoint (interval (start + m - 1) n) := by
    intro j h1 h2
    rw [mem_interval] at h1 h2
    omega
  have hsrc : (interval (start - 1) m).Disjoint (interval (1 - 1) n) := by
    intro j h1 h2
    rw [mem_interval] at h1 h2
    omega
  have hslot : start - 1 + (m : Int) = start + m - 1 := by omega
  rw [ringSlots_eq_interval (by omega) (by omega), interval_add, List.map_append,
    ringSlots_arcs (by omega) hlast hwrap (by omega), List.map_append,
    map_moveSlots_of_disjoint hmove hdst hsrc, hslot, map_moveSlots hmove]
  rfl

/-- Moving the first arc to the end of the enlarged ring. -/
theorem map_moveFirst (h : IsArcs size start m n) (hnew : size * 2 ≤ newsize)
    {o : Int} (ho : o - 1 + m = newsize) :
    (ringSlots newsize (o - 1) (m + n)).map
        (fun i => moveSlots t o start m (i + 1)) =
      (ringSlots size (start - 1) (m + n)).map fun i => t (i + 1) := by
  obtain ⟨hfirst, hlast, hwrap, hlength⟩ := h
  have hmove : o + m ≤ start ∨ start + m ≤ o := by omega
  have hdst : (interval 0 n).Disjoint (interval (o - 1) m) := by
    intro j h1 h2
    rw [mem_interval] at h1 h2
    omega
  have hsrc : (interval 0 n).Disjoint (interval (start - 1) m) := by
    intro j h1 h2
    rw [mem_interval] at h1 h2
    omega
  rw [ringSlots_wrap (by omega) ho (by omega), List.map_append,
    ringSlots_arcs (by omega) hlast hwrap (by omega), List.map_append,
    map_moveSlots_of_disjoint hmove hdst hsrc, map_moveSlots hmove]

end Growing

end Tables

namespace ValueBuffer

variable {b : ValueBuffer α}

/-! ## Growing -/

/-- The segment starts in the ring. -/
def InRing (b : ValueBuffer α) : Prop := 1 ≤ b.start ∧ b.start ≤ b.size

instance (b : ValueBuffer α) : Decidable b.InRing :=
  inferInstanceAs (Decidable (_ ∧ _))

theorem segments_of_inRing (hring : b.InRing) :
    ∃ (m n : ℕ) (i2 : Int),
      segments b.start b.length b.size = .ok ⟨b.start, m, i2, n⟩ ∧
        b.length.toNat = m + n ∧ IsArcs b.size b.start m n := by
  obtain ⟨hfirst, hlast⟩ := hring
  have hlength := b.length_nonneg
  have hle := b.length_le
  have hnormal : normalize b.start b.size = b.start := by
    rw [normalize, Int.emod_eq_of_lt (by omega) (by omega)]
    omega
  simp only [segments, hnormal, if_pos (by omega : b.length.natAbs ≤ b.size)]
  refine ⟨(min b.length (b.size + 1 - b.start)).toNat,
    (b.length - (b.size + 1 - b.start)).toNat, if 0 < b.length then 1 else b.size,
    ?_, by omega, ⟨hfirst, by omega, by omega, by omega⟩⟩
  split_ifs with hpos
  · congr 2 <;> omega
  · congr 2 <;> omega

/-- The buffer after `checksize`: the values are the same, and there is room
for `len` more. -/
structure MakesRoom (b : ValueBuffer α) (len : Int) (b' : ValueBuffer α) :
    Prop where
  contents : b'.contents = b.contents
  length : b'.length = b.length
  room : len ≤ b'.size - b'.length
  autogrow : b'.autogrow = b.autogrow
  inRing : b'.InRing

theorem checksize_spec (hring : b.InRing) (len : Int)
    (hlen : len ≤ b.size ∨ 0 < b.length) :
    ∃ b', checksize len b = .ok () b' ∧ b.MakesRoom len b' := by
  have hlength := b.length_nonneg
  have hle := b.length_le
  by_cases hroom : len ≤ b.size - b.length
  · refine ⟨b, ?_, ⟨rfl, rfl, hroom, rfl, hring⟩⟩
    simp only [checksize, get_bind_apply, if_pos hroom, pure_apply]
  · obtain ⟨m, n, i2, hseg, hsum, harcs⟩ := segments_of_inRing hring
    obtain ⟨hfirst, hlast⟩ := hring
    have hnew : b.size * 2 ≤ max (b.size * 2) (b.length + len) := le_max_left _ _
    simp only [checksize, get_bind_apply, if_neg hroom, hseg]
    set newsize := max (b.size * 2) (b.length + len)
    by_cases hshort : (n : Int) < m
    · simp only [ofExcept_ok_bind, if_pos hshort]
      refine ⟨_, rfl, ⟨?_, rfl, by simp only [resized]; omega, rfl, ?_⟩⟩
      · have hslot : b.start + m - 1 + 1 = b.start + m := by omega
        simp only [contents, resized, hsum, hslot, Int.toNat_natCast]
        exact map_moveSecond harcs hnew
      · simp only [InRing, resized]
        omega
    · simp only [ofExcept_ok_bind, if_neg hshort]
      refine ⟨_, rfl, ⟨?_, rfl, by simp only [resized]; omega, rfl, ?_⟩⟩
      · simp only [contents, resized, hsum, Int.toNat_natCast]
        exact map_moveFirst harcs hnew (by omega)
      · have hfirst' := harcs.wrap
        simp only [InRing, resized]
        omega

/-! ## Single transfers -/

/-- The buffer afterwards, up to the values. -/
structure Becomes (b : ValueBuffer α) (start length : Int)
    (data : Int → Value α) (b' : ValueBuffer α) : Prop where
  size : b'.size = b.size
  autogrow : b'.autogrow = b.autogrow
  start : b'.start = start
  length : b'.length = length
  data : b'.data = data

theorem Becomes.contents {b' : ValueBuffer α} {start length : Int}
    {data : Int → Value α} (h : b.Becomes start length data b') :
    b'.contents = (ringSlots b.size (start - 1) length.toNat).map
      fun i => data (i + 1) := by
  rw [ValueBuffer.contents, h.size, h.start, h.length, h.data]

theorem push_of_room (val : Value α) {sign : Int} (hsign : sign.natAbs = 1)
    (hroom : b.autogrow = true → 1 ≤ b.size - b.length) {t : Transfer}
    (h : RingBuffer.push sign b.start b.length b.size = .ok t) :
    ∃ b', push val (some sign) b = .ok t.segs.i1 b' ∧
      b.Becomes t.start t.length (assign b.data t.segs.i1 val) b' := by
  have hsize : (if b.autogrow then checksize 1 else pure ()) b = .ok () b := by
    split_ifs with hauto
    · simp only [checksize, get_bind_apply, if_pos (hroom hauto), pure_apply]
    · rfl
  have hcheck : checksign (some sign) = .ok sign := if_pos hsign
  simp only [push, hcheck, ofExcept_ok_bind]
  rw [get_bind_apply, bind_of_ok hsize, get_bind_apply, attach_of_ok h]
  exact ⟨_, rfl, ⟨rfl, rfl, rfl, rfl, rfl⟩⟩

theorem pull_of_ok {sign : Int} (hsign : sign.natAbs = 1) {t : Transfer}
    (h : RingBuffer.pull sign b.start b.length b.size = .ok t) (keep : Bool) :
    ∃ b', pull (some sign) keep b =
        .ok (b.data t.segs.i1, t.segs.i1) b' ∧
      b.Becomes (if keep then b.start else t.start)
        (if keep then b.length else t.length)
        (if keep then b.data
          else assign b.data t.segs.i1 (.boolean false)) b' := by
  have hcheck : checksign (some sign) = .ok sign := if_pos hsign
  simp only [pull, hcheck, ofExcept_ok_bind]
  rw [get_bind_apply, attach_of_ok h]
  cases keep with
  | true => exact ⟨_, rfl, ⟨rfl, rfl, rfl, rfl, rfl⟩⟩
  | false => exact ⟨_, rfl, ⟨rfl, rfl, rfl, rfl, rfl⟩⟩

section Transfers

/-- The slot after the tail. -/
theorem normalize_afterTail (b : ValueBuffer α) :
    normalize (b.start + b.length) b.size - 1 =
      (b.start - 1 + b.length.toNat) % b.size := by
  have hlength := b.length_nonneg
  have heq : b.start + b.length - 1 = b.start - 1 + b.length.toNat := by omega
  rw [normalize_sub_one, heq]

theorem push_tail (val : Value α) (hroom : 1 ≤ b.size - b.length) :
    ∃ b', push val (some 1) b = .ok (normalize (b.start + b.length) b.size) b' ∧
      b'.contents = b.contents ++ [val] ∧ b'.autogrow = b.autogrow ∧
      b'.size = b.size ∧ (b.InRing → b'.InRing) := by
  have hlength := b.length_nonneg
  have hpush : RingBuffer.push 1 b.start b.length b.size =
      .ok ⟨b.start, b.length + 1,
        ⟨normalize (b.start + b.length) b.size, 1, 1, 0⟩⟩ := by
    rw [RingBuffer.push, if_pos (by simpa using hroom), if_pos (by omega),
      segments_one b.size_pos]
    rfl
  obtain ⟨b', hok, hb'⟩ := push_of_room val rfl (fun _ => hroom) hpush
  refine ⟨b', hok, ?_, hb'.autogrow, hb'.size, ?_⟩
  · have hlen : (b.length + 1).toNat = b.length.toNat + 1 := by omega
    have hnew : normalize (b.start + b.length) b.size - 1 ∉
        ringSlots b.size (b.start - 1) b.length.toNat := by
      have hdisjoint : (ringSlots b.size (b.start - 1) b.length.toNat).Disjoint
          (ringSlots b.size (b.start - 1 + b.length.toNat) 1) :=
        disjoint_ringSlots _ (by omega)
      rw [ringSlots_one, List.disjoint_singleton] at hdisjoint
      rwa [normalize_afterTail]
    rw [hb'.contents, hlen, ringSlots_add, List.map_append,
      map_assign_of_not_mem hnew, ringSlots_one, ← normalize_afterTail]
    simp [contents, assign_self]
  · rintro hring
    rwa [InRing, hb'.start, hb'.size]

theorem push_head (val : Value α) (hroom : 1 ≤ b.size - b.length) :
    ∃ b', push val (some (-1)) b = .ok (normalize (b.start - 1) b.size) b' ∧
      b'.contents = val :: b.contents ∧ b'.autogrow = b.autogrow ∧
      b'.size = b.size ∧ (b.InRing → b'.InRing) := by
  have hlength := b.length_nonneg
  have hpush : RingBuffer.push (-1) b.start b.length b.size =
      .ok ⟨normalize (b.start - 1) b.size, b.length + 1,
        ⟨normalize (b.start - 1) b.size, -1, b.size, 0⟩⟩ := by
    rw [RingBuffer.push, if_pos (by simpa using hroom), if_neg (by omega),
      if_pos (by omega), segments_neg_one b.size_pos]
    rfl
  obtain ⟨b', hok, hb'⟩ := push_of_room val rfl (fun _ => hroom) hpush
  refine ⟨b', hok, ?_, hb'.autogrow, hb'.size, ?_⟩
  · have hlen : (b.length + 1).toNat = 1 + b.length.toNat := by omega
    have hslot := normalize_sub_one (b.start - 1) b.size
    have hold : ringSlots b.size
        (normalize (b.start - 1) b.size - 1 + (1 : ℕ)) b.length.toNat =
          ringSlots b.size (b.start - 1) b.length.toNat := by
      apply ringSlots_congr
      have hstep := Int.ModEq.add_right (1 : Int)
        (normalize_emod (b.start - 1) b.size)
      have heq : b.start - 1 - 1 + 1 = b.start - 1 := by omega
      rw [heq] at hstep
      exact hstep
    have hfirst : ringSlots b.size (normalize (b.start - 1) b.size - 1) 1 =
        [normalize (b.start - 1) b.size - 1] := by
      rw [ringSlots_one, hslot, Int.emod_emod]
    have hnew : normalize (b.start - 1) b.size - 1 ∉
        ringSlots b.size (b.start - 1) b.length.toNat := by
      have hdisjoint : (ringSlots b.size (normalize (b.start - 1) b.size - 1)
          1).Disjoint (ringSlots b.size
            (normalize (b.start - 1) b.size - 1 + (1 : ℕ)) b.length.toNat) :=
        disjoint_ringSlots _ (by omega)
      rw [hfirst, hold, List.singleton_disjoint] at hdisjoint
      exact hdisjoint
    rw [hb'.contents, hlen, ringSlots_add, List.map_append, hold,
      map_assign_of_not_mem hnew, hfirst]
    simp [contents, assign_self]
  · intro _
    rw [InRing, hb'.start, hb'.size]
    exact normalize_bounds b.size_pos _

/-- The values before the last one, and the last one. -/
theorem contents_tail (hused : 1 ≤ b.length) :
    b.contents = (ringSlots b.size (b.start - 1) (b.length - 1).toNat).map
        (fun i => b.data (i + 1)) ++
      [b.data (normalize (b.start + b.length - 1) b.size)] := by
  have hlen : b.length.toNat = (b.length - 1).toNat + 1 := by omega
  have hslot : normalize (b.start + b.length - 1) b.size =
      (b.start - 1 + (b.length - 1).toNat) % b.size + 1 := by
    have heq : b.start - 1 + ((b.length - 1).toNat : Int) =
        b.start + b.length - 1 - 1 := by omega
    rw [heq]
    rfl
  rw [contents, hlen, ringSlots_add, List.map_append, ringSlots_one, hslot]
  rfl

/-- The first value and the values after it. -/
theorem contents_head (hused : 1 ≤ b.length) :
    b.contents = b.data (normalize b.start b.size) ::
      (ringSlots b.size b.start (b.length - 1).toNat).map
        fun i => b.data (i + 1) := by
  have hlen : b.length.toNat = 1 + (b.length - 1).toNat := by omega
  have hnext : b.start - 1 + ((1 : ℕ) : Int) = b.start := by omega
  rw [contents, hlen, ringSlots_add, List.map_append, ringSlots_one, hnext]
  rfl

theorem pull_head (hused : 1 ≤ b.length) (keep : Bool) :
    ∃ b', pull (some 1) keep b =
        .ok (b.data (normalize b.start b.size), normalize b.start b.size) b' ∧
      b'.contents = (if keep then b.contents else b.contents.drop 1) ∧
      b'.autogrow = b.autogrow ∧ b'.size = b.size ∧ (b.InRing → b'.InRing) := by
  have hle := b.length_le
  have hpull : RingBuffer.pull 1 b.start b.length b.size =
      .ok ⟨normalize (b.start + 1) b.size, b.length - 1,
        ⟨normalize b.start b.size, 1, 1, 0⟩⟩ := by
    rw [RingBuffer.pull, if_pos (by simpa using hused), if_pos (by omega),
      segments_one b.size_pos]
    rfl
  obtain ⟨b', hok, hb'⟩ := pull_of_ok rfl hpull keep
  refine ⟨b', hok, ?_, hb'.autogrow, hb'.size, ?_⟩
  · rw [hb'.contents]
    cases keep with
    | true => rfl
    | false =>
        have hrest : ringSlots b.size (normalize (b.start + 1) b.size - 1)
            (b.length - 1).toNat =
              ringSlots b.size b.start (b.length - 1).toNat := by
          apply ringSlots_congr
          rw [normalize_emod, Int.add_sub_cancel]
        have hremoved : normalize b.start b.size - 1 ∉
            ringSlots b.size b.start (b.length - 1).toNat := by
          have hdisjoint : (ringSlots b.size (b.start - 1) 1).Disjoint
              (ringSlots b.size (b.start - 1 + (1 : ℕ)) (b.length - 1).toNat) :=
            disjoint_ringSlots _ (by omega)
          have hnext : b.start - 1 + ((1 : ℕ) : Int) = b.start := by omega
          rw [ringSlots_one, hnext, List.singleton_disjoint] at hdisjoint
          rwa [normalize_sub_one]
        simp only [Bool.false_eq_true, if_false]
        rw [hrest, map_assign_of_not_mem hremoved, contents_head hused,
          List.drop_one, List.tail_cons]
  · intro hring
    rw [InRing, hb'.start, hb'.size]
    cases keep with
    | true => exact hring
    | false => exact normalize_bounds b.size_pos _

theorem pull_tail (hused : 1 ≤ b.length) (keep : Bool) :
    ∃ b', pull (some (-1)) keep b =
        .ok (b.data (normalize (b.start + b.length - 1) b.size),
          normalize (b.start + b.length - 1) b.size) b' ∧
      b'.contents = (if keep then b.contents
        else b.contents.take (b.contents.length - 1)) ∧
      b'.autogrow = b.autogrow ∧ b'.size = b.size ∧ (b.InRing → b'.InRing) := by
  have hle := b.length_le
  have hpull : RingBuffer.pull (-1) b.start b.length b.size =
      .ok ⟨b.start, b.length - 1,
        ⟨normalize (b.start + b.length - 1) b.size, -1, b.size, 0⟩⟩ := by
    rw [RingBuffer.pull, if_pos (by simpa using hused), if_neg (by omega),
      if_pos (by omega), segments_neg_one b.size_pos]
    rfl
  obtain ⟨b', hok, hb'⟩ := pull_of_ok rfl hpull keep
  refine ⟨b', hok, ?_, hb'.autogrow, hb'.size, ?_⟩
  · rw [hb'.contents]
    cases keep with
    | true => rfl
    | false =>
        have hremoved : normalize (b.start + b.length - 1) b.size - 1 ∉
            ringSlots b.size (b.start - 1) (b.length - 1).toNat := by
          have hdisjoint : (ringSlots b.size (b.start - 1)
              (b.length - 1).toNat).Disjoint (ringSlots b.size
                (b.start - 1 + (b.length - 1).toNat) 1) :=
            disjoint_ringSlots _ (by omega)
          have heq : b.start - 1 + ((b.length - 1).toNat : Int) =
              b.start + b.length - 1 - 1 := by omega
          rw [ringSlots_one, heq, List.disjoint_singleton] at hdisjoint
          rwa [normalize_sub_one]
        simp only [Bool.false_eq_true, if_false]
        rw [map_assign_of_not_mem hremoved, contents_tail hused]
        exact (List.take_left' (by simp)).symm
  · intro hring
    rw [InRing, hb'.start, hb'.size]
    cases keep with
    | true => exact hring
    | false => exact hring

end Transfers

/-! ## Requests -/

/-- The ends of the buffer, with the sign that stands for them. -/
inductive End
  | head
  | tail
  deriving DecidableEq, Repr

/-- The sign of `push` and of `pull` at an end. -/
def End.pushSign : End → Int
  | .head => -1
  | .tail => 1

def End.pullSign : End → Int
  | .head => 1
  | .tail => -1

inductive Request (α : Type)
  | push (val : Value α) (at_ : End)
  | pull (at_ : End) (keep : Bool)
  deriving DecidableEq, Repr

/-- The operation on a queue that a request stands for. -/
def Request.op : Request α → DequeOp (Value α)
  | .push val .head => .pushFront [val]
  | .push val .tail => .pushBack [val]
  | .pull .head keep => .pullFront 1 keep
  | .pull .tail keep => .pullBack 1 keep

/-- The buffer after a request, which may have raised. -/
def step (b : ValueBuffer α) : Request α → ValueBuffer α
  | .push val e => finalState (push val (some e.pushSign)) b
  | .pull e keep => finalState (pull (some e.pullSign) keep) b

/-- The values that a request gives back, or none if it raises. -/
def output (b : ValueBuffer α) : Request α → Option (List (Value α))
  | .push val e =>
      match push val (some e.pushSign) b with
      | .ok _ _ => some []
      | .error _ _ => none
  | .pull e keep =>
      match pull (some e.pullSign) keep b with
      | .ok r _ => some [r.1]
      | .error _ _ => none

/-- The number of values that a buffer can hold, if it does not grow. -/
def capacity (b : ValueBuffer α) : Option ℕ :=
  if b.autogrow then none else some b.size.toNat

/-- A buffer that may grow starts in its ring. -/
def Ready (b : ValueBuffer α) : Prop := b.autogrow = true → b.InRing

instance (b : ValueBuffer α) : Decidable b.Ready :=
  inferInstanceAs (Decidable (_ → _))

theorem fits_push_iff (b : ValueBuffer α) (val : Value α) (e : End) :
    (Request.op (.push val e)).fits b.capacity b.contents = true ↔
      (b.autogrow = true ∨ 1 ≤ b.size - b.length) := by
  have hlength := b.length_nonneg
  have hsize := b.size_pos
  cases e <;> cases hauto : b.autogrow <;>
    simp [Request.op, DequeOp.fits, capacity, hauto] <;> omega

theorem fits_pull_iff (b : ValueBuffer α) (e : End) (keep : Bool) :
    (Request.op (.pull e keep : Request α)).fits b.capacity b.contents = true ↔
      1 ≤ b.length := by
  cases e <;> simp [Request.op, DequeOp.fits] <;> omega

/-- How a request ends that is served. -/
structure Served (b : ValueBuffer α) (r : Request α) : Prop where
  contents : (b.step r).contents = r.op.apply b.contents
  output : b.output r = some (r.op.read b.contents)
  autogrow : (b.step r).autogrow = b.autogrow
  size : b.autogrow = false → (b.step r).size = b.size
  ready : b.Ready → (b.step r).Ready

theorem served_push_of_room (val : Value α) (e : End)
    (hroom : 1 ≤ b.size - b.length) :
    ∃ i b', push val (some e.pushSign) b = .ok i b' ∧
      b'.contents = (Request.op (.push val e)).apply b.contents ∧
      b'.autogrow = b.autogrow ∧ b'.size = b.size ∧ (b.InRing → b'.InRing) := by
  cases e with
  | head => exact ⟨_, push_head val hroom⟩
  | tail => exact ⟨_, push_tail val hroom⟩

theorem push_of_makesRoom {b' : ValueBuffer α} (val : Value α) (e : End)
    (hauto : b.autogrow = true) (hsize : checksize 1 b = .ok () b')
    (h : b.MakesRoom 1 b') :
    push val (some e.pushSign) b = push val (some e.pushSign) b' := by
  have hcheck : checksign (some e.pushSign) = .ok e.pushSign := by
    cases e <;> rfl
  have hsize' : checksize 1 b' = .ok () b' := by
    simp only [checksize, get_bind_apply, if_pos h.room, pure_apply]
  simp only [push, hcheck, ofExcept_ok_bind]
  rw [get_bind_apply, get_bind_apply, h.autogrow, hauto, if_pos rfl,
    bind_of_ok hsize, bind_of_ok hsize']

theorem served_push (hready : b.Ready) (val : Value α) (e : End)
    (hfits : b.autogrow = true ∨ 1 ≤ b.size - b.length) :
    b.Served (.push val e) := by
  by_cases hroom : 1 ≤ b.size - b.length
  · obtain ⟨i, b', hok, hcontents, hauto, hsize, hring⟩ :=
      served_push_of_room val e hroom
    have hstep : b.step (.push val e) = b' := finalState_of_ok hok
    constructor
    · rw [hstep, hcontents]
    · cases e <;> simp only [ValueBuffer.output, hok] <;> rfl
    · rw [hstep, hauto]
    · rw [hstep, hsize]
      exact fun _ => rfl
    · intro hready hauto'
      rw [hstep] at hauto' ⊢
      exact hring (hready (hauto.symm.trans hauto'))
  · have hauto : b.autogrow = true := hfits.resolve_right hroom
    have hlength := b.size_pos
    obtain ⟨b1, hsize1, h1⟩ := checksize_spec (hready hauto) 1 (Or.inl hlength)
    obtain ⟨i, b', hok, hcontents, hauto', hsize, hring⟩ :=
      served_push_of_room val e h1.room
    rw [← push_of_makesRoom val e hauto hsize1 h1] at hok
    have hstep : b.step (.push val e) = b' := finalState_of_ok hok
    constructor
    · rw [hstep, hcontents, h1.contents]
    · cases e <;> simp only [ValueBuffer.output, hok] <;> rfl
    · rw [hstep, hauto', h1.autogrow]
    · rw [hauto]
      exact fun h => Bool.noConfusion h
    · intro _ _
      rw [hstep]
      exact hring h1.inRing

theorem served_pull (e : End) (keep : Bool) (hused : 1 ≤ b.length) :
    b.Served (.pull e keep) := by
  have hone : ∀ e : End, ∃ val i b', pull (some e.pullSign) keep b =
      .ok (val, i) b' ∧
      b'.contents = (Request.op (.pull e keep)).apply b.contents ∧
      [val] = (Request.op (.pull e keep)).read b.contents ∧
      b'.autogrow = b.autogrow ∧ b'.size = b.size ∧ (b.InRing → b'.InRing) := by
    intro e
    cases e with
    | head =>
        obtain ⟨b', hok, hcontents, hrest⟩ := pull_head hused keep
        refine ⟨_, _, b', hok, hcontents, ?_, hrest⟩
        simp only [Request.op, DequeOp.read]
        rw [contents_head hused, List.take_succ_cons, List.take_zero]
    | tail =>
        obtain ⟨b', hok, hcontents, hrest⟩ := pull_tail hused keep
        refine ⟨_, _, b', hok, hcontents, ?_, hrest⟩
        simp only [Request.op, DequeOp.read]
        rw [contents_tail hused]
        exact (List.drop_left' (by simp)).symm
  obtain ⟨val, i, b', hok, hcontents, hval, hauto, hsize, hring⟩ := hone e
  have hstep : b.step (.pull e keep) = b' := finalState_of_ok hok
  constructor
  · rw [hstep, hcontents]
  · simp only [ValueBuffer.output, hok, hval]
  · rw [hstep, hauto]
  · rw [hstep, hsize]
    exact fun _ => rfl
  · intro hready hauto'
    rw [hstep] at hauto' ⊢
    exact hring (hready (hauto.symm.trans hauto'))

/-- A request that is not served raises and changes nothing. -/
theorem not_served_push (val : Value α) (e : End)
    (hfull : ¬ (b.autogrow = true ∨ 1 ≤ b.size - b.length)) :
    push val (some e.pushSign) b = .error .assertionFailed b := by
  rw [not_or, Bool.not_eq_true] at hfull
  have hcheck : checksign (some e.pushSign) = .ok e.pushSign := by
    cases e <;> rfl
  have hpush : RingBuffer.push e.pushSign b.start b.length b.size =
      .error .assertionFailed := by
    apply if_neg
    cases e
    · exact hfull.2
    · exact hfull.2
  simp only [push, hcheck, ofExcept_ok_bind, get_bind_apply, hfull.1,
    Bool.false_eq_true, if_false, pure_bind]
  exact ofExcept_attach_bind_of_error hpush _ b

theorem not_served_pull (e : End) (keep : Bool) (hempty : ¬ 1 ≤ b.length) :
    pull (some e.pullSign) keep b = .error .assertionFailed b := by
  have hcheck : checksign (some e.pullSign) = .ok e.pullSign := by
    cases e <;> rfl
  have hpull : RingBuffer.pull e.pullSign b.start b.length b.size =
      .error .assertionFailed := by
    apply if_neg
    cases e
    · exact hempty
    · exact hempty
  simp only [pull, hcheck, ofExcept_ok_bind, get_bind_apply]
  exact ofExcept_attach_bind_of_error hpull _ b

theorem served_of_fits (hready : b.Ready) {r : Request α}
    (hfits : r.op.fits b.capacity b.contents = true) : b.Served r := by
  cases r with
  | push val e => exact served_push hready val e ((fits_push_iff b val e).mp hfits)
  | pull e keep => exact served_pull e keep ((fits_pull_iff b e keep).mp hfits)

theorem unchanged_of_not_fits {r : Request α}
    (hfits : ¬ r.op.fits b.capacity b.contents = true) :
    b.step r = b ∧ b.output r = none := by
  cases r with
  | push val e =>
      rw [fits_push_iff] at hfits
      have herror := not_served_push val e hfits
      exact ⟨finalState_of_error herror, by simp only [output, herror]⟩
  | pull e keep =>
      rw [fits_pull_iff] at hfits
      have herror := not_served_pull e keep hfits
      exact ⟨finalState_of_error herror, by simp only [output, herror]⟩

/-- The request is served as a queue of the given capacity serves it. -/
abbrev ServesWithin (capacity : Option ℕ) : ValueBuffer α → Request α → Prop :=
  Refines step output (DequeOp.applyWithin capacity)
    (DequeOp.readWithin capacity) contents Request.op

theorem servesWithin_step (hready : b.Ready) (r : Request α) :
    ServesWithin b.capacity b r ∧ (b.step r).capacity = b.capacity ∧
      (b.step r).Ready ∧ (b.output r = none → b.step r = b) := by
  simp only [Refines, DequeOp.applyWithin, DequeOp.readWithin]
  by_cases hfits : r.op.fits b.capacity b.contents = true
  · have hserved := served_of_fits hready hfits
    rw [if_pos hfits, if_pos hfits, hserved.output]
    refine ⟨⟨hserved.contents, rfl⟩, ?_, hserved.ready hready, nofun⟩
    · rw [capacity, capacity, hserved.autogrow]
      cases hauto : b.autogrow with
      | true => rfl
      | false => rw [hserved.size hauto]
  · obtain ⟨hstep, hout⟩ := unchanged_of_not_fits hfits
    rw [if_neg hfits, if_neg hfits]
    exact ⟨⟨by rw [hstep], hout⟩, by rw [hstep], by rwa [hstep], fun _ => hstep⟩

/-! ## Offsets -/

theorem data_offset_head {k : ℕ} (hk : k < b.contents.length) :
    b.contents[k]? = some (b.data (b.offset k)) := by
  rw [length_contents] at hk
  have hslot : b.offset k = (b.start - 1 + k) % b.size + 1 := by
    have heq : b.start + (k : Int) + 0 - 1 = b.start - 1 + k := by omega
    rw [offset, RingBuffer.offset, if_pos (by omega), normalize, heq]
  simp [contents, ringSlots, hk, hslot]

theorem data_offset_tail {k : ℕ} (hk : k < b.contents.length) :
    b.contents[b.contents.length - 1 - k]? =
      some (b.data (b.offset (-(k + 1)))) := by
  have hlength := b.length_nonneg
  rw [length_contents] at hk
  have hslot : b.offset (-(k + 1)) =
      (b.start - 1 + ((b.length.toNat - 1 - k : ℕ) : Int)) % b.size + 1 := by
    have heq : b.start + -((k : Int) + 1) + b.length - 1 =
        b.start - 1 + ((b.length.toNat - 1 - k : ℕ) : Int) := by
      omega
    rw [offset, RingBuffer.offset, if_neg (by omega), normalize, heq]
  have hlt : b.length.toNat - 1 - k < b.length.toNat := by omega
  rw [hslot]
  simp [contents, ringSlots, hlt]

/-! ## Runs -/

/-- What holds of a buffer at any time: a request that raises changes nothing,
offsets address the values, and growing keeps them. -/
structure Sound (b : ValueBuffer α) : Prop where
  unchanged : ∀ r, b.output r = none → b.step r = b
  head : ∀ k : ℕ, k < b.contents.length →
    b.contents[k]? = some (b.data (b.offset k))
  tail : ∀ k : ℕ, k < b.contents.length →
    b.contents[b.contents.length - 1 - k]? =
      some (b.data (b.offset (-(k + 1))))
  grow : b.autogrow = true →
    ∃ b', checksize 1 b = .ok () b' ∧ b'.contents = b.contents

theorem sound_of_ready (hready : b.Ready) : b.Sound := by
  constructor
  · exact fun r => (servesWithin_step hready r).2.2.2
  · exact fun _ => data_offset_head
  · exact fun _ => data_offset_tail
  · intro hauto
    obtain ⟨b', hsize, h⟩ := checksize_spec (hready hauto) 1 (Or.inl b.size_pos)
    exact ⟨b', hsize, h.contents⟩

/-- The state of a run: the capacity is the one the run started with. -/
structure Reached (capacity : Option ℕ) (b : ValueBuffer α) : Prop where
  ready : b.Ready
  capacity : b.capacity = capacity

theorem reached_step {capacity : Option ℕ} (h : Reached capacity b)
    (r : Request α) :
    Reached capacity (b.step r) ∧ ServesWithin capacity b r := by
  obtain ⟨hserves, hcapacity, hready, -⟩ := servesWithin_step h.ready r
  rw [h.capacity] at hserves hcapacity
  exact ⟨⟨hready, hcapacity⟩, hserves⟩

theorem reached_follows {capacity : Option ℕ} (h : Reached capacity b)
    (requests : List (Request α)) :
    Follows step output (DequeOp.applyWithin capacity)
        (DequeOp.readWithin capacity) contents Request.op requests b ∧
      Reached capacity (run step requests b) := by
  induction requests generalizing b with
  | nil => exact ⟨⟨rfl, rfl⟩, h⟩
  | cons r requests ih =>
      obtain ⟨hreached, hserves⟩ := reached_step h r
      obtain ⟨hfollows, hrun⟩ := ih hreached
      exact ⟨(follows_cons_iff hserves).mpr hfollows, hrun⟩

/-- In every run a buffer is a double-ended queue of its capacity, and it is
sound afterwards. -/
theorem follows_deque (hready : b.Ready) (requests : List (Request α)) :
    Follows step output (DequeOp.applyWithin b.capacity)
        (DequeOp.readWithin b.capacity) contents Request.op requests b ∧
      (run step requests b).Sound := by
  obtain ⟨hfollows, hrun⟩ := reached_follows ⟨hready, rfl⟩ requests
  exact ⟨hfollows, sound_of_ready hrun.ready⟩

theorem two_slots_pos : (0 : Int) < 2 := by decide

theorem no_values_nonneg : (0 : Int) ≤ 0 := le_refl 0

theorem no_values_le : (0 : Int) ≤ 2 := by decide

/-- An empty buffer of two slots that grows. -/
def growing (start : Int) : ValueBuffer ℕ where
  size := 2
  size_pos := two_slots_pos
  start := start
  length := 0
  length_nonneg := no_values_nonneg
  length_le := no_values_le
  autogrow := true
  data := fun _ => .nil

theorem follows_deque_growing :
    Follows step output (DequeOp.applyWithin (growing 2).capacity)
        (DequeOp.readWithin (growing 2).capacity) contents Request.op
        [.push (.other 1) .tail, .push .nil .head, .push (.other 2) .tail,
          .pull .head false] (growing 2) ∧
      (run step [.push (.other 1) .tail, .push .nil .head,
        .push (.other 2) .tail, .pull .head false] (growing 2)).Sound :=
  follows_deque (by decide) _

/-- A buffer that starts outside of its ring reads another slot as its head
when it has grown. -/
theorem growing_from_outside :
    new 2 (some 3) none true (fun _ => .nil) = .ok (growing 3) ∧
      outputs step output [.push (.other 1) .tail, .push (.other 2) .tail,
        .push (.other 3) .tail, .pull .head false] (growing 3) =
          [some [], some [], some [], some [.nil]] ∧
      ¬ Follows step output (DequeOp.applyWithin (growing 3).capacity)
        (DequeOp.readWithin (growing 3).capacity) contents Request.op
        [.push (.other 1) .tail, .push (.other 2) .tail,
          .push (.other 3) .tail, .pull .head false] (growing 3) := by
  refine ⟨rfl, by decide, ?_⟩
  rintro ⟨-, hout⟩
  revert hout
  decide

end ValueBuffer

end LuaAttic.RingBuffer
