import LuaAttic.Bitmask.Rows

/-!
# Runs of row operations

Which bytes a sequence of calls reads and writes.  The buffer keeps what rows there
are as long as each insertion leaves it room for the rows that are counted twice.
-/

namespace LuaAttic.Bitmask

open LuaAttic.Support

inductive RowOp
  | insertRows (y n : ℤ) (val : Bool)
  | removeRows (y n : ℤ)
  | rect (x1 y1 : ℤ) (w h : Extent) (val : Bool)
  | get (x y : ℤ)

namespace RowOp

def step (b : Bitarray) : RowOp → Bitarray
  | insertRows y n val => b.insertRows y n val
  | removeRows y n => b.removeRows y n
  | rect x1 y1 w h val => b.rect x1 y1 w h val
  | get _ _ => b

def stores (b : Bitarray) : RowOp → List Store
  | insertRows y n val => b.insertRowsStores y n val
  | removeRows y n => b.removeRowsStores y n
  | rect x1 y1 w h val => b.rectStores x1 y1 w h val
  | get _ _ => []

/-- The array that the stores go to. -/
def target (b : Bitarray) : RowOp → Bitarray
  | insertRows _ n _ => b.realloc b.w (b.h + n)
  | _ => b

/-- The indices of the bytes of the array that the call reads or writes. -/
def accessed (b : Bitarray) (op : RowOp) : Set ℤ :=
  {i | ∃ s ∈ op.stores b, i ∈ s.written ∨ i ∈ s.read} ∪
    match op with
    | get x y => {trunc (b.place x y)}
    | _ => ∅

/-- All bytes that the call reads or writes are bytes of an array, and of its buffer. -/
structure InBounds (b : Bitarray) (op : RowOp) : Prop where
  accessed : ∀ i ∈ op.accessed b,
    0 ≤ i ∧ i < (op.target b).stride * (op.target b).h ∧ i < (op.target b).buffer.len
  readFrom : ∀ s ∈ op.stores b, ∀ i ∈ s.readFrom,
    0 ≤ i ∧ i < b.stride * b.h ∧ i < b.buffer.len

/-- Rows are inserted in range. -/
def InDomain (b : Bitarray) : RowOp → Prop
  | insertRows y n _ => (0 ≤ y ∧ y ≤ b.h) ∧ 0 ≤ n
  | _ => True

/-- The buffer has room for the new rows twice; there is something to get, and what is
got is in the array or the limit is. -/
def Safe (b : Bitarray) : RowOp → Prop
  | insertRows _ n _ =>
      b.stride * (b.h + n + n) ≤ (b.buffer.call (b.stride * (b.h + n))).len
  | get x y => 0 < b.stride * b.h ∧
      ((y * b.stride + x / 8 : ℚ) < b.stride * b.h ∨ b.maxI < b.stride * b.h)
  | _ => True

/-! ## Getting -/

theorem trunc_nonneg {q : ℚ} (h : -1 < q) : 0 ≤ trunc q := by
  rw [trunc]
  split
  · exact Int.floor_nonneg.mpr ‹_›
  · exact Int.le_ceil_iff.mpr (by push_cast; linarith)

theorem trunc_lt_iff (q : ℚ) {n : ℤ} (hn : 0 < n) : trunc q < n ↔ q < n := by
  rw [trunc]
  split
  · exact Int.floor_lt
  · have hq : q < 0 := by linarith
    have hceil : ⌈q⌉ ≤ 0 := Int.ceil_le.mpr (by push_cast; linarith)
    have hn' : (0 : ℚ) < n := Int.cast_pos.mpr hn
    exact iff_of_true (by omega) (by linarith)

/-- A byte that is got is in the array exactly when the array is not empty and the
place or the limit is in it. -/
theorem get_index_iff {b : Bitarray} (hv : b.Valid) (x y : ℤ) :
    (0 ≤ trunc (b.place x y) ∧ trunc (b.place x y) < b.stride * b.h) ↔
      (get x y).Safe b := by
  have hsize : 0 ≤ b.stride * b.h := mul_nonneg hv.stride_nonneg hv.h_nonneg
  have hsize' : (0 : ℚ) ≤ b.stride * b.h := by exact_mod_cast hsize
  have hmax := hv.le_maxI
  have hplace : -1 < b.place x y := by
    rw [Bitarray.place, clamp, lt_min_iff, lt_max_iff]
    exact ⟨.inr (by norm_num), by linarith⟩
  rw [and_iff_right (trunc_nonneg hplace), Safe]
  by_cases hpos : 0 < b.stride * b.h
  · have hcast : ((b.stride * b.h : ℤ) : ℚ) = b.stride * b.h := by push_cast; rfl
    have hpos' : (0 : ℚ) < b.stride * b.h := by exact_mod_cast hpos
    rw [trunc_lt_iff _ hpos, hcast, and_iff_right hpos, Bitarray.place, clamp,
      min_lt_iff, max_lt_iff, and_iff_left hpos']
  · have hzero : b.stride * b.h = 0 := by omega
    refine iff_of_false ?_ fun h => hpos h.1
    have := trunc_nonneg hplace
    omega

/-! ## Stores -/

theorem inBounds_insertRows {b : Bitarray} (hv : b.Valid) (hb : b.Backed) {y n : ℤ}
    (hy : 0 ≤ y) (hyh : y ≤ b.h) (hn : 0 ≤ n) (val : Bool) :
    (insertRows y n val).InBounds b := by
  obtain ⟨-, hh, hstride⟩ := Bitarray.realloc_dims hv hn
  have hvr := Bitarray.realloc_valid b b.w (b.h + n)
  have hback := Bitarray.realloc_backed b b.w (b.h + n)
  have hold : 0 ≤ b.stride * y := mul_nonneg hv.stride_nonneg hy
  have hgrow : 0 ≤ b.stride * n := mul_nonneg hv.stride_nonneg hn
  have hrows : b.stride * y ≤ b.stride * b.h :=
    mul_le_mul_of_nonneg_left hyh hv.stride_nonneg
  have hsum : b.stride * (b.h + n) = b.stride * b.h + b.stride * n := mul_add _ _ _
  have hsum' : b.stride * (y + n) = b.stride * y + b.stride * n := mul_add _ _ _
  rw [Bitarray.Backed, hstride, hh] at hback
  constructor
  · rintro i (⟨s, hs, hi⟩ | hi)
    · have hin : 0 ≤ i ∧ i < b.stride * (b.h + n) := by
        simp only [stores, Bitarray.insertRowsStores, List.mem_append, List.mem_singleton,
          hstride, hh] at hs
        obtain (hs | rfl) | hs := hs
        · split at hs
          · rw [List.mem_singleton] at hs
            subst hs
            simp only [Store.written, Store.read, Set.mem_Ico, Set.mem_empty_iff_false,
              or_false] at hi
            omega
          · exact absurd hs (List.not_mem_nil)
        · simp only [Store.written, Store.read, Set.mem_Ico] at hi
          omega
        · have := (Bitarray.within_rectStores hvr 0 y _ _ val hs).index i hi
          rwa [hstride, hh] at this
      rw [target, hstride, hh]
      exact ⟨hin.1, hin.2, by omega⟩
    · exact hi.elim
  · intro s hs i hi
    simp only [stores, Bitarray.insertRowsStores, List.mem_append, List.mem_singleton] at hs
    rw [Bitarray.Backed] at hb
    obtain (hs | rfl) | hs := hs
    · split at hs
      · rw [List.mem_singleton] at hs
        subst hs
        rw [Store.readFrom, hstride, Set.mem_Ico] at hi
        omega
      · exact absurd hs (List.not_mem_nil)
    · exact hi.elim
    · rw [(Bitarray.within_rectStores hvr 0 y _ _ val hs).readFrom] at hi
      exact hi.elim

theorem inBounds_removeRows {b : Bitarray} (hv : b.Valid) (hb : b.Backed) (y n : ℤ) :
    (removeRows y n).InBounds b := by
  obtain ⟨y', n', hy, hn, -, hstores⟩ := Bitarray.exists_removeRows_eq hv y n
  have hdims := Bitarray.removeRows_dims b hy.1 hy.2 hn.1 hn.2
  rw [hdims.2.2.2.2] at hstores
  have hfirst : 0 ≤ b.stride * y' := mul_nonneg hv.stride_nonneg hy.1
  have hgap : 0 ≤ b.stride * n' := mul_nonneg hv.stride_nonneg hn.1
  have hsum : b.stride * (y' + n') = b.stride * y' + b.stride * n' := mul_add _ _ _
  have hmem (s : Store) (hs : s ∈ (removeRows y n).stores b) :
      s = .copy (b.stride * y') (b.stride * (y' + n'))
        (b.stride * b.h - b.stride * (y' + n')) := by
    rwa [stores, hstores, List.mem_singleton] at hs
  rw [Bitarray.Backed] at hb
  constructor
  · rintro i (⟨s, hs, hi⟩ | hi)
    · rw [hmem s hs] at hi
      simp only [Store.written, Store.read, Set.mem_Ico] at hi
      change 0 ≤ i ∧ i < b.stride * b.h ∧ i < b.buffer.len
      omega
    · exact hi.elim
  · intro s hs i hi
    rw [hmem s hs] at hi
    exact hi.elim

theorem inBounds_rect {b : Bitarray} (hv : b.Valid) (hb : b.Backed) (x1 y1 : ℤ)
    (w h : Extent) (val : Bool) : (rect x1 y1 w h val).InBounds b := by
  rw [Bitarray.Backed] at hb
  constructor
  · rintro i (⟨s, hs, hi⟩ | hi)
    · have := (Bitarray.within_rectStores hv x1 y1 w h val hs).index i hi
      change 0 ≤ i ∧ i < b.stride * b.h ∧ i < b.buffer.len
      omega
    · exact hi.elim
  · intro s hs i hi
    rw [(Bitarray.within_rectStores hv x1 y1 w h val hs).readFrom] at hi
    exact hi.elim

theorem inBounds_get {b : Bitarray} (hv : b.Valid) (hb : b.Backed) {x y : ℤ}
    (hsafe : (get x y).Safe b) : (get x y).InBounds b := by
  have hindex := (get_index_iff hv x y).mpr hsafe
  rw [Bitarray.Backed] at hb
  constructor
  · rintro i (⟨s, hs, _⟩ | hi)
    · exact absurd hs (List.not_mem_nil)
    · rw [Set.mem_singleton_iff.mp hi]
      change _ ∧ _ < b.stride * b.h ∧ _ < b.buffer.len
      omega
  · intro s hs
    exact absurd hs (List.not_mem_nil)

/-! ## Runs -/

/-- What all the calls of a run keep. -/
structure Sound (b : Bitarray) : Prop where
  valid : b.Valid
  backed : b.Backed

theorem inBounds_of_safe {b : Bitarray} (h : Sound b) {op : RowOp} (hd : op.InDomain b)
    (hs : op.Safe b) : op.InBounds b := by
  cases op with
  | insertRows y n val => exact inBounds_insertRows h.valid h.backed hd.1.1 hd.1.2 hd.2 val
  | removeRows y n => exact inBounds_removeRows h.valid h.backed y n
  | rect x1 y1 w h' val => exact inBounds_rect h.valid h.backed x1 y1 w h' val
  | get x y => exact inBounds_get h.valid h.backed hs

theorem sound_step {b : Bitarray} (h : Sound b) {op : RowOp} (hd : op.InDomain b)
    (hs : op.Safe b) : Sound (op.step b) := by
  cases op with
  | insertRows y n val =>
      refine ⟨Bitarray.insertRows_valid h.valid y hd.2 val, ?_⟩
      obtain ⟨-, hh, hstride, -⟩ := Bitarray.insertRows_dims h.valid y hd.2 val
      obtain ⟨-, hh', hstride'⟩ := Bitarray.realloc_dims h.valid hd.2
      have hbuffer : (b.insertRows y n val).buffer.len =
          (b.buffer.call ((b.realloc b.w (b.h + n)).stride * (b.realloc b.w (b.h + n)).h)).len :=
        rfl
      rw [step, Bitarray.Backed, hh, hstride, hbuffer, hh', hstride']
      exact hs
  | removeRows y n =>
      refine ⟨Bitarray.removeRows_valid h.valid y n, ?_⟩
      obtain ⟨y', n', hy, hn, heq, -⟩ := Bitarray.exists_removeRows_eq h.valid y n
      obtain ⟨-, hh, hstride, -⟩ := Bitarray.removeRows_dims b hy.1 hy.2 hn.1 hn.2
      have hle : b.stride * (b.h - n') ≤ b.stride * b.h :=
        mul_le_mul_of_nonneg_left (by omega) h.valid.stride_nonneg
      rw [step, Bitarray.Backed, heq, hh, hstride]
      exact hle.trans h.backed
  | rect x1 y1 w h' val => exact ⟨Bitarray.rect_valid h.valid x1 y1 w h' val, h.backed⟩
  | get x y => exact h

/-- The rows are inserted and removed as they should be exactly when there are none; and
in a run of an array that was just created or reallocated, all bytes that are read or
written are in the array when the insertions leave room and what is got is in range. -/
theorem rows_iff (b : Bitarray) :
    (b.Valid → ∀ (y n : ℤ) (val : Bool), 0 ≤ y → y ≤ b.h → 0 ≤ n →
      (b.InsertsRows y n val ∧ Bitarray.SameCells ((b.insertRows y n val).removeRows y n) b ↔
        n = 0)) ∧
      (b.JustSized → ∀ ops : List RowOp,
        AllAllowed step (fun b op => op.InDomain b ∧ op.Safe b) ops b →
          AllAllowed step (fun b op => op.InBounds b) ops b) := by
  constructor
  · intro hv y n val hy hyh hn
    exact Bitarray.insertsRows_iff hv hy hyh hn val
  · intro hb ops hall
    have hsound : Sound b := by
      refine ⟨hb.valid, ?_⟩
      obtain ⟨w, h, rfl | ⟨b', rfl⟩⟩ := hb
      · exact Bitarray.realloc_backed _ w h
      · exact Bitarray.realloc_backed b' w h
    apply hall.of_invariant _ _ hsound
    · exact fun b op h hop => sound_step h hop.1 hop.2
    · exact fun b op h hop => inBounds_of_safe h hop.1 hop.2

theorem rows_iff_run :
    ((Bitarray.new 8 2).InsertsRows 1 0 true ∧
        Bitarray.SameCells (((Bitarray.new 8 2).insertRows 1 0 true).removeRows 1 0)
          (Bitarray.new 8 2) ↔ (0 : ℤ) = 0) ∧
      AllAllowed step (fun b op => op.InBounds b)
        [get 3 1, insertRows 1 0 true, rect 0 0 ⊤ ⊤ true] (Bitarray.new 8 2) := by
  have hb : (Bitarray.new 8 2).JustSized := ⟨8, 2, .inl rfl⟩
  have hstride : (Bitarray.new 8 2).stride = 1 := hb.valid.stride_eq.trans (by decide)
  have hh : (Bitarray.new 8 2).h = 2 := by decide
  refine ⟨(rows_iff _).1 hb.valid 1 0 true (by decide) (by decide) le_rfl,
    (rows_iff _).2 hb _ ⟨⟨trivial, ?_, ?_⟩, ⟨⟨⟨by decide, by decide⟩, le_rfl⟩, ?_⟩,
      ⟨trivial, trivial⟩, trivial⟩⟩
  · rw [hstride, hh]
    decide
  · left
    rw [hstride, hh]
    norm_num
  · simp only [step, Safe, add_zero]
    exact Bitarray.le_len_call _ _

/-- One row that is inserted makes the array two rows higher. -/
theorem not_insertsRows_one : ¬ (Bitarray.new 8 1).InsertsRows 0 1 true := by
  intro h
  have hv : (Bitarray.new 8 1).Valid := Bitarray.realloc_valid _ 8 1
  have hdims := Bitarray.insertRows_dims hv 0 (show (0 : ℤ) ≤ 1 by decide) true
  have := h.height
  omega

end RowOp

end LuaAttic.Bitmask
