import LuaAttic.Utf8.Validity

/-!
# Iterating in reverse

Short strings are searched for the character before an index again and again; of long
ones the indices are collected and read backwards.  After a stray byte at the end of the
string the indices that are collected include the one past the end, unless they are cut
off at an index.
-/

namespace LuaAttic.Utf8

open LuaAttic.Lua LuaAttic.Support

/-! ## The modelled functions -/

/-- The loop of `prev`: the character before the index, and whether the index was
found. -/
def prevLoop (nexti : Int) : Option (Int × Bool) → List (Int × Bool) →
    Option (Int × Bool) × Bool
  | last, [] => (last, false)
  | last, m :: l => if m.1 = nexti then (last, true) else prevLoop nexti (some m) l

/-- `utf8.prev(s, nexti)` -/
def prev (s : Bytes) (nexti : Option Int) : Except Failure (Option (Int × Bool)) :=
  let nexti := nexti.getD (s.length + 1)
  if nexti ≤ 1 ∨ nexti > s.length + 1 then .ok none
  else do
    let last ← (nextRaw s none).mapError .run
    let l ← (byteIndices s).mapError .run
    let (last, found) := prevLoop nexti last l
    if found then return last
    else if nexti = s.length + 1 then return last
    else throw (.message "invalid index")

/-! ## The character before an index -/

theorem prevLoop_append {n : Int} {A : List (Int × Bool)} (hA : ∀ m ∈ A, m.1 ≠ n)
    (last : Option (Int × Bool)) (B : List (Int × Bool)) :
    prevLoop n last (A ++ B) = prevLoop n (A.getLast?.or last) B := by
  induction A generalizing last with
  | nil => rfl
  | cons m A ih =>
      rw [List.cons_append, prevLoop, if_neg (hA m List.mem_cons_self),
        ih fun m' hm' => hA m' (List.mem_cons_of_mem m hm')]
      cases A with
      | nil => rfl
      | cons m' A => simp [List.getLast?_cons]

theorem mem_marks {i : Int} {valid : Bool} {ps : List Bytes} {m : Int × Bool}
    (h : m ∈ marks i valid ps) : i ≤ m.1 ∧ m.1 ≤ i + ps.flatten.length := by
  induction ps generalizing i valid with
  | nil =>
      rw [marks] at h
      split at h
      · exact absurd h List.not_mem_nil
      · rw [List.mem_singleton.mp h]
        exact ⟨le_rfl, by simp⟩
  | cons p ps ih =>
      rw [marks, List.mem_cons] at h
      rw [List.flatten_cons, List.length_append]
      obtain rfl | h := h
      · dsimp only
        omega
      · have := ih h
        omega

/-- The indices that the iteration over a string yields. -/
structure Indices (s : Bytes) (l : List (Int × Bool)) : Prop where
  byteIndices : byteIndices s = .ok l
  increasing : (l.map Prod.fst).Pairwise (· < ·)
  within : ∀ m ∈ l, 1 ≤ m.1 ∧ m.1 ≤ s.length + 1
  stray : (∀ m ∈ l, m.1 ≤ s.length) ↔ ¬ EndsStray s
  first : s ≠ [] → ∃ l', l = (1, true) :: l'

theorem indices_marks (s : Bytes) : Indices s (marks 1 true (chars s)) := by
  have hl := byteIndices_eq s
  have hwithin : ∀ m ∈ marks 1 true (chars s), 1 ≤ m.1 ∧ m.1 ≤ s.length + 1 := by
    intro m hm
    have := mem_marks hm
    rw [chars, flatten_pieces] at this
    omega
  by_cases hs : s = []
  · subst hs
    have hnil : marks 1 true (chars []) = [] := by
      rw [chars, pieces_nil]
      rfl
    rw [hnil] at hl ⊢
    exact ⟨hl, List.Pairwise.nil, by simp, iff_of_true (by simp) not_endsStray_nil,
      fun h => absurd rfl h⟩
  · obtain ⟨l, hl', hcuts⟩ := byteIndices_cutsRest hs
    have heq : marks 1 true (chars s) = (1, true) :: l := Except.ok.inj (hl.symm.trans hl')
    refine ⟨hl, ?_, hwithin, ?_, fun _ => ⟨l, heq⟩⟩
    · rw [heq]
      exact hcuts.increasing
    · rw [heq, ← hcuts.within, List.forall_mem_cons, List.forall_mem_cons, List.forall_mem_map]

/-- The index is where a suffix of what the iteration yields begins, or past the end. -/
structure CutAt (s : Bytes) (n : Int) (A B : List (Int × Bool)) : Prop where
  concat : marks 1 true (chars s) = A ++ B
  place : (B = [] ∧ n = s.length + 1 ∧ ¬ EndsStray s) ∨ ∃ valid B', B = (n, valid) :: B'

section CutAt

variable {s : Bytes} {n : Int} {A B : List (Int × Bool)}

theorem CutAt.le_length (h : CutAt s n A B) : n ≤ s.length + 1 := by
  obtain ⟨-, hn, -⟩ | ⟨valid, B', rfl⟩ := h.place
  · exact hn.le
  · apply ((indices_marks s).within (n, valid) _).2
    rw [h.concat]
    exact List.mem_append_right A List.mem_cons_self

theorem CutAt.before (h : CutAt s n A B) {m : Int × Bool} (hm : m ∈ A) :
    1 ≤ m.1 ∧ m.1 < n := by
  have hs := indices_marks s
  have hmem : m ∈ marks 1 true (chars s) := by
    rw [h.concat]
    exact List.mem_append_left B hm
  refine ⟨(hs.within m hmem).1, ?_⟩
  obtain ⟨-, rfl, hends⟩ | ⟨valid, B', rfl⟩ := h.place
  · have hle := hs.stray.mpr hends m hmem
    omega
  · have hincreasing := hs.increasing
    rw [h.concat, List.map_append, List.pairwise_append] at hincreasing
    exact hincreasing.2.2 m.1 (List.mem_map_of_mem hm) n (by simp)

theorem CutAt.not_before (h : CutAt s n A B) {m : Int × Bool} (hm : m ∈ B) : n ≤ m.1 := by
  obtain ⟨rfl, -, -⟩ | ⟨valid, B', rfl⟩ := h.place
  · exact absurd hm List.not_mem_nil
  · obtain rfl | hm := List.mem_cons.mp hm
    · exact le_rfl
    · have hincreasing := (indices_marks s).increasing
      rw [h.concat, List.map_append, List.pairwise_append, List.map_cons,
        List.pairwise_cons] at hincreasing
      exact (hincreasing.2.1.1 m.1 (List.mem_map_of_mem hm)).le

/-- Only before the first index there is nothing. -/
theorem CutAt.eq_nil_iff (h : CutAt s n A B) : A = [] ↔ n ≤ 1 := by
  constructor
  · rintro rfl
    by_cases hs : s = []
    · subst hs
      have := h.le_length
      simpa using this
    · obtain ⟨l, hl⟩ := (indices_marks s).first hs
      have := h.not_before (m := (1, true)) (by
        rw [← List.nil_append B, ← h.concat, hl]
        exact List.mem_cons_self)
      exact this
  · intro hn
    rw [List.eq_nil_iff_forall_not_mem]
    intro m hm
    have := h.before hm
    omega

/-- The cut where the character before the cut begins. -/
theorem CutAt.init {m : Int × Bool} (h : CutAt s n (A ++ [m]) B) : CutAt s m.1 A (m :: B) where
  concat := by rw [h.concat, List.append_assoc, List.singleton_append]
  place := .inr ⟨m.2, B, rfl⟩

/-- The character before an index is the last one of those before the cut. -/
theorem prev_eq {nexti : Option Int} (h : CutAt s (nexti.getD (s.length + 1)) A B) :
    prev s nexti = .ok A.getLast? := by
  have hle := h.le_length
  by_cases hA : A = []
  · rw [prev, if_pos (.inl (h.eq_nil_iff.mp hA)), hA]
    rfl
  · have hgt : ¬ nexti.getD (s.length + 1) ≤ 1 := fun hn => hA (h.eq_nil_iff.mpr hn)
    have hs : s.length ≠ 0 := by omega
    have hne (m) (hm : m ∈ A) : m.1 ≠ nexti.getD (s.length + 1) := (h.before hm).2.ne
    have hlast : A.getLast?.or (some (1, true)) = A.getLast? := by
      rw [List.getLast?_eq_some_getLast hA]
      rfl
    rw [prev, if_neg (by omega), nextRaw, if_neg hs, byteIndices_eq, h.concat]
    simp only [Except.mapError, bind, Except.bind, prevLoop_append hne, hlast]
    obtain ⟨rfl, hn, -⟩ | ⟨valid, B', rfl⟩ := h.place
    · simp only [prevLoop, if_pos hn]
      rfl
    · rw [prevLoop, if_pos rfl]
      rfl

theorem exists_cutAt_of_mem (h : n ∈ (marks 1 true (chars s)).map Prod.fst) :
    ∃ A B, CutAt s n A B := by
  obtain ⟨m, hm, rfl⟩ := List.mem_map.mp h
  obtain ⟨A, B, hAB⟩ := List.append_of_mem hm
  exact ⟨A, m :: B, hAB, .inr ⟨m.2, B, rfl⟩⟩

/-- Past the end there is a cut, whether that index is yielded or not. -/
theorem exists_cutAt_end (s : Bytes) : ∃ A B, CutAt s (s.length + 1) A B := by
  have hs := indices_marks s
  by_cases h : EndsStray s
  · have hmem : (s.length + 1 : Int) ∈ (marks 1 true (chars s)).map Prod.fst := by
      have hnot := mt hs.stray.mp (not_not.mpr h)
      push Not at hnot
      obtain ⟨m, hm, hlt⟩ := hnot
      have hin := hs.within m hm
      have heq : (s.length + 1 : Int) = m.1 := by omega
      rw [heq]
      exact List.mem_map_of_mem hm
    exact exists_cutAt_of_mem hmem
  · exact ⟨_, [], (List.append_nil _).symm, .inl ⟨rfl, rfl, h⟩⟩

/-- Where `prev` succeeds there is a cut. -/
theorem exists_cutAt_of_prev {nexti : Option Int} {m : Int × Bool}
    (h : prev s nexti = .ok (some m)) : ∃ A B, CutAt s (nexti.getD (s.length + 1)) A B := by
  by_cases hend : nexti.getD (s.length + 1) = s.length + 1
  · rw [hend]
    exact exists_cutAt_end s
  · by_cases hmem : nexti.getD (s.length + 1) ∈ (marks 1 true (chars s)).map Prod.fst
    · exact exists_cutAt_of_mem hmem
    · -- the loop goes through all the indices, and the error is raised
      have hne (m) (hm : m ∈ marks 1 true (chars s)) : m.1 ≠ nexti.getD (s.length + 1) := by
        intro heq
        apply hmem
        rw [← heq]
        exact List.mem_map_of_mem hm
      have hloop (last) := prevLoop_append hne last []
      rw [prev, byteIndices_eq] at h
      rw [List.append_nil] at hloop
      split at h
      · cases h
      · cases hfirst : nextRaw s none with
        | error e =>
            rw [hfirst] at h
            cases h
        | ok last =>
            rw [hfirst] at h
            simp only [Except.mapError, bind, Except.bind, hloop, prevLoop] at h
            cases h

end CutAt

/-! ## The iteration -/

/-- How far an index is from the beginning; none is past the end. -/
def distance (s : Bytes) (nexti : Option Int) : ℕ := (nexti.getD (s.length + 1)).toNat

theorem distance_lt {s : Bytes} {nexti : Option Int} {m : Int × Bool}
    (h : prev s nexti = .ok (some m)) : distance s (some m.1) < distance s nexti := by
  obtain ⟨A, B, hcut⟩ := exists_cutAt_of_prev h
  have hlast : A.getLast? = some m := by
    have := (prev_eq hcut).symm.trans h
    exact Except.ok.inj this
  have hm := hcut.before (List.mem_of_getLast? hlast)
  simp only [distance, Option.getD_some]
  omega

/-- `for i in utf8.prev, s, nexti`: what the loop runs through. -/
def reverseShort (s : Bytes) (nexti : Option Int) : Except Failure (List Int) :=
  match _h : prev s nexti with
  | .error e => .error e
  | .ok none => .ok []
  | .ok (some m) => do
      let rest ← reverseShort s (some m.1)
      return m.1 :: rest
termination_by distance s nexti
decreasing_by exact distance_lt _h

/-- The indices up to `nexti` from a table, backwards. -/
def reverseLong (s : Bytes) (nexti : Option Int) : Except Failure (List Int) := do
  let l ← (byteIndices s).mapError .run
  let t := (l.map Prod.fst).takeWhile fun i => ! nexti.any fun nexti => decide (i ≥ nexti)
  return t.reverse

/-- `utf8.byte_indices_reverse(s, nexti)` -/
def byteIndicesReverse (s : Bytes) (nexti : Option Int) : Except Failure (List Int) :=
  if s.length < 200 then reverseShort s nexti else reverseLong s nexti

section Iteration

variable {s : Bytes} {nexti : Option Int} {A B : List (Int × Bool)}

/-- One round of the loop. -/
theorem reverseShort_eq_bind :
    reverseShort s nexti = prev s nexti >>= fun r =>
      r.elim (.ok []) fun m => (m.1 :: ·) <$> reverseShort s (some m.1) := by
  rw [reverseShort]
  split
  · rw [‹prev s nexti = _›]
    rfl
  · rw [‹prev s nexti = _›]
    rfl
  · rw [‹prev s nexti = _›]
    rfl

/-- The search for the character before goes through all that is before the cut. -/
theorem reverseShort_eq (h : CutAt s (nexti.getD (s.length + 1)) A B) :
    reverseShort s nexti = .ok (A.map Prod.fst).reverse := by
  induction A using List.reverseRecOn generalizing nexti B with
  | nil =>
      rw [reverseShort_eq_bind, prev_eq h]
      rfl
  | append_singleton A m ih =>
      have hrest : reverseShort s (some m.1) = .ok (A.map Prod.fst).reverse := ih h.init
      rw [reverseShort_eq_bind, prev_eq h, List.getLast?_concat]
      change (m.1 :: ·) <$> reverseShort s (some m.1) = _
      rw [hrest, List.map_append, List.reverse_append]
      rfl

/-- The table has all that is before the index. -/
theorem reverseLong_some {n : Int} (h : CutAt s n A B) :
    reverseLong s (some n) = .ok (A.map Prod.fst).reverse := by
  have hA : ∀ i ∈ A.map Prod.fst, (! (some n).any fun n => decide (i ≥ n)) = true := by
    intro i hi
    obtain ⟨m, hm, rfl⟩ := List.mem_map.mp hi
    have := h.before hm
    simpa using this.2
  have hB : (B.map Prod.fst).takeWhile
      (fun i => ! (some n).any fun n => decide (i ≥ n)) = [] := by
    obtain ⟨rfl, -, -⟩ | ⟨valid, B', rfl⟩ := h.place
    · rfl
    · simp
  rw [reverseLong, byteIndices_eq, h.concat]
  simp only [Except.mapError, bind, Except.bind, List.map_append,
    List.takeWhile_append_of_pos hA, hB, List.append_nil]
  rfl

theorem reverseLong_none (s : Bytes) :
    reverseLong s none = .ok ((marks 1 true (chars s)).map Prod.fst).reverse := by
  have hall : ((marks 1 true (chars s)).map Prod.fst).takeWhile
      (fun i => ! (none : Option Int).any fun n => decide (i ≥ n)) =
        (marks 1 true (chars s)).map Prod.fst := by
    rw [List.takeWhile_eq_self_iff]
    intro i _
    rfl
  rw [reverseLong, byteIndices_eq]
  simp only [Except.mapError, bind, Except.bind, hall]
  rfl

/-- The indices of the string below the cut are those before it. -/
theorem filter_below (h : CutAt s (nexti.getD (s.length + 1)) A B) :
    ((marks 1 true (chars s)).map Prod.fst).filter
        (fun i : Int => decide (1 ≤ i ∧ i ≤ s.length ∧ ∀ n ∈ nexti, i < n)) = A.map Prod.fst := by
  have hbelow (i : Int) : (1 ≤ i ∧ i ≤ s.length ∧ ∀ n ∈ nexti, i < n) ↔
      1 ≤ i ∧ i < nexti.getD (s.length + 1) := by
    have hle := h.le_length
    cases nexti with
    | none =>
        simp only [Option.getD_none, Option.not_mem_none, false_implies, implies_true, and_true]
        omega
    | some n =>
        simp only [Option.getD_some, Option.mem_some_iff, forall_eq'] at hle ⊢
        omega
  simp only [hbelow]
  rw [h.concat, List.map_append, List.filter_append, List.filter_eq_self.mpr,
    List.filter_eq_nil_iff.mpr, List.append_nil]
  · intro i hi
    obtain ⟨m, hm, rfl⟩ := List.mem_map.mp hi
    have := h.not_before hm
    rw [decide_eq_true_eq]
    omega
  · intro i hi
    obtain ⟨m, hm, rfl⟩ := List.mem_map.mp hi
    rw [decide_eq_true_eq]
    exact h.before hm

/-- All the indices are in the string unless it ends in a stray byte. -/
theorem reverseLong_none_iff (h : CutAt s (s.length + 1) A B) :
    reverseLong s none = .ok (A.map Prod.fst).reverse ↔ ¬ EndsStray s := by
  rw [reverseLong_none, Except.ok.injEq, List.reverse_inj, ← (indices_marks s).stray]
  constructor
  · intro heq m hm
    have hmem : m.1 ∈ A.map Prod.fst := by
      rw [← heq]
      exact List.mem_map_of_mem hm
    obtain ⟨m', hm', heq'⟩ := List.mem_map.mp hmem
    have := h.before hm'
    omega
  · intro hin
    obtain ⟨rfl, -, -⟩ | ⟨valid, B', rfl⟩ := h.place
    · rw [h.concat, List.append_nil]
    · have := hin (s.length + 1, valid) (by rw [h.concat]; simp)
      simp at this

end Iteration

/-! ## The indices in reverse -/

/-- The indices of the string below `nexti` come in reverse order, unless all are asked
for of a long string that ends in a stray byte; and the two ways give the same unless all
are asked for of a string that ends so. -/
theorem byteIndicesReverse_iff {s : Bytes} {nexti : Option Int} {l : List (Int × Bool)}
    (hl : byteIndices s = .ok l) (hnexti : ∀ n ∈ nexti, n ∈ l.map Prod.fst) :
    (byteIndicesReverse s nexti = .ok ((l.map Prod.fst).filter
        fun i : Int => decide (1 ≤ i ∧ i ≤ s.length ∧ ∀ n ∈ nexti, i < n)).reverse ↔
      ¬ (nexti = none ∧ 200 ≤ s.length ∧ EndsStray s)) ∧
    (reverseShort s nexti = reverseLong s nexti ↔ ¬ (nexti = none ∧ EndsStray s)) := by
  obtain rfl : marks 1 true (chars s) = l := by
    have := (byteIndices_eq s).symm.trans hl
    exact Except.ok.inj this
  cases nexti with
  | some n =>
      obtain ⟨A, B, h⟩ := exists_cutAt_of_mem (hnexti n rfl)
      have hcut : CutAt s ((some n).getD (s.length + 1)) A B := h
      rw [filter_below hcut, byteIndicesReverse, reverseShort_eq hcut, reverseLong_some h]
      simp
  | none =>
      obtain ⟨A, B, h⟩ := exists_cutAt_end s
      have hcut : CutAt s ((none : Option Int).getD (s.length + 1)) A B := h
      rw [filter_below hcut, byteIndicesReverse, reverseShort_eq hcut]
      refine ⟨?_, ?_⟩
      · split_ifs with hlength
        · refine iff_of_true rfl ?_
          omega
        · rw [reverseLong_none_iff h]
          simp only [true_and, not_lt.mp hlength]
      · rw [eq_comm, reverseLong_none_iff h]
        simp only [true_and]

theorem byteIndicesReverse_two :
    byteIndices [0x41, 0x42] = .ok [(1, true), (2, true)] ∧
      byteIndicesReverse [0x41, 0x42] (some 2) = .ok [1] := by
  have hl : byteIndices [0x41, 0x42] = .ok [(1, true), (2, true)] :=
    byteIndicesFrom_of_some rfl
      (byteIndicesFrom_of_some rfl (byteIndicesFrom_of_none rfl))
  refine ⟨hl, ?_⟩
  rw [(byteIndicesReverse_iff hl (by simp)).1.mpr (by simp)]
  decide

/-- Two hundred bytes of which the last is a stray one. -/
def longStray : Bytes := List.replicate 199 0x41 ++ [0xFF]

/-- The indices in reverse begin with the one past the end. -/
theorem byteIndicesReverse_longStray :
    ∃ l, byteIndices longStray = .ok l ∧
      byteIndicesReverse longStray none ≠ .ok ((l.map Prod.fst).filter fun i : Int =>
        decide (1 ≤ i ∧ i ≤ longStray.length ∧ ∀ n ∈ (none : Option Int), i < n)).reverse := by
  have hwhole (k : ℕ) : Whole (List.replicate k 0x41) := by
    induction k with
    | zero => exact .nil
    | succ k ih => exact Whole.cons (show [(0x41 : UInt8)].length = charLength 0x41 from rfl) ih
  have hends : EndsStray longStray := ⟨_, 0xFF, rfl, hwhole 199, by decide⟩
  obtain ⟨A, B, h⟩ := exists_cutAt_end longStray
  have hcut : CutAt longStray ((none : Option Int).getD (longStray.length + 1)) A B := h
  have hlength : longStray.length = 200 := by
    rw [longStray, List.length_append, List.length_replicate, List.length_singleton]
  refine ⟨_, byteIndices_eq longStray, ?_⟩
  rw [filter_below hcut, byteIndicesReverse, if_neg (by omega), Ne, reverseLong_none_iff h]
  exact not_not.mpr hends

end LuaAttic.Utf8
