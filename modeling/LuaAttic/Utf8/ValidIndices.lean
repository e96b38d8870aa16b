import LuaAttic.Utf8.Validity

/-!
# Iterating over the valid characters

The iterator returns an index with a flag for what is before it.  Where it skips invalid
characters it asks for that flag as well as for a valid character at the index, so that
a valid character after a byte that cannot start one is skipped.
-/

namespace LuaAttic.Utf8

open LuaAttic.Lua LuaAttic.Support

/-! ## The modelled functions -/

/-- What the iteration still has in front of it. -/
def remaining (s : Bytes) (i : Option Int) : ℕ :=
  i.elim (s.length + 2) fun i => (s.length + 1 - i).toNat

theorem remaining_lt {s : Bytes} {i : Option Int} {j : Int} {valid : Bool}
    (h : nextRaw s i = .ok (some (j, valid))) : remaining s (some j) < remaining s i := by
  cases i with
  | none =>
      have hj : j = 1 := by
        simp only [nextRaw] at h
        split_ifs at h
        · cases h
        · cases h
          rfl
      simp only [remaining, Option.elim, hj]
      omega
  | some i =>
      have hlt := nextRaw_lt h
      simp only [remaining, Option.elim]
      omega

/-- `utf8.next_valid(s, i)` -/
def nextValid (s : Bytes) (i : Option Int) : Except Error (Option Int) :=
  match _h : nextRaw s i with
  | .error e => .error e
  | .ok none => .ok none
  | .ok (some (i, valid)) =>
      if ¬ valid ∨ ¬ isvalid s i then nextValid s (some i) else .ok (some i)
termination_by remaining s i
decreasing_by exact remaining_lt _h

theorem nextValid_of_none {s : Bytes} {i : Option Int} (h : nextRaw s i = .ok none) :
    nextValid s i = .ok none := by
  rw [nextValid]
  split <;> simp_all

theorem nextValid_of_some {s : Bytes} {i : Option Int} {j : Int} {valid : Bool}
    (h : nextRaw s i = .ok (some (j, valid))) :
    nextValid s i =
      if valid = true ∧ isvalid s j = true then .ok (some j) else nextValid s (some j) := by
  rw [nextValid]
  split
  · simp_all
  · simp_all
  · rename_i k v hk
    obtain ⟨rfl, rfl⟩ : j = k ∧ valid = v := by
      simpa using h.symm.trans hk
    simp only [← not_and_or, ite_not]

theorem nextValid_remaining_lt {s : Bytes} {i : Option Int} {j : Int}
    (h : nextValid s i = .ok (some j)) : remaining s (some j) < remaining s i := by
  -- along the loop, which goes forward with each character that it skips
  induction hn : remaining s i using Nat.strong_induction_on generalizing i with
  | _ n ih =>
      subst hn
      cases hraw : nextRaw s i with
      | error e =>
          rw [nextValid] at h
          split at h <;> simp_all
      | ok r =>
          cases r with
          | none =>
              rw [nextValid_of_none hraw] at h
              cases h
          | some m =>
              obtain ⟨k, valid⟩ := m
              have hlt := remaining_lt hraw
              rw [nextValid_of_some hraw] at h
              split_ifs at h
              · cases h
                exact hlt
              · exact (ih _ hlt h rfl).trans hlt

/-- `for i in utf8.next_valid, s, i`: what the loop runs through. -/
def validByteIndicesFrom (s : Bytes) (i : Option Int) : Except Error (List Int) :=
  match _h : nextValid s i with
  | .error e => .error e
  | .ok none => .ok []
  | .ok (some i) => do
      let rest ← validByteIndicesFrom s (some i)
      return i :: rest
termination_by remaining s i
decreasing_by exact nextValid_remaining_lt _h

/-- `utf8.valid_byte_indices(s)` -/
def validByteIndices (s : Bytes) : Except Error (List Int) :=
  validByteIndicesFrom s none

/-! ## What is skipped -/

section Loop

variable {s : Bytes} {i : Option Int}

theorem exists_of_byteIndicesFrom {j : Int} {valid : Bool} {l : List (Int × Bool)}
    (hraw : nextRaw s i = .ok (some (j, valid))) (h : byteIndicesFrom s i = .ok l) :
    ∃ l', byteIndicesFrom s (some j) = .ok l' ∧ l = (j, valid) :: l' := by
  cases hl : byteIndicesFrom s (some j) with
  | error e =>
      rw [byteIndicesFrom] at h
      split at h
      · simp_all
      · simp_all
      · rename_i k v hk
        obtain ⟨rfl, rfl⟩ : j = k ∧ valid = v := by
          simpa using hraw.symm.trans hk
        rw [hl] at h
        cases h
  | ok l' =>
      refine ⟨l', rfl, ?_⟩
      simpa using h.symm.trans (byteIndicesFrom_of_some hraw hl)

/-- One round of the loop. -/
theorem validByteIndicesFrom_eq_bind :
    validByteIndicesFrom s i = nextValid s i >>= fun r =>
      r.elim (.ok []) fun j => (j :: ·) <$> validByteIndicesFrom s (some j) := by
  rw [validByteIndicesFrom]
  split
  · rw [‹nextValid s i = _›]
    rfl
  · rw [‹nextValid s i = _›]
    rfl
  · rw [‹nextValid s i = _›]
    rfl

/-- The flag is asked for, and a valid character. -/
def isGood (s : Bytes) (m : Int × Bool) : Bool := m.2 && isvalid s m.1

/-- The loop runs through the good ones of the indices of all characters. -/
theorem validByteIndicesFrom_eq {l : List (Int × Bool)} (h : byteIndicesFrom s i = .ok l) :
    validByteIndicesFrom s i = .ok ((l.filter (isGood s)).map Prod.fst) := by
  induction hn : remaining s i using Nat.strong_induction_on generalizing i l with
  | _ n ih =>
      subst hn
      cases hraw : nextRaw s i with
      | error e =>
          rw [byteIndicesFrom] at h
          split at h <;> simp_all
      | ok r =>
          cases r with
          | none =>
              rw [byteIndicesFrom_of_none hraw] at h
              cases h
              rw [validByteIndicesFrom_eq_bind, nextValid_of_none hraw]
              rfl
          | some m =>
              obtain ⟨j, valid⟩ := m
              obtain ⟨l', hl', rfl⟩ := exists_of_byteIndicesFrom hraw h
              have hrest := ih _ (remaining_lt hraw) hl' rfl
              rw [validByteIndicesFrom_eq_bind, nextValid_of_some hraw]
              by_cases hgood : valid = true ∧ isvalid s j = true
              · have hfilter : isGood s (j, valid) = true := by
                  rwa [isGood, Bool.and_eq_true]
                rw [if_pos hgood, List.filter_cons_of_pos hfilter]
                change (j :: ·) <$> validByteIndicesFrom s (some j) = _
                rw [hrest]
                rfl
              · have hfilter : ¬ isGood s (j, valid) = true := by
                  rwa [isGood, Bool.and_eq_true]
                rw [if_neg hgood, List.filter_cons_of_neg hfilter,
                  ← validByteIndicesFrom_eq_bind, hrest]

end Loop

theorem validByteIndices_eq (s : Bytes) :
    validByteIndices s =
      .ok (((marks 1 true (chars s)).filter (isGood s)).map Prod.fst) :=
  validByteIndicesFrom_eq (byteIndices_eq s)

/-! ## Valid characters after stray bytes -/

/-- After whole characters comes a byte that cannot start one, and then a valid
character. -/
def StrayBeforeValid (s : Bytes) : Prop :=
  ∃ w c t, s = w ++ c :: t ∧ Whole w ∧ ¬ CanStart c ∧ isvalid t 1 = true

theorem not_strayBeforeValid_nil : ¬ StrayBeforeValid [] := by
  rintro ⟨w, c, t, heq, -⟩
  simp at heq

/-- A stray byte is the first piece or comes after it. -/
theorem FirstPiece.strayBeforeValid_iff {c : UInt8} {u t : Bytes} (h : FirstPiece c u t) :
    StrayBeforeValid (c :: u ++ t) ↔
      (startsChar (c :: u) = false ∧ isvalid t 1 = true) ∨ StrayBeforeValid t := by
  have hstarts : startsChar (c :: u) = false ↔ ¬ CanStart c := by simp [startsChar]
  rw [hstarts]
  constructor
  · rintro ⟨w, d, v, heq, hw, hd, hv⟩
    obtain ⟨rfl, rfl, rfl⟩ | ⟨w', hw', rfl⟩ := h.split heq hw
    · rw [h.eq_nil hd] at hv
      exact .inl ⟨hd, hv⟩
    · exact .inr ⟨w', d, v, rfl, hw', hd, hv⟩
  · rintro (⟨hc, hv⟩ | ⟨w, d, v, rfl, hw, hd, hv⟩)
    · obtain rfl := h.eq_nil hc
      exact ⟨[], c, t, rfl, .nil, hc, hv⟩
    · exact ⟨c :: u ++ w, d, v, by simp, h.append (by simp) hw, hd, hv⟩

/-- The iteration yields the index of a valid character with a bad flag exactly when one
comes after a stray byte. -/
theorem exists_mark_iff (pre t : Bytes) (valid : Bool) :
    (∃ m ∈ marks (pre.length + 1) valid (chars t),
      m.2 = false ∧ isvalid (pre ++ t) m.1 = true) ↔
      (valid = false ∧ isvalid t 1 = true) ∨ StrayBeforeValid t := by
  induction hn : t.length using Nat.strong_induction_on generalizing pre t valid with
  | _ n ih =>
      subst hn
      have hfirst := isvalid_append pre t
      cases t with
      | nil =>
          refine iff_of_false ?_ ?_
          · rintro ⟨m, hm, -, hvalid⟩
            rw [chars, pieces_nil, marks] at hm
            split at hm
            · exact List.not_mem_nil hm
            · rw [List.mem_singleton.mp hm, hfirst] at hvalid
              exact Bool.false_ne_true (isvalid_nil.symm.trans hvalid)
          · rintro (⟨-, h⟩ | h)
            · exact Bool.false_ne_true (isvalid_nil.symm.trans h)
            · exact not_strayBeforeValid_nil h
      | cons c r =>
          obtain ⟨u, t, heq, hpiece⟩ := exists_firstPiece c r
          rw [heq] at hfirst ih ⊢
          have hrest := ih t.length (by rw [List.length_append, List.length_cons]; omega)
            (pre ++ c :: u) t (startsChar (c :: u)) rfl
          rw [index_append, List.append_assoc] at hrest
          rw [hpiece.chars, marks, List.exists_mem_cons_iff, hrest, hfirst,
            hpiece.strayBeforeValid_iff]

/-- The valid characters are iterated over exactly when none comes after a byte that
cannot start a character. -/
theorem validByteIndices_iff (s : Bytes) :
    validByteIndices s =
        (byteIndices s).map (fun l => (l.filter fun m => isvalid s m.1).map Prod.fst) ↔
      ¬ StrayBeforeValid s := by
  have hsub : ((marks 1 true (chars s)).filter (isGood s)).Sublist
      ((marks 1 true (chars s)).filter fun m => isvalid s m.1) := by
    apply List.monotone_filter_right
    intro m hm
    rw [isGood, Bool.and_eq_true] at hm
    exact hm.2
  have hexists := exists_mark_iff [] s true
  have hstray : StrayBeforeValid s ↔ ∃ m ∈ marks 1 true (chars s),
      m.2 = false ∧ isvalid s m.1 = true := by
    refine (hexists.trans ?_).symm
    simp
  rw [validByteIndices_eq, byteIndices_eq, hstray]
  constructor
  · intro h
    have hlists := congrArg List.length (Except.ok.inj h)
    rw [List.length_map, List.length_map] at hlists
    have heq := hsub.eq_of_length hlists
    rintro ⟨m, hm, hflag, hvalid⟩
    have hmem : m ∈ (marks 1 true (chars s)).filter (isGood s) := by
      rw [heq]
      exact List.mem_filter.mpr ⟨hm, hvalid⟩
    have hgood := (List.mem_filter.mp hmem).2
    rw [isGood, hflag] at hgood
    exact Bool.false_ne_true hgood
  · intro h
    refine congrArg (fun l => Except.ok (List.map Prod.fst l)) ?_
    apply List.filter_congr
    intro m hm
    rw [isGood]
    cases hflag : m.2 with
    | true => rfl
    | false =>
        have : isvalid s m.1 = false := by
          rw [Bool.eq_false_iff]
          exact fun hvalid => h ⟨m, hm, hflag, hvalid⟩
        rw [this]
        rfl

/-- The valid character after a stray byte is skipped. -/
theorem validByteIndices_stray :
    validByteIndices [0xFF, 0x41] ≠
      (byteIndices [0xFF, 0x41]).map
        (fun l => (l.filter fun m => isvalid [0xFF, 0x41] m.1).map Prod.fst) := by
  have hchars : chars [0xFF, 0x41] = [[0xFF], [0x41]] := by
    change chars ([0xFF] ++ [0x41]) = _
    rw [chars_append (by decide), chars_last (by decide)]
  rw [validByteIndices_eq, byteIndices_eq, hchars]
  decide

end LuaAttic.Utf8
