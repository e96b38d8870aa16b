import LuaAttic.Utf8.Reverse

/-!
# Parts of a string by the indices of its characters

The indices of characters are those of the pieces of the string.  In a string of
well-formed characters the parts that are cut out consist of whole characters again.
-/

namespace LuaAttic.Utf8

open LuaAttic.Lua LuaAttic.Support

/-! ## The modelled functions -/

/-- The loop of `byte_index`: the byte index, and how many characters were counted. -/
def byteIndexLoop (targetCi : Int) : Int → List Int → Option Int × Int
  | ci, [] => (none, ci)
  | ci, i :: l =>
      let ci := ci + 1
      if ci = targetCi then (some i, ci) else byteIndexLoop targetCi ci l

/-- `utf8.byte_index(s, target_ci)` -/
def byteIndex (s : Bytes) (targetCi : Int) : Except Failure (Option Int) :=
  if targetCi < 1 then .ok none
  else do
    let l ← (byteIndices s).mapError .run
    let (i, ci) := byteIndexLoop targetCi 0 (l.map Prod.fst)
    if i.isSome then return i
    else if targetCi > ci then return none
    else throw (.message "invalid index")

/-- The loop of `char_index`. -/
def charIndexLoop (targetI : Int) : Int → List Int → Option Int
  | _, [] => none
  | ci, i :: l =>
      let ci := ci + 1
      if i = targetI then some ci else charIndexLoop targetI ci l

/-- `utf8.char_index(s, target_i)` -/
def charIndex (s : Bytes) (targetI : Int) : Except Failure (Option Int) :=
  if targetI < 1 ∨ targetI > s.length then .ok none
  else do
    let l ← (byteIndices s).mapError .run
    let ci := charIndexLoop targetI 0 (l.map Prod.fst)
    if ci.isSome then return ci else throw (.message "invalid index")

/-- The loop of `sub`: the byte indices of the start and of the end. -/
def subLoop (startCi : Int) (endCi : Option Int) :
    Int → Option Int → Option Int → List Int → Option Int × Option Int
  | _, startI, endI, [] => (startI, endI)
  | ci, startI, endI, i :: l =>
      let ci := ci + 1
      let startI' := if ci = startCi then some i else startI
      if ci = startCi ∧ endI.isSome then (startI', endI)
      else if endCi.any fun endCi => decide (ci = endCi + 1) then (startI', some (i - 1))
      else subLoop startCi endCi ci startI' endI l

/-- `utf8.sub(s, start_ci, end_ci)` -/
def utf8Sub (s : Bytes) (startCi : Int) (endCi : Option Int) : Except Failure Bytes :=
  if ¬ startCi ≥ 1 then throw (.message "assertion failed!")
  else if ¬ endCi.all fun endCi => decide (endCi ≥ 0) then throw (.message "assertion failed!")
  else if endCi.any fun endCi => decide (startCi > endCi) then return []
  else do
    let l ← (byteIndices s).mapError .run
    match subLoop startCi endCi 0 none none (l.map Prod.fst) with
    | (none, _) => return []
    | (some startI, endI) => return endI.elim (subFrom s startI) fun endI => sub s startI endI

/-! ## Places of characters -/

/-- The indices of pieces, from the index of the first one on. -/
def places (i : Int) : List Bytes → List Int
  | [] => []
  | p :: ps => i :: places (i + p.length) ps

theorem length_places (i : Int) (ps : List Bytes) : (places i ps).length = ps.length := by
  induction ps generalizing i with
  | nil => rfl
  | cons p ps ih => rw [places, List.length_cons, List.length_cons, ih]

theorem places_getElem? (i : Int) (ps : List Bytes) (j : ℕ) :
    (places i ps)[j]? = if j < ps.length then some (i + (ps.take j).flatten.length) else none := by
  induction ps generalizing i j with
  | nil => simp [places]
  | cons p ps ih =>
      cases j with
      | zero => simp [places]
      | succ j =>
          rw [places, List.getElem?_cons_succ, ih, List.take_succ_cons, List.flatten_cons,
            List.length_append]
          simp only [List.length_cons, Nat.add_lt_add_iff_right, Nat.cast_add, add_assoc]

/-- Strings of well-formed characters, those that encode U+FFFE or U+FFFF among them. -/
def WellFormedString (s : Bytes) : Prop :=
  ∃ ps : List Bytes, (∀ p ∈ ps, WellFormed p) ∧ s = ps.flatten

section Characters

variable {ps : List Bytes}

theorem chars_flatten (h : ∀ p ∈ ps, WellFormed p) : chars ps.flatten = ps := by
  apply pieces_flatten
  intro p hp
  obtain ⟨a, rest, rfl, -, hlen⟩ := (h p hp).lead
  exact hlen

/-- Every character of a well-formed string is yielded at its place. -/
theorem map_marks_flatten (h : ∀ p ∈ ps, WellFormed p) :
    (marks 1 true (chars ps.flatten)).map Prod.fst = places 1 ps := by
  rw [chars_flatten h]
  generalize (1 : Int) = i
  induction ps generalizing i with
  | nil => rfl
  | cons p ps ih =>
      obtain ⟨hp, hps⟩ := List.forall_mem_cons.mp h
      obtain ⟨a, rest, rfl, hstart, -⟩ := hp.lead
      have hflag : startsChar (a :: rest) = true := by simpa [startsChar] using hstart
      rw [marks, hflag, List.map_cons, ih hps, places]

theorem len_flatten (h : ∀ p ∈ ps, WellFormed p) : len ps.flatten = .ok ps.length := by
  rw [len_of_byteIndices (byteIndices_eq _), ← length_places 1 ps, ← map_marks_flatten h,
    List.length_map]

theorem nodup_places (h : ∀ p ∈ ps, WellFormed p) : (places 1 ps).Nodup := by
  rw [← map_marks_flatten h]
  exact (indices_marks _).increasing.imp ne_of_lt

/-- The place of a character is in the string. -/
theorem place_le (h : ∀ p ∈ ps, WellFormed p) {j : ℕ} (hj : j < ps.length) :
    (ps.take j).flatten.length + 1 ≤ ps.flatten.length := by
  have hall : ps.flatten = (ps.take j).flatten ++ (ps[j] ++ (ps.drop (j + 1)).flatten) := by
    rw [← List.flatten_cons, ← List.drop_eq_getElem_cons hj, ← List.flatten_append,
      List.take_append_drop]
  have hlength := congrArg List.length hall
  obtain ⟨a, rest, heq, -, -⟩ := (h ps[j] (List.getElem_mem hj)).lead
  have hpos : 0 < ps[j].length := by
    rw [heq]
    exact Nat.succ_pos _
  simp only [List.length_append] at hlength
  omega

end Characters

/-! ## The loops -/

/-- The characters are counted up to the one that is asked for. -/
theorem byteIndexLoop_eq {t ci : Int} (h : ci < t) (l : List Int) :
    byteIndexLoop t ci l = (l[(t - ci - 1).toNat]?, min t (ci + l.length)) := by
  induction l generalizing ci with
  | nil =>
      rw [byteIndexLoop, List.getElem?_nil, List.length_nil, Nat.cast_zero, add_zero,
        min_eq_right h.le]
  | cons i l ih =>
      rw [byteIndexLoop, List.length_cons]
      by_cases hci : ci + 1 = t
      · have hzero : (t - ci - 1).toNat = 0 := by omega
        have hmin : min t (ci + (l.length + 1 : ℕ)) = ci + 1 := by omega
        rw [if_pos hci, hzero, List.getElem?_cons_zero, hmin]
      · have hsucc : (t - ci - 1).toNat = (t - (ci + 1) - 1).toNat + 1 := by omega
        have hmin : min t (ci + (l.length + 1 : ℕ)) = min t (ci + 1 + l.length) := by omega
        rw [if_neg hci, ih (by omega), hsucc, List.getElem?_cons_succ, hmin]

theorem charIndexLoop_of_getElem {x : Int} {l : List Int} (h : l.Nodup) {j : ℕ}
    (hj : l[j]? = some x) (ci : Int) : charIndexLoop x ci l = some (ci + 1 + j) := by
  induction l generalizing j ci with
  | nil => simp at hj
  | cons i l ih =>
      obtain ⟨hi, hl⟩ := List.nodup_cons.mp h
      rw [charIndexLoop]
      cases j with
      | zero =>
          rw [List.getElem?_cons_zero, Option.some_inj] at hj
          rw [if_pos hj, Nat.cast_zero, add_zero]
      | succ j =>
          rw [List.getElem?_cons_succ] at hj
          have hne : ¬ i = x := by
            rintro rfl
            exact hi (List.mem_of_getElem? hj)
          rw [if_neg hne, ih hl hj]
          push_cast
          ring_nf

theorem getElem_of_charIndexLoop {x ci c : Int} {l : List Int}
    (h : charIndexLoop x ci l = some c) : ∃ j : ℕ, c = ci + 1 + j ∧ l[j]? = some x := by
  induction l generalizing ci with
  | nil => cases h
  | cons i l ih =>
      rw [charIndexLoop] at h
      split at h
      · exact ⟨0, by simpa using h.symm, by simpa using ‹i = x›⟩
      · obtain ⟨j, rfl, hj⟩ := ih h
        exact ⟨j + 1, by push_cast; ring, hj⟩

/-- The start and the end are found in one pass, the end behind the start. -/
theorem subLoop_eq {a ci : Int} {k startI : Option Int} (hk : ∀ e ∈ k, a ≤ e ∧ ci ≤ e)
    (hstart : ci < a → startI = none) (l : List Int) :
    subLoop a k ci startI none l =
      (if ci < a then l[(a - ci - 1).toNat]? else startI,
        k.bind fun e => l[(e - ci).toNat]?.map (· - 1)) := by
  induction l generalizing ci startI with
  | nil =>
      rw [subLoop]
      split_ifs with hci
      · rw [hstart hci]
        cases k <;> rfl
      · cases k <;> rfl
  | cons i l ih =>
      have hbreak : ¬ (ci + 1 = a ∧ (none : Option Int).isSome = true) := by simp
      rw [subLoop]
      simp only [if_neg hbreak]
      by_cases hend : k.any (fun e => decide (ci + 1 = e + 1)) = true
      · -- the character after the last one
        obtain ⟨e, rfl, he⟩ := (Option.any_eq_true _ _).mp hend
        have hbounds := hk e rfl
        rw [decide_eq_true_eq] at he
        have hzero : (e - ci).toNat = 0 := by omega
        rw [if_pos hend, if_neg (by omega), if_neg (by omega), Option.bind_some, hzero]
        rfl
      · have hlater (e : Int) (he : e ∈ k) : a ≤ e ∧ ci + 1 ≤ e := by
          have hbounds := hk e he
          have hne : ¬ ci + 1 = e + 1 := by
            intro heq
            apply hend
            rw [he, Option.any_some, decide_eq_true_eq]
            exact heq
          omega
        have hnext : ci + 1 < a → (if ci + 1 = a then some i else startI) = none := by
          intro hlt
          rw [if_neg (by omega)]
          exact hstart (by omega)
        rw [if_neg hend, ih hlater hnext]
        refine Prod.ext ?_ ?_
        · by_cases ha : ci + 1 = a
          · have hzero : (a - ci - 1).toNat = 0 := by omega
            simp only [if_neg (show ¬ ci + 1 < a by omega), if_pos ha,
              if_pos (show ci < a by omega), hzero, List.getElem?_cons_zero]
          · by_cases hlt : ci < a
            · have hsucc : (a - ci - 1).toNat = (a - (ci + 1) - 1).toNat + 1 := by omega
              simp only [if_pos (show ci + 1 < a by omega), if_pos hlt, hsucc,
                List.getElem?_cons_succ]
            · simp only [if_neg (show ¬ ci + 1 < a by omega), if_neg ha, if_neg hlt]
        · cases k with
          | none => rfl
          | some e =>
              have hbounds := hlater e rfl
              have hsucc : (e - ci).toNat = (e - (ci + 1)).toNat + 1 := by omega
              simp only [Option.bind_some, hsucc, List.getElem?_cons_succ]

/-! ## Parts of well-formed strings -/

section Parts

variable {ps : List Bytes}

theorem take_flatten (ps : List Bytes) (j : ℕ) :
    ps.flatten.take (ps.take j).flatten.length = (ps.take j).flatten := by
  have hall : ps.flatten = (ps.take j).flatten ++ (ps.drop j).flatten := by
    rw [← List.flatten_append, List.take_append_drop]
  rw [hall, List.take_left]

theorem drop_flatten (ps : List Bytes) (j : ℕ) :
    ps.flatten.drop (ps.take j).flatten.length = (ps.drop j).flatten := by
  have hall : ps.flatten = (ps.take j).flatten ++ (ps.drop j).flatten := by
    rw [← List.flatten_append, List.take_append_drop]
  rw [hall, List.drop_left]

/-- From the place of a character to the end. -/
theorem subFrom_place (ps : List Bytes) (j : ℕ) :
    subFrom ps.flatten (1 + (ps.take j).flatten.length) = (ps.drop j).flatten := by
  have hto : (1 + (ps.take j).flatten.length - 1 : Int).toNat = (ps.take j).flatten.length := by
    omega
  rw [subFrom_drop _ (by omega), hto, drop_flatten]

/-- From the place of a character to the place before another one. -/
theorem sub_place (ps : List Bytes) {i j : ℕ} (h : i ≤ j) :
    sub ps.flatten (1 + (ps.take i).flatten.length) (1 + (ps.take j).flatten.length - 1) =
      ((ps.take j).drop i).flatten := by
  have hfrom : (1 + (ps.take i).flatten.length - 1 : Int).toNat =
      ((ps.take j).take i).flatten.length := by
    rw [List.take_take, min_eq_left h]
    omega
  have hto : (1 + (ps.take j).flatten.length - 1 : Int).toNat = (ps.take j).flatten.length := by
    omega
  rw [sub_eq_take_drop _ (by omega) (by omega), hfrom, hto, take_flatten, drop_flatten]

/-- The characters from the one index up to the other. -/
theorem utf8Sub_eq (h : ∀ p ∈ ps, WellFormed p) {a : Int} (ha : 1 ≤ a) {k : Option Int}
    (hk : ∀ e ∈ k, 0 ≤ e) :
    utf8Sub ps.flatten a k =
      .ok ((k.elim ps fun e => ps.take e.toNat).drop (a - 1).toNat).flatten := by
  have hpositive : k.all (fun e => decide (e ≥ 0)) = true := by
    rw [Option.all_eq_true]
    intro e he
    exact decide_eq_true (hk e he)
  rw [utf8Sub, if_neg (by omega), if_neg (not_not.mpr hpositive)]
  by_cases hempty : k.any (fun e => decide (a > e)) = true
  · obtain ⟨e, rfl, he⟩ := (Option.any_eq_true _ _).mp hempty
    rw [decide_eq_true_eq] at he
    have hnil : (ps.take e.toNat).drop (a - 1).toNat = [] := by
      rw [List.drop_eq_nil_iff, List.length_take]
      have := hk e rfl
      omega
    rw [if_pos hempty, Option.elim_some, hnil]
    rfl
  · have hle (e : Int) (he : e ∈ k) : a ≤ e ∧ 0 ≤ e := by
      refine ⟨?_, hk e he⟩
      by_contra hlt
      apply hempty
      rw [he, Option.any_some, decide_eq_true_eq]
      omega
    have hloop := subLoop_eq hle (fun _ => rfl) (places 1 ps)
    rw [if_pos (by omega), sub_zero, places_getElem?] at hloop
    rw [if_neg hempty, byteIndices_eq]
    simp only [Except.mapError, bind, Except.bind, map_marks_flatten h, hloop]
    by_cases hin : (a - 1).toNat < ps.length
    · rw [if_pos hin]
      cases k with
      | none => exact congrArg Except.ok (subFrom_place ps _)
      | some e =>
          have hbounds := hle e rfl
          simp only [Option.bind_some, sub_zero, places_getElem?, Option.elim_some]
          by_cases hend : e.toNat < ps.length
          · rw [if_pos hend]
            exact congrArg Except.ok (sub_place ps (by omega))
          · have htake : ps.take e.toNat = ps := List.take_of_length_le (not_lt.mp hend)
            rw [if_neg hend, htake]
            exact congrArg Except.ok (subFrom_place ps _)
    · have hnil : (k.elim ps fun e => ps.take e.toNat).drop (a - 1).toNat = [] := by
        rw [List.drop_eq_nil_iff]
        cases k with
        | none => exact not_lt.mp hin
        | some e =>
            rw [Option.elim_some, List.length_take]
            omega
      rw [if_neg hin, hnil]
      rfl

theorem byteIndex_eq (h : ∀ p ∈ ps, WellFormed p) {j : ℕ} (hj : j < ps.length) :
    byteIndex ps.flatten (j + 1) = .ok (some (1 + (ps.take j).flatten.length)) := by
  have hpred : ((j + 1 : Int) - 0 - 1).toNat = j := by omega
  have hloop := byteIndexLoop_eq (show (0 : Int) < j + 1 by omega) (places 1 ps)
  rw [hpred, places_getElem?, if_pos hj] at hloop
  rw [byteIndex, if_neg (by omega), byteIndices_eq]
  simp only [Except.mapError, bind, Except.bind, map_marks_flatten h, hloop]
  rfl

theorem charIndex_eq (h : ∀ p ∈ ps, WellFormed p) {j : ℕ} (hj : j < ps.length) :
    charIndex ps.flatten (1 + (ps.take j).flatten.length) = .ok (some (j + 1)) := by
  have hplace : (places 1 ps)[j]? = some (1 + (ps.take j).flatten.length : Int) := by
    rw [places_getElem?, if_pos hj]
  have hloop := charIndexLoop_of_getElem (nodup_places h) hplace 0
  have hle := place_le h hj
  rw [charIndex, if_neg (by omega), byteIndices_eq]
  simp only [Except.mapError, bind, Except.bind, map_marks_flatten h, hloop]
  rw [zero_add, add_comm (1 : Int) j]
  rfl

/-- Only the places of characters have an index. -/
theorem exists_of_charIndex (h : ∀ p ∈ ps, WellFormed p) {i ci : Int}
    (hi : charIndex ps.flatten i = .ok (some ci)) :
    ∃ j : ℕ, j < ps.length ∧ ci = j + 1 ∧ i = 1 + (ps.take j).flatten.length := by
  rw [charIndex, byteIndices_eq] at hi
  split at hi
  · cases hi
  · simp only [Except.mapError, bind, Except.bind, map_marks_flatten h] at hi
    cases hloop : charIndexLoop i 0 (places 1 ps) with
    | none =>
        rw [hloop] at hi
        cases hi
    | some c =>
        obtain ⟨j, rfl, hj⟩ := getElem_of_charIndexLoop hloop
        rw [hloop] at hi
        have hci : 0 + 1 + (j : Int) = ci := Option.some.inj (Except.ok.inj hi)
        rw [places_getElem?] at hj
        split at hj
        · refine ⟨j, ‹_›, by omega, (Option.some.inj hj).symm⟩
        · cases hj

end Parts

/-- Cutting a string by the indices of its characters: two parts that meet give the
string, a part has as many characters as it is asked for, and the two kinds of indices
correspond. -/
structure Splits (s : Bytes) (n : Int) : Prop where
  len : len s = .ok n
  concat : ∀ k, 0 ≤ k → ∃ l r, utf8Sub s 1 (some k) = .ok l ∧ utf8Sub s (k + 1) none = .ok r ∧
    l ++ r = s
  partLen : ∀ a k, 1 ≤ a → 0 ≤ k → ∃ t, utf8Sub s a (some k) = .ok t ∧
    Utf8.len t = .ok (max 0 (min k n - a + 1))
  charOfByte : ∀ ci, 1 ≤ ci → ci ≤ n → ∃ i, byteIndex s ci = .ok (some i) ∧
    charIndex s i = .ok (some ci)
  byteOfChar : ∀ i ci, charIndex s i = .ok (some ci) → 1 ≤ ci ∧ ci ≤ n ∧
    byteIndex s ci = .ok (some i)

theorem splits_of_wellFormed {s : Bytes} (h : WellFormedString s) : ∃ n, Splits s n := by
  obtain ⟨ps, hps, rfl⟩ := h
  refine ⟨ps.length, len_flatten hps, ?_, ?_, ?_, ?_⟩
  · intro k hk
    have hleft := utf8Sub_eq hps le_rfl (k := some k) (by simpa using hk)
    have hright := utf8Sub_eq hps (a := k + 1) (by omega) (k := none) (by simp)
    refine ⟨_, _, hleft, hright, ?_⟩
    have hk' : (k + 1 - 1 : Int).toNat = k.toNat := by omega
    rw [hk', ← List.flatten_append]
    congr 1
    exact List.take_append_drop _ _
  · intro a k ha hk
    have hpart := utf8Sub_eq hps ha (k := some k) (by simpa using hk)
    refine ⟨_, hpart, ?_⟩
    have hsub : ∀ p ∈ (ps.take k.toNat).drop (a - 1).toNat, WellFormed p := fun p hp =>
      hps p (List.mem_of_mem_take (List.mem_of_mem_drop hp))
    have hlength := len_flatten hsub
    rw [List.length_drop, List.length_take] at hlength
    refine hlength.trans (congrArg Except.ok ?_)
    omega
  · intro ci hpos hle
    obtain ⟨j, rfl⟩ : ∃ j : ℕ, ci = j + 1 := ⟨(ci - 1).toNat, by omega⟩
    have hj : j < ps.length := by omega
    exact ⟨_, byteIndex_eq hps hj, charIndex_eq hps hj⟩
  · intro i ci hi
    obtain ⟨j, hj, rfl, rfl⟩ := exists_of_charIndex hps hi
    exact ⟨by omega, by omega, byteIndex_eq hps hj⟩

theorem splits_twoCharacters : ∃ n, Splits [0x41, 0xC3, 0xA9] n := by
  apply splits_of_wellFormed
  refine ⟨[[0x41], [0xC3, 0xA9]], ?_, rfl⟩
  have hone : WellFormed [0x41] := ⟨[(0x00, 0x7F)], by simp [wellFormedRows], by simp⟩
  have htwo : WellFormed [0xC3, 0xA9] :=
    ⟨[(0xC2, 0xDF), (0x80, 0xBF)], by simp [wellFormedRows], by simp⟩
  simp [hone, htwo]

end LuaAttic.Utf8
