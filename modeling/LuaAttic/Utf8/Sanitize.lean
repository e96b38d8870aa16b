import LuaAttic.Utf8.Resync

/-!
# Sanitizing

`replace` goes through the pieces of a string and puts a replacement for those that a
function names; the others are copied when the next replacement comes, or at the end.
`sanitize` replaces the pieces that are not valid characters.  The pieces are as long as
their first bytes tell, so that a valid character inside of one is lost with it.
-/

namespace LuaAttic.Utf8

open LuaAttic.Lua LuaAttic.Support

/-! ## The modelled functions -/

/-- What replaces a character of the string, by the ends of the character. -/
abbrev ReplaceFunction := Bytes → Int → Int → Option Bytes

/-- A function or a table. -/
inductive Replacement
  | function (f : ReplaceFunction)
  | table (t : Bytes → Option Bytes)

/-- `table_lookup(s, i, j, t)` -/
def tableLookup (s : Bytes) (i j : Int) (t : Bytes → Option Bytes) : Option Bytes :=
  t (sub s i j)

/-- One round of the loop: what is collected, and the index after the last replacement. -/
def replaceStep (s : Bytes) (f : ReplaceFunction) (st : List Bytes × Int) (m : Int × Bool) :
    Except Error (List Bytes × Int) := do
  let (t, lasti) := st
  let i := m.1
  let nexti := ((← nextRaw s (some i)).map Prod.fst).getD (s.length + 1)
  match f s i (nexti - 1) with
  | some repl => return (t ++ [sub s lasti (i - 1), repl], nexti)
  | none => return (t, lasti)

def replaceWith (s : Bytes) (f : ReplaceFunction) : Except Error Bytes :=
  if s = [] then .ok s
  else do
    let l ← byteIndices s
    let (t, lasti) ← l.foldlM (replaceStep s f) ([], 1)
    return (t ++ [subFrom s lasti]).flatten

/-- `utf8.replace(s, f)` -/
def replace (s : Bytes) : Replacement → Except Error Bytes
  | .table t => replaceWith s fun s i j => tableLookup s i j t
  | .function f => replaceWith s f

/-- `replace_invalid(s, i, j, repl_char)` -/
def replaceInvalid (s : Bytes) (i _j : Int) (replChar : Bytes) : Option Bytes :=
  if ¬ isvalid s i then some replChar else none

/-- `utf8.sanitize(s, repl_char)` -/
def sanitize (s : Bytes) (replChar : Option Bytes) : Except Error Bytes :=
  let replChar := replChar.getD [0xEF, 0xBF, 0xBD]
  replace s (.function fun s i j => replaceInvalid s i j replChar)

/-! ## What is replaced -/

/-- The pieces from an index on with their replacements, and that of the index past the
end where it is yielded. -/
def replaced (s : Bytes) (f : ReplaceFunction) (i : Int) (valid : Bool) : List Bytes → Bytes
  | [] => if valid then [] else (f s i (i - 1)).getD []
  | p :: ps =>
      (f s i (i + p.length - 1)).getD p ++ replaced s f (i + p.length) (startsChar p) ps

/-- After a piece comes the next one, or the end of the string. -/
theorem FirstPiece.nextRaw_eq {c : UInt8} {u t : Bytes} (h : FirstPiece c u t) (pre : Bytes) :
    ∃ r, nextRaw (pre ++ (c :: u ++ t)) (some (pre.length + 1)) = .ok r ∧
      (r.map Prod.fst).getD ((pre ++ (c :: u ++ t)).length + 1) =
        pre.length + 1 + (c :: u).length := by
  have hi : (pre.length + 1 : Int) ≤ (pre ++ (c :: u ++ t)).length := by
    simp only [List.length_append, List.length_cons]
    omega
  refine ⟨_, nextRaw_of_byte hi (byte_append pre c (u ++ t)), ?_⟩
  have hlength : ((pre ++ (c :: u ++ t)).length : Int) =
      pre.length + (c :: u).length + t.length := by
    simp only [List.length_append]
    push_cast
    ring
  rw [hlength]
  by_cases hc : CanStart c
  · rw [if_pos hc]
    obtain hwhole | ⟨rfl, hlast⟩ := h.whole
    · split_ifs with hend
      · simp only [Option.map_none, Option.getD_none]
        omega
      · simp only [Option.map_some, Option.getD_some]
        omega
    · rw [if_pos (by rw [List.length_nil]; omega)]
      simp only [Option.map_none, Option.getD_none, List.length_nil]
      omega
  · rw [if_neg hc]
    have hone := charLength_of_not_canStart hc
    have hlen : (c :: u).length = 1 := by
      have := h.whole
      rw [List.length_cons] at this ⊢
      omega
    simp only [Option.map_some, Option.getD_some, hlen, Nat.cast_one]

theorem replaceStep_eq {s : Bytes} {i n : Int} {r : Option (Int × Bool)} {valid : Bool}
    (f : ReplaceFunction) (T : List Bytes) (lasti : Int)
    (h : nextRaw s (some i) = .ok r) (hn : (r.map Prod.fst).getD (s.length + 1) = n) :
    replaceStep s f (T, lasti) (i, valid) = .ok
      ((f s i (n - 1)).elim (T, lasti) fun repl => (T ++ [sub s lasti (i - 1), repl], n)) := by
  simp only [replaceStep, h, bind, Except.bind, hn]
  split <;> simp_all [pure, Except.pure]

theorem sub_before (pre t : Bytes) (q : ℕ) :
    sub (pre ++ t) (q + 1) (pre.length + 1 - 1) = pre.drop q := by
  have hto : (pre.length + 1 - 1 : Int).toNat = pre.length := by omega
  have hfrom : (q + 1 - 1 : Int).toNat = q := by omega
  rw [sub_eq_take_drop _ (by omega) (by omega), hto, hfrom, List.take_left]

theorem subFrom_succ (s : Bytes) (q : ℕ) : subFrom s (q + 1) = s.drop q := by
  have hfrom : (q + 1 - 1 : Int).toNat = q := by omega
  rw [subFrom_drop _ (by omega), hfrom]

/-- The loop over the rest of the string.  What comes before is collected up to the last
replacement, and the rest of it is still to be copied. -/
theorem foldlM_replaceStep (f : ReplaceFunction) (pre t : Bytes) (valid : Bool)
    (T : List Bytes) {q : ℕ} (hq : q ≤ pre.length) :
    ∃ T' lasti, (marks (pre.length + 1) valid (chars t)).foldlM
        (replaceStep (pre ++ t) f) (T, (q + 1 : Int)) = .ok (T', lasti) ∧
      (T' ++ [subFrom (pre ++ t) lasti]).flatten =
        T.flatten ++ pre.drop q ++
          replaced (pre ++ t) f (pre.length + 1) valid (chars t) := by
  induction hn : t.length using Nat.strong_induction_on generalizing pre t valid T q with
  | _ n ih =>
      subst hn
      cases t with
      | nil =>
          rw [chars, pieces_nil, marks, replaced]
          cases valid with
          | true =>
              refine ⟨T, q + 1, rfl, ?_⟩
              rw [subFrom_succ]
              simp
          | false =>
              -- the index past the end
              have hpast : nextRaw (pre ++ []) (some (pre.length + 1)) = .ok none :=
                nextRaw_past (by simp)
              have hend : (((none : Option (Int × Bool)).map Prod.fst).getD
                  ((pre ++ []).length + 1) : Int) = pre.length + 1 := by simp
              rw [if_neg Bool.false_ne_true, if_neg Bool.false_ne_true, List.foldlM_cons,
                replaceStep_eq f T (q + 1) hpast hend, sub_before]
              cases f (pre ++ []) (pre.length + 1) (pre.length + 1 - 1) with
              | none =>
                  refine ⟨T, q + 1, rfl, ?_⟩
                  rw [subFrom_succ]
                  simp
              | some repl =>
                  refine ⟨T ++ [pre.drop q, repl], pre.length + 1, rfl, ?_⟩
                  rw [subFrom_succ]
                  simp
      | cons c r =>
          obtain ⟨u, t, heq, hpiece⟩ := exists_firstPiece c r
          obtain ⟨next, hnext, hat⟩ := hpiece.nextRaw_eq pre
          have hlt : t.length < (c :: r).length := by
            rw [heq, List.length_append, List.length_cons]
            omega
          rw [heq, hpiece.chars, marks, replaced, List.foldlM_cons,
            replaceStep_eq f T (q + 1) hnext hat]
          cases hf : f (pre ++ (c :: u ++ t)) (pre.length + 1)
              (pre.length + 1 + (c :: u).length - 1) with
          | none =>
              obtain ⟨T', lasti, hloop, hall⟩ := ih _ hlt (pre ++ c :: u) t (startsChar (c :: u))
                T (q := q) (by rw [List.length_append]; omega) rfl
              rw [index_append, List.append_assoc] at hloop hall
              refine ⟨T', lasti, hloop, ?_⟩
              rw [hall, List.drop_append_of_le_length hq]
              simp
          | some repl =>
              obtain ⟨T', lasti, hloop, hall⟩ := ih _ hlt (pre ++ c :: u) t (startsChar (c :: u))
                (T ++ [pre.drop q, repl]) (q := (pre ++ c :: u).length) le_rfl rfl
              rw [index_append, List.append_assoc] at hloop hall
              refine ⟨T', lasti, ?_, ?_⟩
              · rw [← sub_before pre (c :: u ++ t) q] at hloop
                exact hloop
              · rw [hall]
                simp

theorem replaceWith_eq (s : Bytes) (f : ReplaceFunction) :
    replaceWith s f = .ok (replaced s f 1 true (chars s)) := by
  by_cases hs : s = []
  · subst hs
    rw [replaceWith, if_pos rfl, chars, pieces_nil]
    rfl
  · obtain ⟨T, lasti, hloop, hall⟩ := foldlM_replaceStep f [] s true [] le_rfl
    have hloop' : (marks 1 true (chars s)).foldlM (replaceStep s f) ([], 1) = .ok (T, lasti) :=
      hloop
    have hall' : (T ++ [subFrom s lasti]).flatten = replaced s f 1 true (chars s) := hall
    rw [replaceWith, if_neg hs, byteIndices_eq, ← hall']
    simp only [bind, Except.bind, hloop']
    rfl

/-! ## What is sanitized -/

/-- The pieces that are kept, with gaps where a replacement comes. -/
def gaps (valid : Bool) : List Bytes → List (Option Bytes)
  | [] => if valid then [] else [none]
  | p :: ps => (if isvalid p 1 then some p else none) :: gaps (startsChar p) ps

theorem filterMap_gaps (valid : Bool) (ps : List Bytes) :
    (gaps valid ps).filterMap id = ps.filter fun p => isvalid p 1 := by
  induction ps generalizing valid with
  | nil => cases valid <;> rfl
  | cons p ps ih =>
      rw [gaps, List.filter_cons, ← ih (startsChar p)]
      cases isvalid p 1 <;> rfl

/-- The replacements of invalid pieces, from the start of a piece on. -/
theorem replaced_replaceInvalid (r pre t : Bytes) (valid : Bool) :
    replaced (pre ++ t) (fun s i j => replaceInvalid s i j r) (pre.length + 1) valid (chars t) =
      ((gaps valid (chars t)).map fun p => p.getD r).flatten := by
  induction hn : t.length using Nat.strong_induction_on generalizing pre t valid with
  | _ n ih =>
      subst hn
      have hfirst := isvalid_append pre t
      cases t with
      | nil =>
          rw [chars, pieces_nil, replaced, gaps, replaceInvalid, hfirst, isvalid_nil]
          cases valid <;> simp
      | cons c v =>
          obtain ⟨u, t, heq, hpiece⟩ := exists_firstPiece c v
          have hlt : t.length < (c :: v).length := by
            rw [heq, List.length_append, List.length_cons]
            omega
          have hrest := ih _ hlt (pre ++ c :: u) t (startsChar (c :: u)) rfl
          rw [index_append, List.append_assoc] at hrest
          rw [heq] at hfirst ⊢
          rw [hpiece.chars, replaced, gaps, hrest, replaceInvalid, hfirst, hpiece.isvalid_eq,
            List.map_cons, List.flatten_cons]
          cases isvalid (c :: u) 1 <;> rfl

theorem sanitize_eq (s r : Bytes) :
    sanitize s (some r) = .ok (((gaps true (chars s)).map fun p => p.getD r).flatten) := by
  have hall := replaced_replaceInvalid r [] s true
  change replaceWith s _ = _
  rw [replaceWith_eq, ← hall]
  rfl

theorem Valid.append {s t : Bytes} (hs : Valid s) (ht : Valid t) : Valid (s ++ t) := by
  obtain ⟨ps, hps, rfl⟩ := hs
  obtain ⟨qs, hqs, rfl⟩ := ht
  refine ⟨ps ++ qs, ?_, List.flatten_append.symm⟩
  intro p hp
  exact (List.mem_append.mp hp).elim (hps p) (hqs p)

theorem valid_flatten {ss : List Bytes} (h : ∀ s ∈ ss, Valid s) : Valid ss.flatten := by
  induction ss with
  | nil => exact valid_nil
  | cons s ss ih =>
      obtain ⟨hs, hss⟩ := List.forall_mem_cons.mp h
      exact hs.append (ih hss)

theorem ValidChar.valid {p : Bytes} (h : ValidChar p) : Valid p :=
  ⟨[p], by simpa using h, by simp⟩

/-- With a valid replacement the result is valid. -/
theorem valid_gaps (s : Bytes) {r : Bytes} (hr : Valid r) :
    Valid ((gaps true (chars s)).map fun p => p.getD r).flatten := by
  apply valid_flatten
  intro q hq
  obtain ⟨p, hp, rfl⟩ := List.mem_map.mp hq
  cases p with
  | none => exact hr
  | some p =>
      have hkept : p ∈ kept s := by
        rw [kept, ← filterMap_gaps true]
        exact List.mem_filterMap.mpr ⟨some p, hp, rfl⟩
      exact (validChar_of_mem_starts ((kept_starts s).1.subset hkept)).valid

/-- Where all pieces are valid there is no gap. -/
theorem gaps_eq_map {ps : List Bytes} (h : ∀ p ∈ ps, ValidChar p) :
    gaps true ps = ps.map some := by
  induction ps with
  | nil => rfl
  | cons p ps ih =>
      obtain ⟨hp, hps⟩ := List.forall_mem_cons.mp h
      have hvalid := isvalid_of_validChar hp []
      rw [List.append_nil] at hvalid
      rw [gaps, hp.startsChar, ih hps, hvalid]
      rfl

theorem flatten_getD_nil (l : List (Option Bytes)) :
    (l.map fun p => p.getD []).flatten = (l.filterMap id).flatten := by
  induction l with
  | nil => rfl
  | cons p l ih => cases p <;> simp [ih]

/-- What sanitizing is for: the result is valid, a valid string is unchanged, and the
valid characters of the string are kept in order with only replacements added. -/
structure Sanitized (s r o : Bytes) : Prop where
  accepted : validate o = .ok ()
  unchanged : validate s = .ok () → o = s
  keeps : ∃ items : List (Option Bytes), items.filterMap id = resync s ∧
    o = (items.map fun p => p.getD r).flatten

/-- Strings are sanitized with all replacements exactly when no piece takes in a valid
character. -/
theorem sanitize_iff (s : Bytes) :
    (∀ r, Valid r → ∃ o, sanitize s (some r) = .ok o ∧ Sanitized s r o) ↔
      ¬ SwallowsValid s := by
  rw [← resync_eq_kept_iff]
  constructor
  · intro h
    -- without a replacement only the kept characters are left
    obtain ⟨o, ho, -, -, items, hitems, heq⟩ := h [] valid_nil
    rw [flatten_getD_nil, hitems] at heq
    rw [sanitize_eq, flatten_getD_nil, filterMap_gaps, Except.ok.injEq] at ho
    have hflat : (kept s).flatten = (resync s).flatten := ho.trans heq
    have hwords {ps : List Bytes} (hps : ∀ p ∈ ps, p ∈ starts s) : chars ps.flatten = ps := by
      apply pieces_flatten
      intro p hp
      exact (validChar_of_mem_starts (hps p hp)).isWord
    have hkept := hwords fun p => (kept_starts s).1.subset (a := p)
    have hresync : chars (resync s).flatten = resync s := by
      apply hwords
      rw [resync_eq_starts]
      exact fun p hp => hp
    rw [← hresync, ← hflat, hkept]
  · intro heq r hr
    refine ⟨_, sanitize_eq s r, ?_, ?_, ⟨_, (filterMap_gaps true _).trans heq.symm, rfl⟩⟩
    · rw [validate_eq_ok_iff]
      exact valid_gaps s hr
    · intro hs
      obtain ⟨ps, hps, rfl⟩ := (validate_eq_ok_iff s).mp hs
      have hchars : chars ps.flatten = ps := pieces_flatten fun p hp => (hps p hp).isWord
      rw [hchars, gaps_eq_map hps, List.map_map]
      simp

/-- Two letters are lost after a byte that stands for three. -/
theorem sanitize_swallows :
    Valid [0x3F] ∧
      ¬ ∃ o, sanitize [0xE0, 0x41, 0x42] (some [0x3F]) = .ok o ∧
        Sanitized [0xE0, 0x41, 0x42] [0x3F] o := by
  have hquestion : ValidChar [0x3F] :=
    validChar_of_row [(0x00, 0x7F)] (by simp [wellFormedRows]) (by simp) (by decide)
  refine ⟨hquestion.valid, ?_⟩
  rintro ⟨o, ho, -, -, items, hitems, rfl⟩
  have hchars : chars [0xE0, 0x41, 0x42] = [[0xE0, 0x41, 0x42]] := chars_last (by decide)
  have hresync : resync [0xE0, 0x41, 0x42] = [[0x41], [0x42]] := by
    rw [resync_eq_starts]
    decide
  have hresult : [(0x3F : UInt8)] = (items.map fun p => p.getD [0x3F]).flatten := by
    rw [sanitize_eq, hchars] at ho
    exact Except.ok.inj ho
  have hletter : some [0x41] ∈ items := by
    have hmem : ([0x41] : Bytes) ∈ items.filterMap id := by
      rw [hitems, hresync]
      exact List.mem_cons_self
    simpa using hmem
  have hin : (0x41 : UInt8) ∈ (items.map fun p => p.getD [0x3F]).flatten :=
    List.mem_flatten.mpr ⟨[0x41], List.mem_map.mpr ⟨_, hletter, rfl⟩, List.mem_singleton.mpr rfl⟩
  rw [← hresult] at hin
  exact absurd hin (by decide)

end LuaAttic.Utf8
