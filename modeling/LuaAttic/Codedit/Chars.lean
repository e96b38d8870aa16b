import LuaAttic.Codedit.Lines
import LuaAttic.Support.Program

/-!
# Reading characters

The functions that test the character at an index, and those that look for the next
or the previous character of a kind.  Indices of the source count from one, those of
the elements of a list from zero.
-/

namespace LuaAttic.Codedit

open LuaAttic.Support LuaAttic.Lua Str

/-- The characters that `iswhitespace` accepts. -/
def isWhite (c : UInt8) : Bool := c == SPACE || (c == TAB || isTermByte c)

theorem length_contents_le (s : Bytes) : (contents s).length ≤ s.length :=
  (List.rdropWhile_prefix isTermByte s).length_le

section Chars

variable {s : Bytes} {n : ℕ}

/-! ## The character at an index -/

theorem nextChar_of_lt (h : n < s.length) : nextChar s n = .ok (some ((n + 1 : ℕ) : Int)) := by
  rw [nextChar, if_pos (by omega), if_neg (by omega)]
  rfl

theorem nextChar_of_ge (h : s.length ≤ n) : nextChar s n = .ok none := by
  rw [nextChar, if_pos (by omega), if_pos (by omega)]

/-- The next index, or the one behind the last character. -/
theorem gives_nextChar_getD (h : n ≤ s.length) :
    Gives (nextChar s n) fun j => j.getD (s.length + 1) = n + 1 := by
  rcases h.lt_or_eq with hlt | rfl
  · exact ⟨_, nextChar_of_lt hlt, rfl⟩
  · exact ⟨_, nextChar_of_ge (le_refl _), rfl⟩

theorem prevChar_zero : prevChar s ((0 + 1 : ℕ) : Int) = .ok none := by
  rw [prevChar, if_pos (by omega), if_pos (by omega)]

theorem prevChar_succ (h : n < s.length) :
    prevChar s ((n + 1 + 1 : ℕ) : Int) = .ok (some ((n + 1 : ℕ) : Int)) := by
  rw [prevChar, if_pos (by omega), if_neg (by omega)]
  congr 2
  omega

theorem byteAt_succ (h : n < s.length) : byteAt s ((n + 1 : ℕ) : Int) = some s[n] := by
  have hindex : (((n + 1 : ℕ) : Int) - 1).toNat = n := by omega
  rw [byteAt, if_pos (by omega), hindex, List.getElem?_eq_getElem h]

theorem ischar_succ (h : n < s.length) (c : UInt8) :
    ischar s ((n + 1 : ℕ) : Int) c = .ok (s[n] == c) := by
  rw [ischar, byteAt_succ h]

theorem isterm_succ (h : n < s.length) :
    isterm s ((n + 1 : ℕ) : Int) = .ok (isTermByte s[n]) := by
  simp only [isterm, ischar_succ h, isTermByte, bind, Except.bind]
  cases s[n] == CR with
  | true => rfl
  | false => rfl

theorem iswhitespace_succ (h : n < s.length) :
    iswhitespace s ((n + 1 : ℕ) : Int) = .ok (isWhite s[n]) := by
  simp only [iswhitespace, isspace, istab, ischar_succ h, isterm_succ h, isWhite, bind,
    Except.bind]
  cases s[n] == SPACE with
  | true => rfl
  | false =>
      cases s[n] == TAB with
      | true => rfl
      | false => rfl

theorem isnonspace_succ (h : n < s.length) :
    isnonspace s ((n + 1 : ℕ) : Int) = .ok (!isWhite s[n]) := by
  simp only [isnonspace, iswhitespace_succ h, bind, Except.bind]
  rfl

theorem isword_succ (h : n < s.length) (wordChars : UInt8 → Bool) :
    isword s ((n + 1 : ℕ) : Int) wordChars = .ok (wordChars s[n]) := by
  rw [isword, byteAt_succ h]

/-! ## The next and the previous character of a kind -/

variable {is : Int → Except Error Bool} {p : UInt8 → Bool}

/-- The test of an index is a test of its character. -/
def Tests (s : Bytes) (is : Int → Except Error Bool) (p : UInt8 → Bool) : Prop :=
  ∀ n (h : n < s.length), is ((n + 1 : ℕ) : Int) = .ok (p s[n])

theorem tests_isnonspace (s : Bytes) : Tests s (isnonspace s) fun c => !isWhite c :=
  fun _ h => isnonspace_succ h

/-- Forwards from the first `n` characters: the first character of the kind. -/
theorem gives_nextCharWhich (his : Tests s is p) {fuel : ℕ} (hfuel : s.length < fuel + n) :
    Gives (nextCharWhich s is fuel n) fun r =>
      (∀ j ∈ r, ∃ m c, j = ((m + 1 : ℕ) : Int) ∧ n ≤ m ∧ s[m]? = some c ∧ p c = true ∧
        ∀ k, n ≤ k → k < m → ∀ c ∈ s[k]?, p c = false) ∧
      (r = none → ∀ k, n ≤ k → ∀ c ∈ s[k]?, p c = false) := by
  induction fuel generalizing n with
  | zero =>
      refine Gives.ok ⟨by simp, ?_⟩
      intro _ k hk c hc
      rw [List.getElem?_eq_none (by omega)] at hc
      cases hc
  | succ fuel ih =>
      rcases Nat.lt_or_ge n s.length with hn | hn
      · simp only [nextCharWhich, nextChar_of_lt hn, his n hn, bind, Except.bind]
        cases hp : p s[n] with
        | true =>
            refine Gives.ok ⟨?_, by simp⟩
            intro j hj
            cases hj
            refine ⟨n, s[n], rfl, le_refl n, List.getElem?_eq_getElem hn, hp, ?_⟩
            intro k hk hlt
            omega
        | false =>
            obtain ⟨r, hr, hsome, hnone⟩ := ih (n := n + 1) (by omega)
            have hfirst : ∀ k, n ≤ k → ¬ n + 1 ≤ k → ∀ c ∈ s[k]?, p c = false := by
              intro k hk hlt c hc
              obtain rfl : k = n := by omega
              rw [List.getElem?_eq_getElem hn] at hc
              cases hc
              exact hp
            refine ⟨r, hr, ?_, ?_⟩
            · intro j hj
              obtain ⟨m, c, hjm, hm, hc, hpc, hbetween⟩ := hsome j hj
              refine ⟨m, c, hjm, by omega, hc, hpc, ?_⟩
              intro k hk hlt
              by_cases hnext : n + 1 ≤ k
              · exact hbetween k hnext hlt
              · exact hfirst k hk hnext
            · intro hr' k hk
              by_cases hnext : n + 1 ≤ k
              · exact hnone hr' k hnext
              · exact hfirst k hk hnext
      · simp only [nextCharWhich, nextChar_of_ge hn, bind, Except.bind]
        refine Gives.ok ⟨by simp, ?_⟩
        intro _ k hk c hc
        rw [List.getElem?_eq_none (by omega)] at hc
        cases hc

/-- Backwards from the character after the first `n`: the last one of the kind. -/
theorem gives_prevCharWhich (his : Tests s is p) (hn : n ≤ s.length) {fuel : ℕ}
    (hfuel : n < fuel) :
    Gives (prevCharWhich s is fuel ((n + 1 : ℕ) : Int)) fun r =>
      (∀ j ∈ r, ∃ m c, j = ((m + 1 : ℕ) : Int) ∧ m < n ∧ s[m]? = some c ∧ p c = true ∧
        ∀ k, m < k → k < n → ∀ c ∈ s[k]?, p c = false) ∧
      (r = none → ∀ k, k < n → ∀ c ∈ s[k]?, p c = false) := by
  induction n generalizing fuel with
  | zero =>
      obtain ⟨fuel, rfl⟩ : ∃ f, fuel = f + 1 := ⟨fuel - 1, by omega⟩
      simp only [prevCharWhich, prevChar_zero, bind, Except.bind]
      exact Gives.ok ⟨by simp, fun _ k hk => absurd hk (Nat.not_lt_zero k)⟩
  | succ n ih =>
      obtain ⟨fuel, rfl⟩ : ∃ f, fuel = f + 1 := ⟨fuel - 1, by omega⟩
      have hlt : n < s.length := hn
      simp only [prevCharWhich, prevChar_succ hlt, his n hlt, bind, Except.bind]
      cases hp : p s[n] with
      | true =>
          refine Gives.ok ⟨?_, by simp⟩
          intro j hj
          cases hj
          refine ⟨n, s[n], rfl, Nat.lt_succ_self n, List.getElem?_eq_getElem hlt, hp, ?_⟩
          intro k hk hlt
          omega
      | false =>
          obtain ⟨r, hr, hsome, hnone⟩ := ih hlt.le (Nat.lt_of_succ_lt_succ hfuel)
          have hlast : ∀ k, ¬ k < n → k < n + 1 → ∀ c ∈ s[k]?, p c = false := by
            intro k hk hkn c hc
            obtain rfl : k = n := by omega
            rw [List.getElem?_eq_getElem hlt] at hc
            cases hc
            exact hp
          refine ⟨r, hr, ?_, ?_⟩
          · intro j hj
            obtain ⟨m, c, hjm, hm, hc, hpc, hbetween⟩ := hsome j hj
            refine ⟨m, c, hjm, by omega, hc, hpc, ?_⟩
            intro k hk hkn
            by_cases hbefore : k < n
            · exact hbetween k hk hbefore
            · exact hlast k hbefore hkn
          · intro hr' k hkn
            by_cases hbefore : k < n
            · exact hnone hr' k hbefore
            · exact hlast k hbefore hkn

end Chars

/-!
## Detecting the line terminator

`detect_term` calls a function that does not exist for each character that is not a
`\r`, so it returns for strings of `\r` alone; and for these it says that the
terminators are mixed, because the three counts differ from one another.
-/

/-- The terminators of the string, in order. -/
def terminators (s : Bytes) : List Bytes := (lineStrings s).dropLast.map lineTerm

/-- What `detect_term` is to return: a terminator that is among the most frequent
ones, if there is any, and whether there are different ones. -/
structure Detects (s : Bytes) (term : Option Bytes) (mixed : Bool) : Prop where
  occurs : ∀ t ∈ term, t ∈ terminators s ∧
    ∀ t', (terminators s).count t' ≤ (terminators s).count t
  none_iff : term = none ↔ terminators s = []
  mixed_iff : mixed = true ↔ ∃ t ∈ terminators s, ∃ t' ∈ terminators s, t ≠ t'

/-! ### Counting -/

/-- What a step that does not raise can do: the character is a `\r`, and it counts
as a pair with a `\n` after it or on its own. -/
theorem step_of_detectTermLoop_ok {s : Bytes} {fuel n : ℕ} {counts result : TermCounts}
    (hn : n < s.length) (h : detectTermLoop s (fuel + 1) n counts = .ok result) :
    s[n] = CR ∧
      ((∃ hnext : n + 1 < s.length, s[n + 1] = LF ∧
          detectTermLoop s fuel (n + 1 : ℕ) { counts with rn := counts.rn + 1 } = .ok result) ∨
        detectTermLoop s fuel (n + 1 : ℕ) { counts with r := counts.r + 1 } = .ok result) := by
  simp only [detectTermLoop, nextChar_of_lt hn, ischar_succ hn, bind, Except.bind] at h
  by_cases hcr : s[n] = CR
  · refine ⟨hcr, ?_⟩
    simp only [hcr, beq_self_eq_true, if_true] at h
    by_cases hlast : ((n + 1 : ℕ) : Int) < s.length
    · have hnext : n + 1 < s.length := by omega
      have hchar := ischar_succ hnext LF
      push_cast at hchar hlast h ⊢
      simp only [if_pos hlast, hchar] at h
      by_cases hlf : s[n + 1] = LF
      · simp only [hlf, beq_self_eq_true, if_true] at h
        exact Or.inl ⟨hnext, hlf, h⟩
      · simp only [beq_iff_eq, hlf, if_false] at h
        exact Or.inr h
    · simp only [if_neg hlast] at h
      exact Or.inr h
  · simp [hcr] at h

/-- The count returns for strings of `\r` alone; the induction is on the fuel, from
any index on. -/
theorem of_detectTermLoop_ok {s : Bytes} {fuel n : ℕ} {counts result : TermCounts}
    (hn : n ≤ s.length) (hfuel : s.length < fuel + n)
    (h : detectTermLoop s fuel n counts = .ok result) :
    (∀ c ∈ s.drop n, c = CR) ∧ result = { counts with r := counts.r + (s.length - n) } := by
  induction fuel generalizing n counts with
  | zero => omega
  | succ fuel ih =>
      rcases hn.lt_or_eq with hlt | rfl
      · obtain ⟨hcr, hpair | halone⟩ := step_of_detectTermLoop_ok hlt h
        · -- the `\n` of the pair is not a `\r`
          obtain ⟨hnext, hlf, hrest⟩ := hpair
          obtain ⟨hall, -⟩ := ih hlt (by omega) hrest
          have hmem : s[n + 1] ∈ s.drop (n + 1) := by
            rw [List.drop_eq_getElem_cons hnext]
            exact List.mem_cons_self
          exact absurd (hlf.symm.trans (hall _ hmem)) (by decide)
        · obtain ⟨hall, hresult⟩ := ih hlt (by omega) halone
          have hcount : counts.r + 1 + (s.length - (n + 1)) = counts.r + (s.length - n) := by
            omega
          constructor
          · intro c hc
            rw [List.drop_eq_getElem_cons hlt] at hc
            rcases List.mem_cons.mp hc with rfl | hc
            · exact hcr
            · exact hall c hc
          · rw [hresult, hcount]
      · simp only [detectTermLoop, nextChar_of_ge (le_refl _), bind, Except.bind] at h
        cases h
        simp

/-- Where `detect_term` returns, the string has no character but `\r`, and unless it
is empty its terminators are said to be mixed. -/
theorem of_detectTerm_ok {s : Bytes} {term : Option Bytes} {mixed : Bool}
    (h : detectTerm s = .ok (term, mixed)) : (∀ c ∈ s, c = CR) ∧ (s ≠ [] → mixed = true) := by
  obtain ⟨counts, hcounts, hresult⟩ := exists_of_bind_eq_ok h
  obtain ⟨hall, rfl⟩ := of_detectTermLoop_ok (n := 0) (Nat.zero_le _) (by omega) hcounts
  refine ⟨hall, ?_⟩
  intro hne
  cases hresult
  simp [hne]

/-! ### The terminators of such strings -/

theorem isTerminator_of_mem_terminators {s t : Bytes} (ht : t ∈ terminators s) :
    IsTerminator t ∧ ∀ c ∈ t, c ∈ s := by
  obtain ⟨l, hl, rfl⟩ := List.mem_map.mp ht
  obtain ⟨init, last, hsplit⟩ := List.eq_nil_or_concat' (lineStrings s)
    |>.resolve_left (lineStrings_ne_nil s)
  have hwf := wellFormed_lineStrings s
  rw [hsplit, wellFormed_append (List.cons_ne_nil _ _)] at hwf
  rw [hsplit, List.dropLast_concat] at hl
  obtain ⟨body, t, rfl, hbody, ht⟩ := hwf.1 l hl
  rw [lineTerm_body_term hbody ht]
  refine ⟨ht, ?_⟩
  intro c hc
  rw [← flatten_lineStrings s, hsplit]
  exact List.mem_flatten.mpr ⟨body ++ t, List.mem_append_left _ hl, List.mem_append_right _ hc⟩

/-- A string of `\r` has terminators of one kind. -/
theorem eq_of_mem_terminators {s t : Bytes} (hs : ∀ c ∈ s, c = CR) (ht : t ∈ terminators s) :
    t = [CR] := by
  obtain ⟨hkind, hmem⟩ := isTerminator_of_mem_terminators ht
  rcases hkind with rfl | rfl | rfl
  · exact absurd (hs LF (hmem LF (by decide))) (by decide)
  · rfl
  · exact absurd (hs LF (hmem LF (by decide))) (by decide)

/-- `detect_term` does what it is to do for the empty string alone. -/
theorem detectTerm_iff (s : Bytes) :
    (∃ term mixed, detectTerm s = .ok (term, mixed) ∧ Detects s term mixed) ↔ s = [] := by
  constructor
  · rintro ⟨term, mixed, hok, hdetects⟩
    by_contra hne
    obtain ⟨hall, hmixed⟩ := of_detectTerm_ok hok
    obtain ⟨t, ht, t', ht', hdiff⟩ := hdetects.mixed_iff.mp (hmixed hne)
    exact hdiff ((eq_of_mem_terminators hall ht).trans (eq_of_mem_terminators hall ht').symm)
  · rintro rfl
    refine ⟨none, false, rfl, ?_, ?_, ?_⟩
    · intro t ht
      cases ht
    · decide
    · simp [terminators, lineStrings_plain plain_nil]

/-- A letter, and one `\r`. -/
theorem detectTerm_fails :
    detectTerm [97] = .error .nilCall ∧
      detectTerm [CR] = .ok (some [CR], true) ∧ ¬ Detects [CR] (some [CR]) true := by
  refine ⟨rfl, rfl, ?_⟩
  intro hdetects
  obtain ⟨t, ht, t', ht', hdiff⟩ := hdetects.mixed_iff.mp rfl
  have hone : terminators [CR] = [[CR]] := by decide
  rw [hone, List.mem_singleton] at ht ht'
  exact hdiff (ht.trans ht'.symm)

end LuaAttic.Codedit
