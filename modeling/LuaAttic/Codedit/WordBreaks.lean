import Mathlib.Order.Bounds.Basic
import LuaAttic.Codedit.Chars

/-!
# Word breaks

A word break is the first character of a run of word or of other characters, with
whatever spaces are before it.  The scan for the next break returns it when there is
one in the line, but when the string ends before it has found one it returns the
next character instead.  The scan for the previous break runs the first one from the
start and loses what it has found when that one ends.
-/

namespace LuaAttic.Codedit

open LuaAttic.Support LuaAttic.Lua Str

/-! ## Runs of characters -/

/-- The kind of run that a character belongs to. -/
def runOf (wordChars : UInt8 → Bool) (c : UInt8) : Expect :=
  if isWhite c then .space else if wordChars c then .word else .nonword

/-- The character at an index, if any, ends the line. -/
def TermAt (s : Bytes) (i : Int) : Prop := ∃ c, byteAt s i = some c ∧ isTermByte c = true

/-- The character at an index is not a space and not of the run before it. -/
def StartsRun (wordChars : UInt8 → Bool) (s : Bytes) (i : Int) : Prop :=
  ∃ c0 c, byteAt s (i - 1) = some c0 ∧ byteAt s i = some c ∧ isWhite c = false ∧
    runOf wordChars c0 ≠ runOf wordChars c

/-- The character at an index continues a run of word or of other characters. -/
def InsideRun (wordChars : UInt8 → Bool) (s : Bytes) (i : Int) : Prop :=
  ∃ c0 c, byteAt s (i - 1) = some c0 ∧ byteAt s i = some c ∧ isWhite c = false ∧
    runOf wordChars c0 = runOf wordChars c

/-- A break after an index, before the line ends. -/
structure BreakAfter (wordChars : UInt8 → Bool) (s : Bytes) (i j : Int) : Prop where
  lt : i < j
  starts : StartsRun wordChars s j
  line : ∀ k, i ≤ k → k ≤ j → ¬ TermAt s k

section Runs

variable {s : Bytes} {wordChars : UInt8 → Bool} {n : ℕ}

theorem termAt_succ (h : n < s.length) :
    TermAt s ((n + 1 : ℕ) : Int) ↔ isTermByte s[n] = true := by
  rw [TermAt, byteAt_succ h]
  simp

theorem startsRun_succ (wordChars : UInt8 → Bool) (h : n + 1 < s.length) :
    StartsRun wordChars s ((n + 1 + 1 : ℕ) : Int) ↔
      isWhite s[n + 1] = false ∧ runOf wordChars s[n] ≠ runOf wordChars s[n + 1] := by
  have hprev : ((n + 1 + 1 : ℕ) : Int) - 1 = ((n + 1 : ℕ) : Int) := by omega
  have hn : n < s.length := by omega
  rw [StartsRun, hprev, byteAt_succ h, byteAt_succ hn]
  simp

theorem byteAt_of_length_lt {i : Int} (h : s.length < i) : byteAt s i = none := by
  rw [byteAt, if_pos (by omega), List.getElem?_eq_none (by omega)]

theorem StartsRun.le_length {i : Int} (h : StartsRun wordChars s i) : i ≤ s.length := by
  by_contra hlt
  obtain ⟨_, c, -, hc, -⟩ := h
  rw [byteAt_of_length_lt (lt_of_not_ge hlt)] at hc
  cases hc

theorem StartsRun.not_insideRun {i : Int} (h : StartsRun wordChars s i) :
    ¬ InsideRun wordChars s i := by
  rintro ⟨c0', c', h0', h1', -, hsame⟩
  obtain ⟨c0, c, h0, h1, -, hdiff⟩ := h
  rw [h0] at h0'
  rw [h1] at h1'
  cases h0'
  cases h1'
  exact hdiff hsame

/-- A break at the next index. -/
theorem breakAfter_next {i : Int} (hi : ¬ TermAt s i) (hnext : ¬ TermAt s (i + 1))
    (h : StartsRun wordChars s (i + 1)) : BreakAfter wordChars s i (i + 1) where
  lt := by omega
  starts := h
  line := by
    intro k hk hle
    obtain rfl | rfl : k = i ∨ k = i + 1 := by omega
    · exact hi
    · exact hnext

/-- Where the next index is no break, the breaks after it are those after the index. -/
theorem breakAfter_iff_succ {i j : Int} (hi : ¬ TermAt s i)
    (h : ¬ StartsRun wordChars s (i + 1)) :
    BreakAfter wordChars s i j ↔ BreakAfter wordChars s (i + 1) j := by
  constructor
  · intro hbreak
    have hlt := hbreak.lt
    have hne : j ≠ i + 1 := by
      rintro rfl
      exact h hbreak.starts
    exact ⟨by omega, hbreak.starts, fun k hk => hbreak.line k (by omega)⟩
  · intro hbreak
    have hlt := hbreak.lt
    refine ⟨by omega, hbreak.starts, ?_⟩
    intro k hk hle
    by_cases hfirst : k = i
    · rwa [hfirst]
    · exact hbreak.line k (by omega) hle

end Runs

/-! ## The scan for the next break -/

section Next

variable {s : Bytes} {wordChars : UInt8 → Bool} {n : ℕ}

theorem expectWord_succ (h : n < s.length) (hwhite : isWhite s[n] = false) :
    expectWord s ((n + 1 : ℕ) : Int) wordChars = .ok (runOf wordChars s[n]) := by
  simp only [expectWord, isword_succ h, bind, Except.bind, runOf, hwhite]
  cases wordChars s[n] with
  | true => rfl
  | false => rfl

/-- The outcome of the scan from an index: a break, the end of the line, or the end of
the string. -/
def ScanFrom (wordChars : UInt8 → Bool) (s : Bytes) (i : Int) : Option (Option Int) → Prop
  | some (some j) => BreakAfter wordChars s i j ∧ ∀ k, BreakAfter wordChars s i k → j ≤ k
  | some none => (∃ k, i < k ∧ TermAt s k) ∧ ∀ k, ¬ BreakAfter wordChars s i k
  | none => (∀ k, i < k → ¬ TermAt s k) ∧ ∀ k, i < k → ¬ StartsRun wordChars s k

/-- An index without a break moves the scan on. -/
theorem ScanFrom.of_succ {i : Int} (hi : ¬ TermAt s i) (hnext : ¬ TermAt s (i + 1))
    (hstarts : ¬ StartsRun wordChars s (i + 1)) {r : Option (Option Int)}
    (h : ScanFrom wordChars s (i + 1) r) : ScanFrom wordChars s i r := by
  match r, h with
  | some (some j), h =>
      refine ⟨(breakAfter_iff_succ hi hstarts).mpr h.1, ?_⟩
      intro k hk
      exact h.2 k ((breakAfter_iff_succ hi hstarts).mp hk)
  | some none, h =>
      obtain ⟨⟨k, hk, hterm⟩, hnone⟩ := h
      refine ⟨⟨k, by omega, hterm⟩, ?_⟩
      intro k hk
      exact hnone k ((breakAfter_iff_succ hi hstarts).mp hk)
  | none, h =>
      constructor
      · intro k hk
        by_cases hfirst : k = i + 1
        · rwa [hfirst]
        · exact h.1 k (by omega)
      · intro k hk
        by_cases hfirst : k = i + 1
        · rwa [hfirst]
        · exact h.2 k (by omega)

theorem runOf_eq_space_iff (wordChars : UInt8 → Bool) {c : UInt8} :
    runOf wordChars c = .space ↔ isWhite c = true := by
  unfold runOf
  cases isWhite c with
  | true => simp
  | false => cases wordChars c <;> simp

/-- A step of the loop at an index whose character is of the expected run. -/
theorem wordBreakLoop_succ (h : n + 1 < s.length) (fuel : ℕ) :
    wordBreakLoop s wordChars (fuel + 1) (runOf wordChars s[n]) ((n + 1 : ℕ) : Int) =
      if isTermByte s[n + 1] then .ok (some none)
      else if isWhite s[n + 1] = false ∧ runOf wordChars s[n] ≠ runOf wordChars s[n + 1] then
        .ok (some (some ((n + 1 + 1 : ℕ) : Int)))
      else wordBreakLoop s wordChars fuel (runOf wordChars s[n + 1]) ((n + 1 + 1 : ℕ) : Int) := by
  simp only [wordBreakLoop, nextChar_of_lt h, isterm_succ h, iswhitespace_succ h, bind,
    Except.bind]
  cases isTermByte s[n + 1] with
  | true => rfl
  | false =>
      cases hwhite : isWhite s[n + 1] with
      | true =>
          have hrun := (runOf_eq_space_iff wordChars).mpr hwhite
          by_cases hspace : runOf wordChars s[n] = .space
          · simp [hspace, hrun]
          · simp [hspace, hrun]
      | false =>
          have hrun : runOf wordChars s[n + 1] ≠ .space := by
            rw [ne_eq, runOf_eq_space_iff, hwhite]
            exact Bool.false_ne_true
          rw [expectWord_succ h hwhite]
          by_cases hspace : runOf wordChars s[n] = .space
          · simp [hspace, hrun.symm]
            rfl
          · by_cases hsame : runOf wordChars s[n] = runOf wordChars s[n + 1]
            · simp [hsame, hrun]
            · simp [hsame, hspace]
              rfl

/-- The loop, at an index whose character is of the expected run. -/
theorem gives_wordBreakLoop (wordChars : UInt8 → Bool) (hn : n < s.length)
    (hline : isTermByte s[n] = false) {fuel : ℕ} (hfuel : s.length < fuel + (n + 1)) :
    Gives (wordBreakLoop s wordChars fuel (runOf wordChars s[n]) ((n + 1 : ℕ) : Int))
      (ScanFrom wordChars s ((n + 1 : ℕ) : Int)) := by
  induction fuel generalizing n with
  | zero => omega
  | succ fuel ih =>
      have hi : ¬ TermAt s ((n + 1 : ℕ) : Int) := by
        rw [termAt_succ hn, hline]
        exact Bool.false_ne_true
      have hindex : ((n + 1 : ℕ) : Int) + 1 = ((n + 1 + 1 : ℕ) : Int) := by omega
      rcases Nat.lt_or_ge (n + 1) s.length with hlt | hge
      · have hterm := termAt_succ hlt
        have hstarts := startsRun_succ wordChars hlt
        rw [← hindex] at hterm hstarts
        rw [wordBreakLoop_succ hlt]
        by_cases hend : isTermByte s[n + 1] = true
        · rw [if_pos hend]
          refine Gives.ok ⟨⟨_, Int.lt_succ _, hterm.mpr hend⟩, ?_⟩
          intro k hk
          exact hk.line _ (Int.le_of_lt (Int.lt_succ _)) hk.lt (hterm.mpr hend)
        · rw [if_neg hend]
          by_cases hbreak : isWhite s[n + 1] = false ∧
              runOf wordChars s[n] ≠ runOf wordChars s[n + 1]
          · rw [if_pos hbreak, ← hindex]
            refine Gives.ok ⟨breakAfter_next hi (fun h => hend (hterm.mp h)) (hstarts.mpr hbreak),
              ?_⟩
            intro k hk
            exact hk.lt
          · rw [if_neg hbreak]
            refine (ih hlt (by simpa using hend) (by omega)).mono ?_
            intro r hr
            rw [← hindex] at hr
            exact hr.of_succ hi (fun h => hend (hterm.mp h)) fun h => hbreak (hstarts.mp h)
      · simp only [wordBreakLoop, nextChar_of_ge hge, bind, Except.bind]
        refine Gives.ok ⟨?_, ?_⟩
        · rintro k hk ⟨c, hc, -⟩
          rw [byteAt_of_length_lt (by omega)] at hc
          cases hc
        · intro k hk hstarts
          have hle := hstarts.le_length
          omega

/-- From the last character on there is no break. -/
theorem nextWordBreakChar_length (hn : n + 1 = s.length) :
    nextWordBreakChar s ((n + 1 : ℕ) : Int) wordChars = .ok none := by
  rw [nextWordBreakChar, if_neg (by omega), if_neg (by omega), if_pos (by omega)]
  rfl

/-- From a terminator on there is no break. -/
theorem nextWordBreakChar_term (hn : n + 1 < s.length) (hline : isTermByte s[n] = true) :
    nextWordBreakChar s ((n + 1 : ℕ) : Int) wordChars = .ok none := by
  have hlt : n < s.length := by omega
  rw [nextWordBreakChar, if_neg (by omega), if_neg (by omega), if_neg (by omega)]
  simp only [isterm_succ hlt, hline, bind, Except.bind]
  rfl

/-- From another character the scan decides; at the end of the string the next
character is returned. -/
theorem exists_nextWordBreakChar (wordChars : UInt8 → Bool) (hn : n + 1 < s.length)
    (hline : isTermByte s[n] = false) :
    ∃ o, nextWordBreakChar s ((n + 1 : ℕ) : Int) wordChars =
        .ok (o.getD (some ((n + 1 + 1 : ℕ) : Int))) ∧
      ScanFrom wordChars s ((n + 1 : ℕ) : Int) o := by
  have hlt : n < s.length := by omega
  have hfuel : s.length < s.length + 1 + (n + 1) := by omega
  obtain ⟨o, ho, hscan⟩ := gives_wordBreakLoop wordChars hlt hline hfuel
  refine ⟨o, ?_, hscan⟩
  rw [nextWordBreakChar, if_neg (by omega), if_neg (by omega), if_neg (by omega)]
  simp only [isterm_succ hlt, hline, iswhitespace_succ hlt, bind, Except.bind]
  cases hwhite : isWhite s[n] with
  | true =>
      rw [(runOf_eq_space_iff wordChars).mpr hwhite] at ho
      simp only [if_true, pure, Except.pure, Bool.false_eq_true, if_false, ho]
      cases o with
      | none => exact nextChar_of_lt hn
      | some r => rfl
  | false =>
      simp only [Bool.false_eq_true, if_false, expectWord_succ hlt hwhite, ho]
      cases o with
      | none => exact nextChar_of_lt hn
      | some r => rfl

/-- What the scan is to return: the first break of the line after an index, which is
not inside a run, and nil when there is none. -/
structure IsNextBreak (wordChars : UInt8 → Bool) (s : Bytes) (i : Int)
    (r : Option Int) : Prop where
  least : ∀ j ∈ r, BreakAfter wordChars s i j ∧ ∀ k, BreakAfter wordChars s i k → j ≤ k
  none_iff : r = none ↔ ∀ k, ¬ BreakAfter wordChars s i k
  outside : ∀ j ∈ r, ¬ InsideRun wordChars s j

theorem isNextBreak_none {i : Int} (h : ∀ k, ¬ BreakAfter wordChars s i k) :
    IsNextBreak wordChars s i none where
  least := by simp
  none_iff := ⟨fun _ => h, fun _ => rfl⟩
  outside := by simp

theorem isNextBreak_some {i j : Int} (h : BreakAfter wordChars s i j)
    (hleast : ∀ k, BreakAfter wordChars s i k → j ≤ k) :
    IsNextBreak wordChars s i (some j) where
  least := by
    intro k hk
    cases hk
    exact ⟨h, hleast⟩
  none_iff := iff_of_false (Option.some_ne_none j) fun hnone => hnone j h
  outside := by
    intro k hk
    cases hk
    exact h.starts.not_insideRun

/-- The next break is returned exactly when the scan does not end at the end of the
string: from the last character, before a terminator, or when there is a break. -/
theorem nextWordBreakChar_iff {i : Int} (hi : 1 ≤ i ∧ i ≤ s.length) :
    (∃ r, nextWordBreakChar s i wordChars = .ok r ∧ IsNextBreak wordChars s i r) ↔
      i = s.length ∨ (∃ k, i ≤ k ∧ TermAt s k) ∨ ∃ k, i < k ∧ StartsRun wordChars s k := by
  obtain ⟨n, rfl⟩ : ∃ n : ℕ, i = ((n + 1 : ℕ) : Int) := ⟨(i - 1).toNat, by omega⟩
  have hlt : n < s.length := by omega
  by_cases hlast : n + 1 = s.length
  · refine iff_of_true ⟨none, nextWordBreakChar_length hlast, ?_⟩ (Or.inl (by omega))
    apply isNextBreak_none
    intro k hk
    have hle := hk.starts.le_length
    have hgt := hk.lt
    omega
  · have hnext : n + 1 < s.length := by omega
    by_cases hline : isTermByte s[n] = true
    · have hterm := (termAt_succ hlt).mpr hline
      refine iff_of_true ⟨none, nextWordBreakChar_term hnext hline, ?_⟩
        (Or.inr (Or.inl ⟨_, le_refl _, hterm⟩))
      apply isNextBreak_none
      intro k hk
      exact hk.line _ (le_refl _) hk.lt.le hterm
    · obtain ⟨o, ho, hscan⟩ :=
        exists_nextWordBreakChar wordChars hnext (by simpa using hline)
      match o, hscan with
      | some (some j), hscan =>
          refine iff_of_true ⟨_, ho, isNextBreak_some hscan.1 hscan.2⟩ ?_
          exact Or.inr (Or.inr ⟨j, hscan.1.lt, hscan.1.starts⟩)
      | some none, hscan =>
          obtain ⟨⟨k, hk, hterm⟩, hnone⟩ := hscan
          refine iff_of_true ⟨_, ho, isNextBreak_none hnone⟩ ?_
          exact Or.inr (Or.inl ⟨k, hk.le, hterm⟩)
      | none, hscan =>
          -- the character after the index is returned, and it starts no run
          obtain ⟨hnoterm, hnostart⟩ := hscan
          refine iff_of_false ?_ ?_
          · rintro ⟨r, hr, hbreak⟩
            rw [ho] at hr
            cases hr
            have hstart := (hbreak.least _ rfl).1
            exact hnostart _ hstart.lt hstart.starts
          · rintro (hend | ⟨k, hk, hterm⟩ | ⟨k, hk, hstart⟩)
            · omega
            · rcases hk.lt_or_eq with hgt | rfl
              · exact hnoterm k hgt hterm
              · exact hline ((termAt_succ hlt).mp hterm)
            · exact hnostart k hk hstart

/-- A word with another one after it. -/
theorem nextWordBreakChar_iff_words :
    (∃ r, nextWordBreakChar [97, 98, 32, 99] 1 (fun c => 97 ≤ c) = .ok r ∧
        IsNextBreak (fun c => 97 ≤ c) [97, 98, 32, 99] 1 r) ↔
      (1 : Int) = [97, 98, 32, 99].length ∨
        (∃ k, 1 ≤ k ∧ TermAt [97, 98, 32, 99] k) ∨
        ∃ k, 1 < k ∧ StartsRun (fun c => 97 ≤ c) [97, 98, 32, 99] k :=
  nextWordBreakChar_iff (by decide)

/-- In a single word the scan returns the second character. -/
theorem nextWordBreakChar_single_word :
    nextWordBreakChar [97, 98, 99] 1 (fun c => 97 ≤ c) = .ok (some 2) ∧
      InsideRun (fun c => 97 ≤ c) [97, 98, 99] 2 ∧
      ¬ IsNextBreak (fun c => 97 ≤ c) [97, 98, 99] 1 (some 2) := by
  have hinside : InsideRun (fun c => 97 ≤ c) [97, 98, 99] 2 :=
    ⟨97, 98, rfl, rfl, rfl, by decide⟩
  exact ⟨by decide, hinside, fun h => h.outside 2 rfl hinside⟩

end Next

/-! ## The scan for the previous break -/

section Previous

variable {s : Bytes} {wordChars : UInt8 → Bool} {n m : ℕ} {f i j : Int}

/-- The positions obtained by iterating the scan from the start of the string, up to
the nil that ends it. -/
def breakAt (wordChars : UInt8 → Bool) (s : Bytes) : ℕ → Except Error (Option Int)
  | 0 => nextWordBreakChar s 0 wordChars
  | n + 1 => do
      match ← breakAt wordChars s n with
      | none => return none
      | some i => nextWordBreakChar s i wordChars

/-- One of the positions of the scan. -/
def IsBreak (wordChars : UInt8 → Bool) (s : Bytes) (i : Int) : Prop :=
  ∃ n, breakAt wordChars s n = .ok (some i)

/-- The scan moves forward inside the string. -/
theorem gives_nextWordBreakChar (wordChars : UInt8 → Bool) (hi : 1 ≤ i)
    (hle : i ≤ max (s.length : Int) 1) :
    Gives (nextWordBreakChar s i wordChars) fun r => ∀ j ∈ r, i < j ∧ j ≤ s.length := by
  obtain ⟨n, rfl⟩ : ∃ n : ℕ, i = ((n + 1 : ℕ) : Int) := ⟨(i - 1).toNat, by omega⟩
  rcases Nat.lt_or_ge (n + 1) s.length with hlt | hge
  · have hn : n < s.length := by omega
    by_cases hline : isTermByte s[n] = true
    · exact ⟨none, nextWordBreakChar_term hlt hline, by simp⟩
    · obtain ⟨o, ho, hscan⟩ := exists_nextWordBreakChar wordChars hlt (by simpa using hline)
      refine ⟨_, ho, ?_⟩
      intro j hj
      match o, hscan with
      | some (some k), hscan =>
          cases hj
          exact ⟨hscan.1.lt, hscan.1.starts.le_length⟩
      | some none, _ => cases hj
      | none, _ =>
          cases hj
          omega
  · refine ⟨none, ?_, by simp⟩
    rw [nextWordBreakChar, if_neg (by omega), if_neg (by omega), if_pos (by omega)]
    rfl

theorem breakAt_zero : breakAt wordChars s 0 = .ok (some 1) := rfl

theorem breakAt_succ_of_none (h : breakAt wordChars s n = .ok none) :
    breakAt wordChars s (n + 1) = .ok none := by
  simp only [breakAt, h, bind, Except.bind]
  rfl

theorem breakAt_succ_of_some (h : breakAt wordChars s n = .ok (some i)) :
    breakAt wordChars s (n + 1) = nextWordBreakChar s i wordChars := by
  simp only [breakAt, h, bind, Except.bind]

/-- The iteration raises nothing, and its positions are in the string. -/
theorem gives_breakAt (wordChars : UInt8 → Bool) (s : Bytes) (n : ℕ) :
    Gives (breakAt wordChars s n) fun r => ∀ i ∈ r, n < i ∧ i ≤ max (s.length : Int) 1 := by
  induction n with
  | zero =>
      refine ⟨_, breakAt_zero, ?_⟩
      rintro _ ⟨⟩
      exact ⟨by decide, le_max_right _ _⟩
  | succ n ih =>
      obtain ⟨r, hr, hbounds⟩ := ih
      cases r with
      | none => exact ⟨none, breakAt_succ_of_none hr, by simp⟩
      | some i =>
          obtain ⟨hn, hle⟩ := hbounds i rfl
          rw [breakAt_succ_of_some hr]
          refine (gives_nextWordBreakChar wordChars (by omega) hle).mono ?_
          intro r hr j hj
          obtain ⟨hlt, hlen⟩ := hr j hj
          exact ⟨by push_cast; omega, hlen.trans (le_max_left _ _)⟩

/-- Later positions of the iteration are not before earlier ones. -/
theorem le_of_breakAt (h : breakAt wordChars s n = .ok (some i)) (hnm : n ≤ m)
    (h' : breakAt wordChars s m = .ok (some j)) : i ≤ j := by
  induction m, hnm using Nat.le_induction generalizing j with
  | base =>
      rw [h] at h'
      cases h'
      exact le_refl _
  | succ m _ ih =>
      obtain ⟨r, hr, hbounds⟩ := gives_breakAt wordChars s m
      cases r with
      | none =>
          rw [breakAt_succ_of_none hr] at h'
          cases h'
      | some k =>
          obtain ⟨hk, hle⟩ := hbounds k rfl
          rw [breakAt_succ_of_some hr] at h'
          have hfirst : 1 ≤ k := by omega
          obtain ⟨r', hr', hnext⟩ := gives_nextWordBreakChar wordChars hfirst hle
          rw [hr'] at h'
          cases h'
          exact (ih hr).trans (hnext j rfl).1.le

/-- Once ended, the iteration stays so. -/
theorem breakAt_of_none (h : breakAt wordChars s n = .ok none) (hnm : n ≤ m) :
    breakAt wordChars s m = .ok none := by
  induction m, hnm using Nat.le_induction with
  | base => exact h
  | succ m _ ih => exact breakAt_succ_of_none ih

/-- The iteration ends. -/
theorem breakAt_length (wordChars : UInt8 → Bool) (s : Bytes) :
    breakAt wordChars s (s.length + 1) = .ok none := by
  obtain ⟨r, hr, hbounds⟩ := gives_breakAt wordChars s (s.length + 1)
  cases r with
  | none => exact hr
  | some i =>
      obtain ⟨hlt, hle⟩ := hbounds i rfl
      push_cast at hlt
      omega

/-- The loop has found `lasti` before the position with number `n`. -/
def Before (wordChars : UInt8 → Bool) (s : Bytes) : ℕ → Option Int → Prop
  | 0, lasti => lasti = none
  | n + 1, lasti => ∃ i, lasti = some i ∧ breakAt wordChars s n = .ok (some i)

theorem Before.succ (h : breakAt wordChars s n = .ok (some i)) :
    Before wordChars s (n + 1) (some i) := ⟨i, rfl, h⟩

theorem Before.next {lasti : Option Int} (h : Before wordChars s n lasti) :
    nextWordBreakChar s (lasti.getD 0) wordChars = breakAt wordChars s n := by
  cases n with
  | zero =>
      cases h
      rfl
  | succ n =>
      obtain ⟨i, rfl, hi⟩ := h
      exact (breakAt_succ_of_some hi).symm

/-- The loop returns what it has found before the first position that is not before
`f`. -/
theorem exists_prevWordBreakLoop (hm : breakAt wordChars s m = .ok (some j)) (hj : f ≤ j)
    (hbelow : ∀ k i, k < m → breakAt wordChars s k = .ok (some i) → i < f) {fuel : ℕ}
    {lasti : Option Int} (hn : Before wordChars s n lasti) (hnm : n ≤ m)
    (hfuel : m < fuel + n) :
    ∃ l, prevWordBreakLoop s f wordChars fuel lasti = .ok l ∧ Before wordChars s m l := by
  induction fuel generalizing n lasti with
  | zero => omega
  | succ fuel ih =>
      obtain ⟨r, hr, -⟩ := gives_breakAt wordChars s n
      cases r with
      | none =>
          rw [breakAt_of_none hr hnm] at hm
          cases hm
      | some i =>
          simp only [prevWordBreakLoop, hn.next, hr, bind, Except.bind]
          by_cases hle : f ≤ i
          · rw [if_pos hle]
            rcases hnm.lt_or_eq with hlt | rfl
            · exact absurd (hbelow n i hlt hr) (not_lt_of_ge hle)
            · exact ⟨lasti, rfl, hn⟩
          · rw [if_neg hle]
            have hne : n ≠ m := by
              rintro rfl
              rw [hm] at hr
              cases hr
              exact hle hj
            exact ih (Before.succ hr) (by omega) (by omega)

/-- The loop returns nil when the iteration ends before `f`. -/
theorem prevWordBreakLoop_of_none (hm : breakAt wordChars s m = .ok none)
    (hbelow : ∀ i, IsBreak wordChars s i → i < f) {fuel : ℕ} {lasti : Option Int}
    (hn : Before wordChars s n lasti) (hnm : n ≤ m) (hfuel : m < fuel + n) :
    prevWordBreakLoop s f wordChars fuel lasti = .ok none := by
  induction fuel generalizing n lasti with
  | zero => omega
  | succ fuel ih =>
      obtain ⟨r, hr, -⟩ := gives_breakAt wordChars s n
      simp only [prevWordBreakLoop, hn.next, hr, bind, Except.bind]
      cases r with
      | none => rfl
      | some i =>
          have hlt := hbelow i ⟨n, hr⟩
          have hne : n ≠ m := by
            rintro rfl
            rw [hm] at hr
            cases hr
          simp only [if_neg (not_le_of_gt hlt)]
          exact ih (Before.succ hr) (by omega) (by omega)

/-- What the scan is to return: the greatest position before `f`, and nil when there
is none. -/
structure IsPrevBreak (wordChars : UInt8 → Bool) (s : Bytes) (f : Int)
    (r : Option Int) : Prop where
  greatest : ∀ j ∈ r, IsGreatest {i | IsBreak wordChars s i ∧ i < f} j
  none_iff : r = none ↔ ∀ i, IsBreak wordChars s i → f ≤ i

theorem isPrevBreak_of_before (hm : breakAt wordChars s m = .ok (some j)) (hj : f ≤ j)
    (hbelow : ∀ k i, k < m → breakAt wordChars s k = .ok (some i) → i < f)
    {l : Option Int} (hl : Before wordChars s m l) : IsPrevBreak wordChars s f l := by
  cases m with
  | zero =>
      cases hl
      refine ⟨by simp, iff_of_true rfl ?_⟩
      rintro i ⟨k, hk⟩
      exact hj.trans (le_of_breakAt hm (Nat.zero_le k) hk)
  | succ n =>
      obtain ⟨i, rfl, hi⟩ := hl
      have hlt := hbelow n i (Nat.lt_succ_self n) hi
      refine ⟨?_, iff_of_false (Option.some_ne_none i) ?_⟩
      · intro k hk
        cases hk
        refine ⟨⟨⟨n, hi⟩, hlt⟩, ?_⟩
        rintro i' ⟨⟨k, hk⟩, hlt'⟩
        rcases Nat.lt_or_ge n k with hnk | hkn
        · exact absurd (hj.trans (le_of_breakAt hm hnk hk)) (not_le_of_gt hlt')
        · exact le_of_breakAt hk hkn hi
      · intro hall
        exact absurd (hall i ⟨n, hi⟩) (not_le_of_gt hlt)

/-- The previous break is returned exactly when some break is not before `f`. -/
theorem prevWordBreakChar_iff (wordChars : UInt8 → Bool) (s : Bytes) (f : Int) :
    (∃ r, prevWordBreakChar s f wordChars = .ok r ∧ IsPrevBreak wordChars s f r) ↔
      ∃ i, IsBreak wordChars s i ∧ f ≤ i := by
  classical
  constructor
  · rintro ⟨r, hr, hprev⟩
    by_contra hnone
    have hbelow : ∀ i, IsBreak wordChars s i → i < f := fun i hi =>
      lt_of_not_ge fun hle => hnone ⟨i, hi, hle⟩
    have hstart : Before wordChars s 0 none := rfl
    have hfuel : s.length + 1 < s.length + 2 + 0 := by omega
    have hloop := prevWordBreakLoop_of_none (breakAt_length wordChars s) hbelow hstart
      (Nat.zero_le _) hfuel
    rw [prevWordBreakChar, hloop] at hr
    cases hr
    have hfirst : IsBreak wordChars s 1 := ⟨0, breakAt_zero⟩
    exact absurd (hprev.none_iff.mp rfl 1 hfirst) (not_le_of_gt (hbelow 1 hfirst))
  · rintro ⟨i, ⟨n, hn⟩, hle⟩
    have hexists : ∃ m j, breakAt wordChars s m = .ok (some j) ∧ f ≤ j := ⟨n, i, hn, hle⟩
    obtain ⟨j, hm, hj⟩ := Nat.find_spec hexists
    have hbelow : ∀ k i, k < Nat.find hexists → breakAt wordChars s k = .ok (some i) → i < f := by
      intro k i hk hi
      exact lt_of_not_ge fun hge => Nat.find_min hexists hk ⟨i, hi, hge⟩
    have hstart : Before wordChars s 0 none := rfl
    have hfuel : Nat.find hexists < s.length + 2 + 0 := by
      obtain ⟨r, hr, hbounds⟩ := gives_breakAt wordChars s (Nat.find hexists)
      rw [hm] at hr
      cases hr
      have hlen := hbounds j rfl
      omega
    obtain ⟨l, hl, hbefore⟩ :=
      exists_prevWordBreakLoop hm hj hbelow hstart (Nat.zero_le _) hfuel
    exact ⟨l, hl, isPrevBreak_of_before hm hj hbelow hbefore⟩

/-- From behind the last word, whose first character is the break before. -/
theorem prevWordBreakChar_at_end :
    prevWordBreakChar [97, 98] 3 (fun c => 97 ≤ c) = .ok none ∧
      IsBreak (fun c => 97 ≤ c) [97, 98] 1 ∧
      ¬ IsPrevBreak (fun c => 97 ≤ c) [97, 98] 3 none := by
  have hfirst : IsBreak (fun c => 97 ≤ c) [97, 98] 1 := ⟨0, rfl⟩
  refine ⟨by decide, hfirst, ?_⟩
  intro h
  exact absurd (h.none_iff.mp rfl 1 hfirst) (by decide)

end Previous

end LuaAttic.Codedit
