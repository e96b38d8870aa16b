import LuaAttic.Codedit.Chars
import LuaAttic.Codedit.Remove
import LuaAttic.Codedit.Tabstops
import LuaAttic.Codedit.Vertical

/-!
# Deleting backwards

Backspace jumps back to the previous position and deletes forwards to the next one.
Among whitespace both jumps are to tabstops: the jump back stays behind the tabstop
before the cursor, and the jump forwards from there goes to the one after it, which is
the place of the cursor only if the cursor is at a tabstop.
-/

namespace LuaAttic.Codedit

open LuaAttic.Support LuaAttic.Lua Str
open MonadExcept (ofExcept)

/-! ## Where the tab options apply -/

namespace Cursor

/-- The position is one that the jumps with tabstops are on for. -/
def Jumps (jump : Tabstops) (b : Buffer) (line i : Int) : Prop :=
  match jump with
  | .always => True
  | .indent => b.indenting line i = .ok true
  | .never => False

/-- The cursor is between two whitespace characters of its line, off the tabstops, and
jumps with tabstops are on. -/
structure Overshoots (c : Cursor) (b : Buffer) (v : View) : Prop where
  jumps : Jumps c.deleteTabstops b c.line c.i
  between : ∃ s, b.lineAt c.line = some s ∧ c.i < termChar s ∧
    iswhitespace s (c.i - 1) = .ok true ∧ iswhitespace s c.i = .ok true
  offTabstop : ∃ x, v.charX b c.line c.i = .ok x ∧ ¬ v.tabstopWidth ∣ x

/-- The cursor is in the line `s`, behind `n` characters of it. -/
structure Behind (c : Cursor) (b : Buffer) (s : Bytes) (n : ℕ) : Prop where
  lineAt : b.lineAt c.line = some s
  atMostOne : AtMostOneTerminator s
  index : c.i = (n + 1 : ℕ)
  le : n ≤ (contents s).length

variable {c : Cursor} {b : Buffer} {v : View} {s : Bytes} {n : ℕ} {jump : Tabstops}

theorem exists_behind (hb : WellFormed b.lines) (hpos : ValidPos b c.line c.i) :
    ∃ s n, Behind c b s n := by
  obtain ⟨s, hs, hi, hle⟩ := Buffer.validPos_iff.mp hpos
  have hend : termChar s = (contents s).length + 1 := rfl
  exact ⟨s, (c.i - 1).toNat, hs, hb.atMostOne (Buffer.mem_of_lineAt hs), by omega, by omega⟩

theorem Behind.index_succ (h : Behind c b s n) : c.i + 1 = ((n + 1 + 1 : ℕ) : Int) := by
  rw [h.index]
  push_cast
  rfl

theorem Behind.length_le (h : Behind c b s n) : n ≤ s.length :=
  h.le.trans (length_contents_le s)

theorem Behind.eol_eq (h : Behind c b s n) :
    b.eol c.line = some (((contents s).length : Int) + 1) :=
  Buffer.eol_of_lineAt h.lineAt

theorem Behind.line_le (h : Behind c b s n) : 1 ≤ c.line ∧ c.line ≤ b.lines.length :=
  Buffer.range_of_lineAt h.lineAt

theorem Behind.charX_eq (h : Behind c b s n) :
    v.charX b c.line c.i = .ok (v.xAt (contents s) n) := by
  have hindex : (c.i - 1).toNat = n := by
    rw [h.index]
    omega
  rw [v.charX_eq h.lineAt (by rw [h.index]; omega), nonterm_eq_contents h.atMostOne, hindex]

/-- The option is read from the buffer for indents only. -/
theorem gives_jumps (jump : Tabstops) (b : Buffer) (line i : Int) :
    Gives (match jump with
      | .always => pure true
      | .indent => b.indenting line i
      | .never => pure false) fun on => on = true ↔ Jumps jump b line i := by
  cases jump with
  | always => exact Gives.pure (by simp [Jumps])
  | indent =>
      obtain ⟨on, hon, -⟩ := b.gives_indenting line i
      exact ⟨on, hon, by simp [Jumps, hon]⟩
  | never => exact Gives.pure (by simp [Jumps])

/-- What is before the first character that is not whitespace has only such positions
before it. -/
theorem Jumps.mono {line i j : Int} (h : Jumps jump b line i) (hle : j ≤ i) :
    Jumps jump b line j := by
  cases jump with
  | always => trivial
  | never => exact h
  | indent =>
      obtain ⟨nsi, hnsi, hindent⟩ := exists_of_bind_eq_ok h
      simp only [Jumps, Buffer.indenting, hnsi, bind, Except.bind]
      cases nsi with
      | none => rfl
      | some nsi =>
          have hbefore : i ≤ nsi := by simpa [pure, Except.pure] using hindent
          simp [pure, Except.pure, hle.trans hbefore]

/-- All characters between two columns are whitespace. -/
def White (s : Bytes) (m n : ℕ) : Prop := ∀ k, m ≤ k → k < n → ∀ c ∈ s[k]?, isWhite c = true

/-- A tabstop that is not at the cursor is not too close. -/
theorem tabstopIndex_eq {x i : Int} (next : Int → Int)
    (hfound : v.charAtLine b c.line x false = some i) (hne : i ≠ c.i) :
    c.tabstopIndex b v x next = .ok i := by
  have hclose : ¬ some i = some c.i := fun h => hne (Option.some.inj h)
  rw [tabstopIndex, hfound]
  simp only [if_neg hclose, nonNil]

/-! ## The jump back -/

/-- Where the whitespace before the cursor starts. -/
theorem Behind.gives_whiteStart (h : Behind c b s (n + 1)) :
    Gives (prevNonspaceChar s c.i) fun r => ∃ m ≤ n + 1, r.getD 0 = (m : ℕ) ∧
      White s m (n + 1) ∧ (m = n + 1 → ¬ White s n (n + 1)) := by
  have hlen := h.length_le
  rw [h.index]
  obtain ⟨r, hr, hsome, hnone⟩ :=
    gives_prevCharWhich (tests_isnonspace s) hlen (Nat.lt_succ_of_le hlen)
  refine ⟨r, hr, ?_⟩
  cases r with
  | none =>
      refine ⟨0, Nat.zero_le _, rfl, ?_, fun h0 => absurd h0 (Nat.succ_ne_zero n).symm⟩
      intro k _ hk c hc
      simpa using hnone rfl k hk c hc
  | some j =>
      obtain ⟨m, c', rfl, hm, hc', hblack, hbetween⟩ := hsome j rfl
      refine ⟨m + 1, hm, rfl, ?_, ?_⟩
      · intro k hmk hk c hc
        simpa using hbetween k hmk hk c hc
      · intro hmn hwhite
        obtain rfl : m = n := Nat.succ.inj hmn
        have hc := hwhite m (le_refl m) (Nat.lt_succ_self m) c' hc'
        rw [hc] at hblack
        cases hblack

/-- The jump back stays in the whitespace, and behind the tabstop before the cursor. -/
theorem Behind.gives_prevTab (h : Behind c b s (n + 1)) (hone : 1 ≤ v.tabstopMargin)
    (hmargin : v.tabstopMargin ≤ v.charW) (jump : Tabstops) :
    Gives (c.prevTab b v jump s) fun r =>
      (∀ j ∈ r, ∃ q ≤ n, j = ((q + 1 : ℕ) : Int) ∧ Jumps jump b c.line c.i ∧
        White s q (n + 1) ∧
        v.prevTabstopX (v.xAt (contents s) (n + 1)) ≤ v.xAt (contents s) q) ∧
      (r = none → ¬ (Jumps jump b c.line c.i ∧ White s n (n + 1))) := by
  obtain ⟨k, hk, hfound, hxk⟩ :=
    View.exists_prevTabstop hone hmargin h.lineAt h.atMostOne (Nat.succ_pos n) h.le
  refine Gives.bind (gives_jumps jump b c.line c.i) fun on hon => ?_
  cases on with
  | false => exact Gives.pure ⟨by simp, fun _ hboth => by simpa using hon.mpr hboth.1⟩
  | true =>
      have hjumps := hon.mp rfl
      have hindex := h.index
      have hts := tabstopIndex_eq v.prevTabstopX hfound (by omega)
      refine Gives.bind ⟨_, h.charX_eq, rfl⟩ ?_
      rintro _ rfl
      refine Gives.bind ⟨_, hts, rfl⟩ ?_
      rintro _ rfl
      refine Gives.bind h.gives_whiteStart fun r hr => ?_
      obtain ⟨m, hm, hget, hwhite, hblack⟩ := hr
      rw [hget]
      refine Gives.bind (gives_nextChar_getD (hm.trans h.length_le)) fun j hj => ?_
      rw [hj]
      refine Gives.pure ⟨?_, ?_⟩
      · intro j' hj'
        obtain ⟨hlt, heq⟩ := Option.ite_none_right_eq_some.mp hj'
        obtain rfl := Option.some.inj heq
        refine ⟨max m k, by omega, by push_cast; omega, hjumps, ?_, ?_⟩
        · intro i hi
          exact hwhite i ((le_max_left m k).trans hi)
        · rw [hxk]
          exact v.xAt_monotone hone _ (le_max_right m k)
      · intro hnone hboth
        have hmn : m = n + 1 := by
          by_contra hne
          have hlt : max ((m : Int) + 1) (1 + k) < c.i := by omega
          simp [hlt] at hnone
        exact hblack hmn hboth.2

/-- What the previous position is in the cases that the source tells apart. -/
theorem Behind.gives_prevPos (h : Behind c b s (n + 1)) (hone : 1 ≤ v.tabstopMargin)
    (hmargin : v.tabstopMargin ≤ v.charW) (jump : Tabstops) :
    Gives (c.prevPos b v jump) fun p => ∃ q ≤ n, p = (c.line, ((q + 1 : ℕ) : Int)) ∧
      ((Jumps jump b c.line c.i ∧ White s q (n + 1) ∧
          v.prevTabstopX (v.xAt (contents s) (n + 1)) ≤ v.xAt (contents s) q) ∨
        q = n ∧ ¬ (Jumps jump b c.line c.i ∧ White s n (n + 1))) := by
  have hindex := h.index
  have hrange := h.line_le
  have hle := h.le
  have hprev := prevChar_succ (s := s) (n := n) h.length_le
  rw [prevPos, if_neg (by omega), if_neg (by omega)]
  refine Gives.bind (gives_nonNil h.eol_eq _) ?_
  rintro _ rfl
  rw [if_neg (by omega)]
  refine Gives.bind (gives_nonNil h.lineAt _) ?_
  rintro _ rfl
  refine Gives.bind (h.gives_prevTab hone hmargin jump) ?_
  rintro r ⟨hsome, hnone⟩
  cases r with
  | some j =>
      obtain ⟨q, hq, rfl, hjump⟩ := hsome j rfl
      exact Gives.pure ⟨q, hq, rfl, Or.inl hjump⟩
  | none =>
      rw [hindex, hprev]
      exact Gives.ok ⟨n, le_refl n, rfl, Or.inr ⟨rfl, hindex ▸ hnone rfl⟩⟩

/-! ## The jump forwards -/

/-- Going forwards the option is read for the next index, if there is one. -/
theorem Behind.gives_jumpsNext (h : Behind c b s n) (hn : n < (contents s).length)
    (jump : Tabstops) :
    Gives (match jump with
      | .always => pure true
      | .indent => do
          match ← nextChar s c.i with
          | some i => b.indenting c.line i
          | none => pure false
      | .never => pure false) fun on =>
      (on = true → Jumps jump b c.line (c.i + 1)) ∧
        (Jumps jump b c.line (c.i + 1) → on = false → n + 1 = s.length) := by
  have hlen : n < s.length := hn.trans_le (length_contents_le s)
  cases jump with
  | always => exact Gives.pure (by simp [Jumps])
  | never => exact Gives.pure (by simp [Jumps])
  | indent =>
      rw [h.index_succ, h.index]
      rcases (Nat.succ_le_of_lt hlen).lt_or_eq with hlt | heq
      · obtain ⟨on, hon, -⟩ := b.gives_indenting c.line ((n + 1 + 1 : ℕ) : Int)
        refine Gives.bind ⟨_, nextChar_of_lt hlt, rfl⟩ ?_
        rintro _ rfl
        refine ⟨on, hon, ?_, ?_⟩
        · rintro rfl
          exact hon
        · rintro hjumps rfl
          cases hon.symm.trans hjumps
      · refine Gives.bind ⟨_, nextChar_of_ge heq.ge, rfl⟩ ?_
        rintro _ rfl
        exact Gives.pure ⟨by simp, fun _ _ => heq⟩

theorem white_singleton (h : n < s.length) : White s n (n + 1) ↔ isWhite s[n] = true := by
  constructor
  · intro hwhite
    exact hwhite n (le_refl n) (Nat.lt_succ_self n) _ (List.getElem?_eq_getElem h)
  · intro hwhite k hk hkn c hc
    obtain rfl := le_antisymm (Nat.le_of_lt_succ hkn) hk
    rw [List.getElem?_eq_getElem h] at hc
    cases hc
    exact hwhite

/-- Without the option, or from a character that is not whitespace, there is no jump. -/
theorem Behind.gives_nextTab_none (h : Behind c b s n) (hn : n < (contents s).length)
    (hoff : ¬ (Jumps jump b c.line (c.i + 1) ∧ White s n (n + 1))) :
    Gives (c.nextTab b v jump s) fun r => r = none := by
  have hlen : n < s.length := hn.trans_le (length_contents_le s)
  refine Gives.bind (h.gives_jumpsNext hn jump) ?_
  rintro on ⟨hon, -⟩
  have hstays : Gives (if on then iswhitespace s c.i else pure false) fun a => a = false := by
    cases on with
    | false => exact Gives.pure rfl
    | true =>
        refine ⟨_, h.index ▸ iswhitespace_succ hlen, Bool.eq_false_iff.mpr ?_⟩
        intro hspace
        exact hoff ⟨hon rfl, (white_singleton hlen).mpr hspace⟩
  refine Gives.bind hstays ?_
  rintro _ rfl
  exact Gives.pure rfl

/-- Where the whitespace that the cursor is in ends. -/
theorem Behind.gives_whiteEnd {q : ℕ} (h : Behind c b s q) (hqn : q < n)
    (hn : n ≤ (contents s).length) (hwhite : White s q n) :
    Gives (Str.nextNonspaceChar s c.i) fun r =>
      ∃ m, r.getD (((contents s).length : Int) + 1) = ((m + 1 : ℕ) : Int) ∧ n ≤ m ∧
        (m = n → n = (contents s).length ∨ ¬ White s n (n + 1)) ∧
        (¬ White s n (n + 1) → m = n) := by
  rw [h.index]
  obtain ⟨r, hr, hsome, hnone⟩ := gives_nextCharWhich (n := q + 1) (tests_isnonspace s)
    (Nat.lt_add_right (q + 1) (Nat.lt_succ_self s.length))
  refine ⟨r, hr, ?_⟩
  cases r with
  | none =>
      refine ⟨(contents s).length, rfl, hn, fun hlast => Or.inl hlast.symm, ?_⟩
      intro hblack
      refine absurd ?_ hblack
      intro k hk _ c hc
      simpa using hnone rfl k ((Nat.succ_le_of_lt hqn).trans hk) c hc
  | some j =>
      obtain ⟨m, c', rfl, hm, hc', hblack, hbetween⟩ := hsome j rfl
      have hnot : isWhite c' = false := by simpa using hblack
      have hnm : n ≤ m := by
        by_contra hlt
        have hc := hwhite m (Nat.le_of_succ_le hm) (Nat.lt_of_not_le hlt) c' hc'
        rw [hnot] at hc
        cases hc
      refine ⟨m, rfl, hnm, ?_, ?_⟩
      · rintro rfl
        refine Or.inr fun hwhite' => ?_
        have hc := hwhite' m (le_refl m) (Nat.lt_succ_self m) c' hc'
        rw [hnot] at hc
        cases hc
      · intro hblack'
        by_contra hne
        refine hblack' ?_
        intro k hk hkn c hc
        have hkm : k < m := by omega
        simpa using hbetween k ((Nat.succ_le_of_lt hqn).trans hk) hkm c hc

/-- The jump forwards from whitespace before the cursor ends at the cursor or behind
it. -/
theorem Behind.gives_nextTab_white {q : ℕ} (h : Behind c b s q) (hqn : q < n)
    (hn : n ≤ (contents s).length) (hone : 1 ≤ v.tabstopMargin)
    (hmargin : v.tabstopMargin ≤ v.charW) (hjumps : Jumps jump b c.line ((n + 1 : ℕ) : Int))
    (hwhite : White s q n)
    (hq : v.prevTabstopX (v.xAt (contents s) n) ≤ v.xAt (contents s) q) :
    Gives (c.nextTab b v jump s) fun r =>
      (∀ j ∈ r, ∃ k, j = ((k + 1 : ℕ) : Int) ∧ n ≤ k ∧ k ≤ (contents s).length ∧
        (k = n ↔ n = (contents s).length ∨ ¬ White s n (n + 1) ∨
          v.tabstopWidth ∣ v.xAt (contents s) n)) ∧
      (r = none → q + 1 = n ∧ n = (contents s).length) := by
  have hqlen : q < (contents s).length := hqn.trans_le hn
  have hcontents := length_contents_le s
  have hlen : q < s.length := hqlen.trans_le hcontents
  have hindex := h.index
  refine Gives.bind (h.gives_jumpsNext hqlen jump) ?_
  rintro on ⟨-, hoff⟩
  cases on with
  | false =>
      -- the option is off only at the last character of the text
      have hnext := hoff (hjumps.mono (by omega)) rfl
      exact Gives.pure ⟨by simp, fun _ => by omega⟩
  | true =>
      have hspace := (white_singleton hlen).mp fun k hk hkq =>
        hwhite k hk (Nat.lt_of_lt_of_le hkq hqn)
      obtain ⟨k, hnk, hk, hfound, hkn⟩ :=
        View.exists_nextTabstop hone hmargin h.lineAt h.atMostOne hqn hn hq
      have hts := tabstopIndex_eq v.nextTabstopX hfound (by omega)
      have hon : (if true = true then iswhitespace s c.i else pure false) = .ok true := by
        rw [if_pos rfl, hindex, iswhitespace_succ hlen, hspace]
      refine Gives.bind ⟨_, hon, rfl⟩ ?_
      rintro _ rfl
      refine Gives.bind ⟨_, h.charX_eq, rfl⟩ ?_
      rintro _ rfl
      refine Gives.bind ⟨_, hts, rfl⟩ ?_
      rintro _ rfl
      refine Gives.bind (gives_nonNil h.eol_eq _) ?_
      rintro _ rfl
      refine Gives.bind (h.gives_whiteEnd hqn hn hwhite) ?_
      rintro r ⟨m, hget, hnm, hmn, hblack⟩
      have hbehind : min (1 + (k : Int)) ((m + 1 : ℕ) : Int) > c.i := by omega
      rw [hget]
      simp only [if_pos hbehind]
      refine Gives.pure ⟨?_, fun hnone => by cases hnone⟩
      intro j hj
      obtain rfl := Option.some.inj hj
      refine ⟨min k m, by push_cast; omega, le_min hnk hnm, (min_le_left k m).trans hk, ?_⟩
      constructor
      · intro hmin
        rcases min_choice k m with hmink | hminm
        · exact (hkn.mp (hmink.symm.trans hmin)).imp_right Or.inr
        · exact (hmn (hminm.symm.trans hmin)).imp_right Or.inl
      · rintro (hlast | hblack' | hdvd)
        · rw [hkn.mpr (Or.inl hlast)]
          exact min_eq_left hnm
        · rw [hblack hblack']
          exact min_eq_right hnk
        · rw [hkn.mpr (Or.inr hdvd)]
          exact min_eq_left hnm

/-! ## Where the deleting ends -/

/-- The cursor is not in whitespace that the next tabstop is in or behind. -/
def Lands (v : View) (s : Bytes) (n : ℕ) : Prop :=
  n = (contents s).length ∨ ¬ White s n (n + 1) ∨ v.tabstopWidth ∣ v.xAt (contents s) n

theorem Behind.overshoots_iff (h : Behind c b s (n + 1)) :
    c.Overshoots b v ↔ (Jumps c.deleteTabstops b c.line c.i ∧ White s n (n + 1)) ∧
      ¬ Lands v s (n + 1) := by
  have hlen := h.length_le
  have hle := h.le
  have hend : termChar s = (contents s).length + 1 := rfl
  have hbefore : iswhitespace s (c.i - 1) = .ok (isWhite s[n]) := by
    have hindex : c.i - 1 = ((n + 1 : ℕ) : Int) := by
      rw [h.index]
      push_cast
      ring
    rw [hindex, iswhitespace_succ hlen]
  constructor
  · rintro ⟨hjumps, ⟨s', hs', hi, hspace, hspace'⟩, x, hx, hoff⟩
    obtain rfl := Option.some.inj (h.lineAt.symm.trans hs')
    rw [hend, h.index] at hi
    have hlt : n + 1 < s.length := by
      have hcontents := length_contents_le s
      omega
    obtain rfl := Except.ok.inj (h.charX_eq.symm.trans hx)
    rw [hbefore] at hspace
    rw [h.index, iswhitespace_succ hlt] at hspace'
    refine ⟨⟨hjumps, (white_singleton hlen).mpr (Except.ok.inj hspace)⟩, ?_⟩
    rintro (hlast | hblack | hdvd)
    · omega
    · exact hblack ((white_singleton hlt).mpr (Except.ok.inj hspace'))
    · exact hoff hdvd
  · rintro ⟨⟨hjumps, hspace⟩, hlands⟩
    have hlast : n + 1 ≠ (contents s).length := fun heq => hlands (Or.inl heq)
    have hwhite : White s (n + 1) (n + 1 + 1) := by
      by_contra hblack
      exact hlands (Or.inr (Or.inl hblack))
    have hlt : n + 1 < s.length := by
      have hcontents := length_contents_le s
      omega
    refine ⟨hjumps, ⟨s, h.lineAt, ?_, ?_, ?_⟩, _, h.charX_eq, ?_⟩
    · rw [hend, h.index]
      omega
    · rw [hbefore, (white_singleton hlen).mp hspace]
    · rw [h.index, iswhitespace_succ hlt, (white_singleton hlt).mp hwhite]
    · exact fun hdvd => hlands (Or.inr (Or.inr hdvd))

/-- From the previous position forwards. -/
theorem Behind.gives_nextPos_back {q : ℕ} (h : Behind c b s q) (hq : q ≤ n)
    (hn : n + 1 ≤ (contents s).length) (hone : 1 ≤ v.tabstopMargin)
    (hmargin : v.tabstopMargin ≤ v.charW)
    (hprev : (Jumps jump b c.line ((n + 1 + 1 : ℕ) : Int) ∧ White s q (n + 1) ∧
          v.prevTabstopX (v.xAt (contents s) (n + 1)) ≤ v.xAt (contents s) q) ∨
        q = n ∧ ¬ (Jumps jump b c.line ((n + 1 + 1 : ℕ) : Int) ∧ White s n (n + 1))) :
    Gives (c.nextPos b v true jump) fun p => ∃ k, p = (c.line, ((k + 1 : ℕ) : Int)) ∧
      n + 1 ≤ k ∧ k ≤ (contents s).length ∧
      (k = n + 1 ↔ ¬ ((Jumps jump b c.line ((n + 1 + 1 : ℕ) : Int) ∧ White s n (n + 1)) ∧
        ¬ Lands v s (n + 1))) := by
  have hindex := h.index
  have hrange := h.line_le
  have hqlen : q < (contents s).length := Nat.lt_of_le_of_lt hq hn
  have hcontents := length_contents_le s
  rw [nextPos, if_neg (by omega)]
  refine Gives.bind (gives_nonNil h.eol_eq _) ?_
  rintro _ rfl
  rw [if_neg (by omega)]
  refine Gives.bind (gives_nonNil h.lineAt _) ?_
  rintro _ rfl
  have hplain : Gives (do return (c.line, (← nextChar s c.i).getD (s.length + 1)))
      fun p => p = (c.line, ((q + 1 + 1 : ℕ) : Int)) := by
    rw [hindex]
    refine Gives.bind (gives_nextChar_getD (hqlen.trans_le hcontents)) ?_
    intro j hj
    exact Gives.pure (by rw [hj]; rfl)
  rcases hprev with ⟨hjumps, hwhite, hstop⟩ | ⟨rfl, hoff⟩
  · have hbefore : White s n (n + 1) := fun k hk => hwhite k (hq.trans hk)
    refine Gives.bind
      (h.gives_nextTab_white (Nat.lt_succ_of_le hq) hn hone hmargin hjumps hwhite hstop) ?_
    rintro r ⟨hsome, hnone⟩
    cases r with
    | some j =>
        obtain ⟨k, rfl, hnk, hk, hiff⟩ := hsome j rfl
        refine Gives.pure ⟨k, rfl, hnk, hk, hiff.trans ?_⟩
        rw [not_and_not_right]
        exact ⟨fun hlands _ => hlands, fun hlands => hlands ⟨hjumps, hbefore⟩⟩
    | none =>
        obtain ⟨hnext, hlast⟩ := hnone rfl
        obtain rfl := Nat.succ.inj hnext
        exact hplain.mono fun p hp =>
          ⟨q + 1, hp, le_refl _, hn, iff_of_true rfl fun hboth => hboth.2 (Or.inl hlast)⟩
  · refine Gives.bind (h.gives_nextTab_none hqlen (h.index_succ ▸ hoff)) ?_
    rintro _ rfl
    exact hplain.mono fun p hp =>
      ⟨q + 1, hp, le_refl _, hn, iff_of_true rfl fun hboth => hoff hboth.1⟩

end Cursor

namespace Editor

variable {e : Editor}

/-- What deleting backwards is to do: the cursor is at a position before the one it was
at, and only the text between the two is gone. -/
structure DeletesBack (e t : Editor) (p : Int × Int) : Prop where
  before : Buffer.NotAfter p (e.cursor.line, e.cursor.i)
  cursor : (t.cursor.line, t.cursor.i) = p
  text : t.buffer.lines.flatten =
    e.buffer.textBefore p.1 p.2 ++ e.buffer.textFrom e.cursor.line e.cursor.i

/-- A cursor is moved to any position of the text, whatever its options. -/
theorem move_validPos {line i : Int} (h : ValidPos e.buffer line i) :
    ∃ x, move line i false e =
      .ok () { e with cursor := { e.cursor with line := line, i := i, x := x } } := by
  obtain ⟨hfirst, hlast, hi, -⟩ := id h
  obtain ⟨i', hi', hkept⟩ := exists_withinLine (c := e.cursor) ⟨hfirst, hlast⟩ i
  obtain rfl := hkept h
  have hland : e.cursor.land e.buffer line i' false = .ok (line, i', false) := by
    rw [Cursor.land, if_neg (by omega), if_neg (by omega), if_neg (by omega)]
  obtain ⟨x, hx, -⟩ := Cursor.gives_coordX (c := { e.cursor with line := line, i := i' }) e.view h
  refine ⟨x, ?_⟩
  simp only [move, get_bind_apply, ofExcept_ok_bind, hland, hi', set_bind_apply, hx]
  rfl

/-- The run: the movement to the previous position, and what is removed from there. -/
theorem run_deletePrevPos {p : Int × Int} (r : Int × Int) {c : Cursor}
    (hb : WellFormed e.buffer.lines)
    (hprev : e.cursor.prevPos e.buffer e.view e.cursor.deleteTabstops = .ok p)
    (hmove : move p.1 p.2 false e = .ok () { e with cursor := c }) (hc : (c.line, c.i) = p)
    (hp : ValidPos e.buffer p.1 p.2) (hr : ValidPos e.buffer r.1 r.2) (hle : p.1 ≤ r.1)
    (hnext : c.nextPos e.buffer e.view true c.deleteTabstops = .ok r) :
    ∃ t, cursorDeletePrevPos e = .ok () t ∧ (t.cursor.line, t.cursor.i) = p ∧
      t.buffer.lines.flatten = e.buffer.textBefore p.1 p.2 ++ e.buffer.textFrom r.1 r.2 := by
  subst hc
  have hclamp := Buffer.clampPos_of_validPos hp
  have hclamp' := Buffer.clampPos_of_validPos hr
  obtain ⟨lines, ⟨b', hremove, rfl, -⟩, htext⟩ :=
    Buffer.exists_yields_remove hb c.line c.i r.1 r.2 (by rw [hclamp, hclamp']; exact hle)
  rw [hclamp, hclamp'] at htext
  refine ⟨{ e with cursor := c, buffer := b' }, ?_, rfl, htext⟩
  have hdelete : cursorDeletePos true { e with cursor := c } =
      .ok () { e with cursor := c, buffer := b' } := by
    simp only [cursorDeletePos, get_bind_apply, hnext, ofExcept_ok_bind, onBuffer, hremove]
  rw [cursorDeletePrevPos, get_bind_apply, hprev, ofExcept_ok_bind]
  exact (bind_of_ok hmove).trans hdelete

/-- From the start of a line the terminator before it is deleted. -/
theorem deletesBack_of_first (hb : WellFormed e.buffer.lines)
    (hpos : ValidPos e.buffer e.cursor.line e.cursor.i) (hi : e.cursor.i = 1)
    (hline : e.cursor.line ≠ 1) :
    ∃ p t, e.cursor.prevPos e.buffer e.view e.cursor.deleteTabstops = .ok p ∧
      cursorDeletePrevPos e = .ok () t ∧ DeletesBack e t p := by
  obtain ⟨hfirst, hlast, -, -⟩ := id hpos
  have hrange : 1 ≤ e.cursor.line - 1 ∧ e.cursor.line - 1 ≤ e.buffer.lines.length := by omega
  obtain ⟨s, hs⟩ := Buffer.lineAt_of_range hrange
  have heol := Buffer.eol_of_lineAt hs
  have hp : ValidPos e.buffer (e.cursor.line - 1) (termChar s) :=
    Buffer.validPos_iff.mpr ⟨s, hs, termChar_pos s, le_refl _⟩
  have hprev : e.cursor.prevPos e.buffer e.view e.cursor.deleteTabstops =
      .ok (e.cursor.line - 1, termChar s) := by
    rw [Cursor.prevPos, if_pos hi, if_neg hline, if_neg (by omega), heol]
    rfl
  obtain ⟨x, hmove⟩ := move_validPos hp
  have hnext : ({ e.cursor with line := e.cursor.line - 1, i := termChar s, x := x } :
      Cursor).nextPos e.buffer e.view true e.cursor.deleteTabstops =
      .ok (e.cursor.line, e.cursor.i) := by
    have hback : e.cursor.line - 1 + 1 = e.cursor.line := by ring
    have hinside : ¬ e.cursor.line - 1 > e.buffer.lines.length := by omega
    have hnotlast : ¬ e.cursor.line - 1 = e.buffer.lines.length := by omega
    simp only [Cursor.nextPos, if_neg hinside, heol, nonNil, bind, Except.bind, ge_iff_le,
      le_refl, if_true, hnotlast, and_false, if_false, hback, hi]
    rfl
  obtain ⟨t, hrun, hcursor, htext⟩ :=
    run_deletePrevPos (e.cursor.line, e.cursor.i) hb hprev hmove rfl hp hpos (by simp) hnext
  exact ⟨_, t, hprev, hrun, Or.inl (by simp), hcursor, htext⟩

/-- The text from two columns of a line is the same only if they are. -/
theorem textFrom_eq_iff {b : Buffer} {line : Int} {s : Bytes} (hs : b.lineAt line = some s)
    {k n : ℕ} (hk : k ≤ s.length) (hn : n ≤ s.length) :
    b.textFrom line ((k + 1 : ℕ) : Int) = b.textFrom line ((n + 1 : ℕ) : Int) ↔ k = n := by
  constructor
  · intro htext
    rw [Buffer.textFrom, Buffer.textFrom, List.append_cancel_right_eq,
      Buffer.textAt_of_lineAt hs, subFrom_drop s (by omega), subFrom_drop s (by omega)] at htext
    have hlength := congrArg List.length htext
    rw [List.length_drop, List.length_drop] at hlength
    omega
  · rintro rfl
    rfl

/-- From inside a line the deleting ends at the cursor, unless it overshoots. -/
theorem deletesBack_iff_of_behind {s : Bytes} {n : ℕ} (hb : WellFormed e.buffer.lines)
    (h : Cursor.Behind e.cursor e.buffer s (n + 1)) (hone : 1 ≤ e.view.tabstopMargin)
    (hmargin : e.view.tabstopMargin ≤ e.view.charW) :
    ∃ p t, e.cursor.prevPos e.buffer e.view e.cursor.deleteTabstops = .ok p ∧
      cursorDeletePrevPos e = .ok () t ∧
      (DeletesBack e t p ↔ ¬ e.cursor.Overshoots e.buffer e.view) := by
  have hend : termChar s = (contents s).length + 1 := rfl
  have hle := h.le
  have hcontents := length_contents_le s
  obtain ⟨p, hprev, q, hq, rfl, hjump⟩ :=
    h.gives_prevPos hone hmargin e.cursor.deleteTabstops
  have hvalid : ∀ m : ℕ, m ≤ (contents s).length →
      ValidPos e.buffer e.cursor.line ((m + 1 : ℕ) : Int) := by
    intro m hm
    exact Buffer.validPos_iff.mpr ⟨s, h.lineAt, by omega, by omega⟩
  obtain ⟨x, hmove⟩ := move_validPos (hvalid q (by omega))
  have hbehind : Cursor.Behind { e.cursor with line := e.cursor.line, i := (q + 1 : ℕ), x := x }
      e.buffer s q := ⟨h.lineAt, h.atMostOne, rfl, by omega⟩
  rw [h.index] at hjump
  obtain ⟨r, hnext, k, rfl, hnk, hk, hiff⟩ :=
    hbehind.gives_nextPos_back hq hle hone hmargin hjump
  obtain ⟨t, hrun, hcursor, htext⟩ := run_deletePrevPos (e.cursor.line, (k + 1 : ℕ)) hb
    hprev hmove rfl (hvalid q (by omega)) (hvalid k hk) (le_refl _) hnext
  refine ⟨_, t, hprev, hrun, ?_⟩
  rw [h.overshoots_iff, h.index, ← hiff,
    ← textFrom_eq_iff h.lineAt (hk.trans hcontents) (hle.trans hcontents)]
  constructor
  · intro hdeletes
    have hsame := htext.symm.trans hdeletes.text
    rw [h.index] at hsame
    exact List.append_cancel_left hsame
  · intro hsame
    refine ⟨Or.inr ⟨rfl, ?_⟩, hcursor, ?_⟩
    · rw [h.index]
      simp only
      omega
    · rw [htext, hsame, h.index]

/-- Deleting backwards removes what is between the previous position and the cursor,
exactly when the cursor does not overshoot. -/
theorem cursorDeletePrevPos_iff (hb : WellFormed e.buffer.lines)
    (hpos : ValidPos e.buffer e.cursor.line e.cursor.i)
    (hne : (e.cursor.line, e.cursor.i) ≠ (1, 1)) (hone : 1 ≤ e.view.tabstopMargin)
    (hmargin : e.view.tabstopMargin ≤ e.view.charW) :
    ∃ p t, e.cursor.prevPos e.buffer e.view e.cursor.deleteTabstops = .ok p ∧
      cursorDeletePrevPos e = .ok () t ∧
      (DeletesBack e t p ↔ ¬ e.cursor.Overshoots e.buffer e.view) := by
  obtain ⟨s, n, h⟩ := Cursor.exists_behind hb hpos
  by_cases hfirst : n = 0
  · subst hfirst
    have hi : e.cursor.i = 1 := h.index
    obtain ⟨p, t, hprev, hrun, hdeletes⟩ :=
      deletesBack_of_first hb hpos hi fun hline => hne (Prod.ext hline hi)
    refine ⟨p, t, hprev, hrun, iff_of_true hdeletes ?_⟩
    rintro ⟨-, ⟨s', -, -, hspace, -⟩, -⟩
    rw [hi] at hspace
    cases hspace
  · obtain ⟨m, rfl⟩ := Nat.exists_eq_succ_of_ne_zero hfirst
    exact deletesBack_iff_of_behind hb h hone hmargin

/-- An editor of six spaces, with a tabstop at every third, and the cursor behind some
of them. -/
def sixSpaces (i : Int) : Editor :=
  let e := new [LF] (List.replicate 6 SPACE) View.new []
  { e with cursor := { e.cursor with i := i } }

/-- At a tabstop the three spaces before it are deleted. -/
theorem cursorDeletePrevPos_iff_tabstop :
    ∃ p t, (sixSpaces 4).cursor.prevPos (sixSpaces 4).buffer (sixSpaces 4).view .always =
        .ok p ∧ cursorDeletePrevPos (sixSpaces 4) = .ok () t ∧ DeletesBack (sixSpaces 4) t p := by
  have hb : WellFormed (sixSpaces 4).buffer.lines :=
    (sound_loadString (List.replicate 6 SPACE) (Or.inl rfl)).lines
  have hpos : ValidPos (sixSpaces 4).buffer 1 4 :=
    Buffer.validPos_iff.mpr ⟨List.replicate 6 SPACE, by decide, by decide, by decide⟩
  obtain ⟨p, t, hprev, hrun, hiff⟩ :=
    cursorDeletePrevPos_iff hb hpos (by decide) (by decide) (by decide)
  refine ⟨p, t, hprev, hrun, hiff.mpr ?_⟩
  rintro ⟨-, -, x, hx, hoff⟩
  obtain rfl : 24 = x := Except.ok.inj hx
  exact hoff (by decide)

/-- Off a tabstop the space before the cursor is deleted, and the two behind it. -/
theorem cursorDeletePrevPos_overshoots :
    ValidPos (sixSpaces 5).buffer 1 5 ∧
      (sixSpaces 5).cursor.prevPos (sixSpaces 5).buffer (sixSpaces 5).view .always =
        .ok (1, 4) ∧
      ∃ t, cursorDeletePrevPos (sixSpaces 5) = .ok () t ∧
        t.buffer.lines = [List.replicate 3 SPACE] ∧
        ¬ DeletesBack (sixSpaces 5) t (1, 4) := by
  refine ⟨Buffer.validPos_iff.mpr ⟨List.replicate 6 SPACE, by decide, by decide, by decide⟩,
    rfl, _, rfl, rfl, ?_⟩
  intro hdeletes
  exact absurd hdeletes.text (by decide)

end Editor

end LuaAttic.Codedit
