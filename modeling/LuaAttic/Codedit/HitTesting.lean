import Mathlib
import LuaAttic.Codedit.Positions
import LuaAttic.Codedit.View
import LuaAttic.Support.Coordinates

/-!
# Hit testing

The characters of a line have increasing coordinates, whatever tabs are among
them.  `char_at_line` looks for the two neighbouring characters around a coordinate,
so it finds each character at its own coordinate, and in its closest mode the
nearest character, the end of the line included.
-/

namespace LuaAttic.Codedit

open LuaAttic.Support LuaAttic.Lua Str

/-- The characters before the terminator are the contents of the line. -/
theorem nonterm_eq_contents {s : Bytes} (h : AtMostOneTerminator s) :
    View.nonterm s = contents s := by
  rcases h with hplain | ⟨body, t, rfl, hbody, ht⟩
  · rw [contents_plain hplain, View.nonterm, List.takeWhile_eq_self_iff]
    intro c hc
    simp [hplain c hc]
  · rw [contents_body_term hbody ht]
    apply takeWhile_plain_append hbody
    intro c hc
    exact ht.isTermByte c (List.mem_of_mem_head? hc)

namespace View

variable (v : View) {b : Buffer} {line : Int} {s : Bytes}

/-! ## The coordinates of the characters -/

theorem tabstopWidth_pos : 0 < v.tabstopWidth :=
  mul_pos v.charW_pos v.tabsize_pos

theorem le_nextTabstopX (x : Int) : x + v.tabstopMargin ≤ v.nextTabstopX x := by
  have hfloor := Int.ediv_mul_le (-(x + v.tabstopMargin)) v.tabstopWidth_pos.ne'
  rw [nextTabstopX, neg_mul]
  omega

theorem lt_nextX (hmargin : 1 ≤ v.tabstopMargin) (x : Int) (c : UInt8) : x < v.nextX x c := by
  have htab := v.le_nextTabstopX x
  have hchar := v.charW_pos
  unfold nextX
  split_ifs
  · omega
  · omega

/-- The coordinate after `n` characters of a line. -/
def xAt (s : Bytes) (n : ℕ) : Int := coordAt v.nextX 0 s n

theorem charXLoop_eq {i i1 : Int} (hi : i1 ≤ i) (x : Int) (s : Bytes) :
    v.charXLoop i i1 x s = coordAt v.nextX x s (i - i1).toNat := by
  induction s generalizing i1 x with
  | nil => simp [charXLoop, coordAt]
  | cons c s ih =>
      rw [charXLoop]
      by_cases hsame : i = i1
      · simp [hsame]
      · have hcount : (i - i1).toNat = (i - (i1 + 1)).toNat + 1 := by omega
        rw [if_neg hsame, hcount, coordAt_cons_succ, ih (by omega)]

theorem charX_eq (hs : b.lineAt line = some s) {i : Int} (hi : 1 ≤ i) :
    v.charX b line i = .ok (v.xAt (nonterm s) (i - 1).toNat) := by
  have hline := (Buffer.range_of_lineAt hs).1
  rw [charX, if_pos ⟨hi, hline⟩, hs, Option.getD_some, charXLoop_eq v hi, xAt]

/-! ## The search -/

section Search

variable {K : Type*} [CommRing K] [LinearOrder K] [IsStrictOrderedRing K]

/-- The loop of `char_at_line`, for a coordinate that need not be an integer. -/
def charAtLoopOf (x : K) (closest : Bool) (eol : Option Int) :
    Int → Int → Int → Int → Bytes → Option Int
  | xi, x0, i0, _, [] =>
      if (xi : K) > x then
        if closest then if x - (x0 : K) < (xi : K) - x then some i0 else eol
        else some i0
      else eol
  | xi, x0, i0, i, c :: s =>
      if (xi : K) > x then
        if closest then if x - (x0 : K) < (xi : K) - x then some i0 else some i
        else some i0
      else charAtLoopOf x closest eol (v.nextX xi c) xi i (i + 1) s

def charAtLineOf (b : Buffer) (line : Int) (x : K) (closest : Bool) : Option Int :=
  v.charAtLoopOf x closest (b.eol line) 0 0 1 1 (nonterm ((b.lineAt line).getD []))

theorem charAtLoop_eq (x : Int) (closest : Bool) (eol : Option Int) (xi x0 i0 i : Int)
    (s : Bytes) :
    v.charAtLoop x closest eol xi x0 i0 i s = v.charAtLoopOf x closest eol xi x0 i0 i s := by
  induction s generalizing xi x0 i0 i with
  | nil => simp only [charAtLoop, charAtLoopOf, Int.cast_id]
  | cons c s ih => simp only [charAtLoop, charAtLoopOf, Int.cast_id, ih]

/-- The integer coordinates are a case of the others. -/
theorem charAtLine_eq (x : Int) (closest : Bool) :
    v.charAtLine b line x closest = v.charAtLineOf b line x closest :=
  v.charAtLoop_eq x closest _ 0 0 1 1 _

variable {x : K} {closest : Bool} {xi x0 i0 i : Int} {n : ℕ}

/-- What is found between two neighbours. -/
def chosen (x : K) (closest : Bool) (lower upper i : Int) : Int :=
  if closest ∧ ¬ x - (lower : K) < (upper : K) - x then i + 1 else i

omit [IsStrictOrderedRing K] in
/-- The search at the first coordinate behind `x`. -/
theorem charAtLoopOf_of_lt (x0 i0 : Int) (h : x < (xi : K)) (s : Bytes) :
    v.charAtLoopOf x closest (some (i0 + 1 + s.length)) xi x0 i0 (i0 + 1) s =
      some (chosen x closest x0 xi i0) := by
  unfold chosen
  cases s with
  | nil =>
      rw [charAtLoopOf, if_pos h]
      cases closest with
      | false => rfl
      | true =>
          by_cases hhalf : x - (x0 : K) < (xi : K) - x
          · simp [hhalf]
          · simp [hhalf]
  | cons c s =>
      rw [charAtLoopOf, if_pos h]
      cases closest with
      | false => rfl
      | true =>
          by_cases hhalf : x - (x0 : K) < (xi : K) - x
          · simp [hhalf]
          · simp [hhalf]

/-- The search passes all coordinates that are not behind `x`. -/
theorem charAtLoopOf_between (hmargin : 1 ≤ v.tabstopMargin) (hn : n < s.length)
    (hle : ((coordAt v.nextX xi s n : Int) : K) ≤ x)
    (hlt : x < ((coordAt v.nextX xi s (n + 1) : Int) : K)) :
    v.charAtLoopOf x closest (some (i + s.length)) xi x0 i0 i s =
      some (chosen x closest (coordAt v.nextX xi s n) (coordAt v.nextX xi s (n + 1))
        (i + n)) := by
  induction n generalizing s xi x0 i0 i with
  | zero =>
      obtain ⟨c, s, rfl⟩ := List.exists_cons_of_ne_nil (List.ne_nil_of_length_pos hn)
      have heol : i + ((c :: s).length : Int) = i + 1 + s.length := by
        rw [List.length_cons]
        push_cast
        ring
      have hpassed : ((xi : Int) : K) ≤ x := hle
      rw [charAtLoopOf, if_neg (not_lt_of_ge hpassed), heol]
      simpa using v.charAtLoopOf_of_lt xi i hlt s
  | succ n ih =>
      obtain ⟨c, s, rfl⟩ :=
        List.exists_cons_of_ne_nil (List.ne_nil_of_length_pos (Nat.zero_lt_of_lt hn))
      have hfirst : xi ≤ coordAt v.nextX xi (c :: s) (n + 1) :=
        coordAt_monotone (fun x a => (v.lt_nextX hmargin x a).le) (Nat.zero_le (n + 1))
      have hpassed : ((xi : Int) : K) ≤ x := (Int.cast_le.mpr hfirst).trans hle
      have heol : i + ((c :: s).length : Int) = i + 1 + s.length := by
        rw [List.length_cons]
        push_cast
        ring
      have hindex : i + ((n + 1 : ℕ) : Int) = i + 1 + n := by
        push_cast
        ring
      rw [charAtLoopOf, if_neg (not_lt_of_ge hpassed), heol, hindex]
      exact ih (Nat.lt_of_succ_lt_succ hn) hle hlt

/-- Behind all coordinates the search ends at the end of the line. -/
theorem charAtLoopOf_behind (hmargin : 1 ≤ v.tabstopMargin) (eol : Option Int)
    (hle : ((coordAt v.nextX xi s s.length : Int) : K) ≤ x) :
    v.charAtLoopOf x closest eol xi x0 i0 i s = eol := by
  induction s generalizing xi x0 i0 i with
  | nil =>
      have hpassed : ((xi : Int) : K) ≤ x := hle
      rw [charAtLoopOf, if_neg (not_lt_of_ge hpassed)]
  | cons c s ih =>
      have hfirst : xi ≤ coordAt v.nextX xi (c :: s) (c :: s).length :=
        coordAt_monotone (fun x a => (v.lt_nextX hmargin x a).le) (Nat.zero_le _)
      have hpassed : ((xi : Int) : K) ≤ x := (Int.cast_le.mpr hfirst).trans hle
      rw [charAtLoopOf, if_neg (not_lt_of_ge hpassed)]
      exact ih hle

end Search

/-! ## The characters of a line -/

section Line

variable {K : Type*} [CommRing K] [LinearOrder K] [IsStrictOrderedRing K] {x : K}
  {closest : Bool}

theorem xAt_monotone (hmargin : 1 ≤ v.tabstopMargin) (s : Bytes) : Monotone (v.xAt s) :=
  coordAt_monotone fun x a => (v.lt_nextX hmargin x a).le

theorem eol_eq (hs : b.lineAt line = some s) :
    b.eol line = some (1 + ((contents s).length : Int)) := by
  rw [Buffer.eol_of_lineAt hs, termChar, add_comm]
  rfl

theorem charAtLineOf_before (hs : b.lineAt line = some s) (hline : AtMostOneTerminator s)
    (hx : x < 0) : v.charAtLineOf b line x closest = some 1 := by
  have hhalf : x < -x := hx.trans (neg_pos.mpr hx)
  rw [charAtLineOf, eol_eq hs, hs, Option.getD_some, nonterm_eq_contents hline]
  cases hcontents : contents s with
  | nil => simp [charAtLoopOf, hx, hhalf]
  | cons c rest => simp [charAtLoopOf, hx, hhalf]

/-- Between two neighbours one of them is found. -/
theorem charAtLineOf_between (closest : Bool) (hmargin : 1 ≤ v.tabstopMargin)
    (hs : b.lineAt line = some s) (hline : AtMostOneTerminator s) {n : ℕ}
    (hn : n < (contents s).length)
    (hle : ((v.xAt (contents s) n : Int) : K) ≤ x)
    (hlt : x < ((v.xAt (contents s) (n + 1) : Int) : K)) :
    v.charAtLineOf b line x closest =
      some (chosen x closest (v.xAt (contents s) n) (v.xAt (contents s) (n + 1)) (1 + n)) := by
  rw [charAtLineOf, eol_eq hs, hs, Option.getD_some, nonterm_eq_contents hline]
  exact v.charAtLoopOf_between hmargin hn hle hlt

theorem charAtLineOf_behind (hmargin : 1 ≤ v.tabstopMargin) (hs : b.lineAt line = some s)
    (hline : AtMostOneTerminator s)
    (hle : ((v.xAt (contents s) (contents s).length : Int) : K) ≤ x) :
    v.charAtLineOf b line x closest = some (1 + ((contents s).length : Int)) := by
  rw [charAtLineOf, eol_eq hs, hs, Option.getD_some, nonterm_eq_contents hline]
  exact v.charAtLoopOf_behind hmargin _ hle

/-- A character, or the end of the line, is found at its own coordinate. -/
theorem charAtLineOf_xAt (closest : Bool) (hmargin : 1 ≤ v.tabstopMargin)
    (hs : b.lineAt line = some s) (hline : AtMostOneTerminator s) {n : ℕ}
    (hn : n ≤ (contents s).length) :
    v.charAtLineOf b line ((v.xAt (contents s) n : Int) : K) closest = some (1 + (n : Int)) := by
  rcases hn.lt_or_eq with hlt | rfl
  · have hnext : v.xAt (contents s) n < v.xAt (contents s) (n + 1) :=
      coordAt_lt (v.lt_nextX hmargin) (Nat.lt_succ_self n) hlt
    have hnext' : ((v.xAt (contents s) n : Int) : K) < ((v.xAt (contents s) (n + 1) : Int) : K) :=
      Int.cast_lt.mpr hnext
    rw [v.charAtLineOf_between closest hmargin hs hline hlt (le_refl _) hnext']
    simp [chosen, hnext]
  · exact v.charAtLineOf_behind hmargin hs hline (le_refl _)

/-- So is a position at the coordinate that `char_x` returns for it. -/
theorem charAtLine_charX (closest : Bool) (hmargin : 1 ≤ v.tabstopMargin)
    (hs : b.lineAt line = some s) (hline : AtMostOneTerminator s) {i xi : Int} (hi : 1 ≤ i)
    (hle : i ≤ termChar s)
    (hx : v.charX b line i = .ok xi) : v.charAtLine b line xi closest = some i := by
  have hend : termChar s = (contents s).length + 1 := rfl
  have hfound := v.charAtLineOf_xAt (K := ℤ) (n := (i - 1).toNat)
    closest hmargin hs hline (by omega)
  rw [v.charX_eq hs hi, nonterm_eq_contents hline] at hx
  rw [Int.cast_id, Except.ok.inj hx] at hfound
  rw [charAtLine_eq, hfound]
  congr 1
  omega

/-- In the closest mode a nearest position of the line is found. -/
theorem charAtLineOf_isNearest (hmargin : 1 ≤ v.tabstopMargin) (hs : b.lineAt line = some s)
    (hline : AtMostOneTerminator s) (x : K) :
    ∃ n ≤ (contents s).length, v.charAtLineOf b line x true = some (1 + (n : Int)) ∧
      IsNearest (fun k => ((v.xAt (contents s) k : Int) : K)) x n := by
  have hmono : Monotone fun k => ((v.xAt (contents s) k : Int) : K) := fun _ _ hjk =>
    Int.cast_le.mpr (v.xAt_monotone hmargin (contents s) hjk)
  rcases lt_or_ge x 0 with hneg | hpos
  · refine ⟨0, Nat.zero_le _, v.charAtLineOf_before hs hline hneg, ?_⟩
    apply isNearest_first hmono
    simpa [xAt] using hneg.le
  · have hfirst : ((v.xAt (contents s) 0 : Int) : K) ≤ x := by simpa [xAt] using hpos
    rcases exists_neighbours (f := fun k => ((v.xAt (contents s) k : Int) : K)) hfirst
      (contents s).length with ⟨n, hn, hle, hlt⟩ | hle
    · have hfound := v.charAtLineOf_between true hmargin hs hline hn hle hlt
      by_cases hhalf : x - ((v.xAt (contents s) n : Int) : K) <
          ((v.xAt (contents s) (n + 1) : Int) : K) - x
      · refine ⟨n, hn.le, ?_, isNearest_lower hmono hle hhalf.le⟩
        rw [hfound, chosen, if_neg fun hboth => hboth.2 hhalf]
      · refine ⟨n + 1, hn, ?_, isNearest_upper hmono hlt.le (le_of_not_gt hhalf)⟩
        rw [hfound, chosen, if_pos ⟨rfl, hhalf⟩]
        push_cast
        rw [add_assoc]
    · refine ⟨_, le_refl _, v.charAtLineOf_behind hmargin hs hline hle, ?_⟩
      refine isNearest_last ?_ hle
      intro j
      exact Int.cast_le.mpr
        (coordAt_le_last (fun x a => (v.lt_nextX hmargin x a).le) j)

/-- The coordinates of a line increase, each of its positions is found at its own
coordinate, and what is found closest to any coordinate is a nearest position. -/
theorem hit_testing (hmargin : 1 ≤ v.tabstopMargin) (hs : b.lineAt line = some s)
    (hline : AtMostOneTerminator s) :
    (∀ i j, 1 ≤ i → i < j → j ≤ termChar s →
      ∃ xi xj, v.charX b line i = .ok xi ∧ v.charX b line j = .ok xj ∧ xi < xj) ∧
    (∀ i closest, 1 ≤ i → i ≤ termChar s →
      ∃ xi, v.charX b line i = .ok xi ∧ v.charAtLine b line xi closest = some i) ∧
    ∀ x : K, ∃ i xi, v.charAtLineOf b line x true = some i ∧ 1 ≤ i ∧ i ≤ termChar s ∧
      v.charX b line i = .ok xi ∧
      ∀ j xj, 1 ≤ j → j ≤ termChar s → v.charX b line j = .ok xj →
        |x - (xi : K)| ≤ |x - (xj : K)| := by
  have hend : termChar s = (contents s).length + 1 := rfl
  have hx : ∀ i, 1 ≤ i → v.charX b line i = .ok (v.xAt (contents s) (i - 1).toNat) := by
    intro i hi
    rw [v.charX_eq hs hi, nonterm_eq_contents hline]
  refine ⟨?_, ?_, ?_⟩
  · intro i j hi hij hj
    refine ⟨_, _, hx i hi, hx j (hi.trans hij.le), ?_⟩
    exact coordAt_lt (v.lt_nextX hmargin) (by omega) (by omega)
  · intro i closest hi hle
    exact ⟨_, hx i hi, v.charAtLine_charX closest hmargin hs hline hi hle (hx i hi)⟩
  · intro x
    obtain ⟨n, hn, hfound, hnearest⟩ := v.charAtLineOf_isNearest hmargin hs hline x
    have hcount : ((1 : Int) + n - 1).toNat = n := by omega
    have hxn := hx (1 + n) (by omega)
    rw [hcount] at hxn
    refine ⟨1 + n, _, hfound, by omega, by omega, hxn, ?_⟩
    intro j xj hj _ hxj
    rw [hx j hj] at hxj
    cases hxj
    exact hnearest _

end Line

/-- Two tabs in the first line of a text, at any rational coordinate. -/
theorem hit_testing_tabs :
    let v := View.new
    let b := (Buffer.new [LF]).loadString [97, TAB, TAB, 98, LF, 99]
    (∀ i j, 1 ≤ i → i < j → j ≤ termChar [97, TAB, TAB, 98, LF] →
      ∃ xi xj, v.charX b 1 i = .ok xi ∧ v.charX b 1 j = .ok xj ∧ xi < xj) ∧
    (∀ i closest, 1 ≤ i → i ≤ termChar [97, TAB, TAB, 98, LF] →
      ∃ xi, v.charX b 1 i = .ok xi ∧ v.charAtLine b 1 xi closest = some i) ∧
    ∀ x : ℚ, ∃ i xi, v.charAtLineOf b 1 x true = some i ∧ 1 ≤ i ∧
      i ≤ termChar [97, TAB, TAB, 98, LF] ∧ v.charX b 1 i = .ok xi ∧
      ∀ j xj, 1 ≤ j → j ≤ termChar [97, TAB, TAB, 98, LF] → v.charX b 1 j = .ok xj →
        |x - (xi : ℚ)| ≤ |x - (xj : ℚ)| :=
  hit_testing View.new (by decide) (by decide)
    (Or.inr ⟨[97, TAB, TAB, 98], [LF], rfl, by decide, Or.inl rfl⟩)

end View

end LuaAttic.Codedit
