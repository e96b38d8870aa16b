import Mathlib
import LuaAttic.Codedit.Str
import LuaAttic.Support.Coordinates

/-!
# Tab expansion (`codedit_tabs.lua`)

A string has a character column for each of its bytes and one for each space that
may be added behind it.  The visual column of a character column is its place after
tab expansion.  Looking for the column at a visual one stops at the first character
that covers it, and the nearer end of that character is the nearest of all columns.
-/

namespace LuaAttic.Codedit.Tabs

open LuaAttic.Support LuaAttic.Lua Str

/-! ## Tabstops -/

/-- The first tabstop after a visual column. -/
def nextTabstop (vcol tabsize : Int) : Int := ((vcol - 1) / tabsize + 1) * tabsize + 1

/-- How wide a tab is at a visual column. -/
def tabWidth (vcol tabsize : Int) : Int := nextTabstop vcol tabsize - vcol

/-- How many tabs and spaces fit between two visual columns. -/
def tabsAndSpaces (vcol1 vcol2 tabsize : Int) : Int × Int :=
  if vcol2 < vcol1 then (0, 0)
  else
    -- the distance left after the first tab
    let distanceLeft := vcol2 - nextTabstop vcol1 tabsize
    if distanceLeft ≥ 0 then
      let fullTabs := distanceLeft / tabsize
      (1 + fullTabs, distanceLeft - fullTabs * tabsize)
    else (0, vcol2 - vcol1)

/-! ## Columns -/

/-- The visual column after the character that is at `vcol`. -/
def nextCol (tabsize vcol : Int) (c : UInt8) : Int :=
  vcol + if c = TAB then tabWidth vcol tabsize else 1

/-- The loop of `visual_col`; `col1` and `vcol` are the character column before the
next character and the visual column of that character. -/
def visualColLoop (col tabsize : Int) : Int → Int → Bytes → Int
  | col1, vcol, [] => vcol + col - col1 - 1
  | col1, vcol, c :: s =>
      if col1 + 1 ≥ col then vcol
      else visualColLoop col tabsize (col1 + 1) (nextCol tabsize vcol c) s

def visualCol (s : Bytes) (col tabsize : Int) : Int := visualColLoop col tabsize 0 1 s

/-- The loop of `real_col`. -/
def realColLoop (vcol tabsize : Int) : Int → Int → Bytes → Int
  | col, vcol1, [] => col + vcol - vcol1 + 1
  | col, vcol1, c :: s =>
      let vcol2 := nextCol tabsize vcol1 c
      if vcol ≥ vcol1 ∧ vcol ≤ vcol2 then
        col + 1 + if vcol - vcol1 > vcol2 - vcol then 1 else 0
      else realColLoop vcol tabsize (col + 1) vcol2 s

def realCol (s : Bytes) (vcol tabsize : Int) : Int := realColLoop vcol tabsize 0 1 s

/-! ## The columns of a string -/

section Columns

variable {tabsize : Int}

theorem lt_nextTabstop (h : 1 ≤ tabsize) (vcol : Int) : vcol < nextTabstop vcol tabsize := by
  have hlt := Int.lt_ediv_add_one_mul_self (vcol - 1) (show 0 < tabsize by omega)
  rw [nextTabstop]
  omega

theorem lt_nextCol (h : 1 ≤ tabsize) (vcol : Int) (c : UInt8) : vcol < nextCol tabsize vcol c := by
  have htab := lt_nextTabstop h vcol
  unfold nextCol tabWidth
  by_cases hc : c = TAB
  · rw [if_pos hc]
    omega
  · rw [if_neg hc]
    omega

/-- The visual column of the character `n` places after one at `vcol`, where spaces
follow the string. -/
def colAt (tabsize vcol : Int) (s : Bytes) (n : ℕ) : Int :=
  coordAt (nextCol tabsize) vcol s n + (n - s.length : ℕ)

@[simp] theorem colAt_zero (vcol : Int) (s : Bytes) : colAt tabsize vcol s 0 = vcol := by
  simp [colAt]

@[simp] theorem colAt_cons_succ (vcol : Int) (c : UInt8) (s : Bytes) (n : ℕ) :
    colAt tabsize vcol (c :: s) (n + 1) = colAt tabsize (nextCol tabsize vcol c) s n := by
  simp [colAt]

theorem colAt_nil (vcol : Int) (n : ℕ) : colAt tabsize vcol [] n = vcol + n := by
  simp [colAt, coordAt]

theorem colAt_strictMono (h : 1 ≤ tabsize) (vcol : Int) (s : Bytes) :
    StrictMono (colAt tabsize vcol s) := by
  refine strictMono_nat_of_lt_succ ?_
  intro n
  rcases Nat.lt_or_ge n s.length with hn | hn
  · have hlt := coordAt_lt (x := vcol) (lt_nextCol h) (Nat.lt_succ_self n) hn
    have hnone : n - s.length = 0 := Nat.sub_eq_zero_of_le hn.le
    have hnone' : n + 1 - s.length = 0 := Nat.sub_eq_zero_of_le hn
    simpa only [colAt, hnone, hnone', Nat.cast_zero, add_zero] using hlt
  · rw [colAt, colAt, coordAt_of_length_le hn,
      coordAt_of_length_le (hn.trans (Nat.le_succ n))]
    omega

theorem visualColLoop_eq {col col1 : Int} (hcol : col1 < col) (vcol : Int) (s : Bytes) :
    visualColLoop col tabsize col1 vcol s = colAt tabsize vcol s (col - col1 - 1).toNat := by
  induction s generalizing col1 vcol with
  | nil =>
      rw [visualColLoop, colAt_nil]
      omega
  | cons c s ih =>
      rw [visualColLoop]
      by_cases hlast : col1 + 1 ≥ col
      · have hcount : (col - col1 - 1).toNat = 0 := by omega
        rw [if_pos hlast, hcount, colAt_zero]
      · have hcount : (col - col1 - 1).toNat = (col - (col1 + 1) - 1).toNat + 1 := by omega
        rw [if_neg hlast, hcount, colAt_cons_succ, ih (lt_of_not_ge hlast)]

/-- The visual columns are the coordinates of the characters. -/
theorem visualCol_eq (s : Bytes) {col : Int} (hcol : 1 ≤ col) :
    visualCol s col tabsize = colAt tabsize 1 s (col - 1).toNat := by
  rw [visualCol, visualColLoop_eq (Int.lt_of_lt_of_le Int.zero_lt_one hcol), sub_zero]

/-- The search returns the nearest column; the induction is on the string, where
each character that does not cover the column is left behind. -/
theorem exists_realColLoop_eq (h : 1 ≤ tabsize) {vcol vcol1 : Int} (hle : vcol1 ≤ vcol)
    (col : Int) (s : Bytes) :
    ∃ k : ℕ, realColLoop vcol tabsize col vcol1 s = col + 1 + k ∧
      IsNearest (colAt tabsize vcol1 s) vcol k := by
  induction s generalizing col vcol1 with
  | nil =>
      refine ⟨(vcol - vcol1).toNat, ?_, ?_⟩
      · rw [realColLoop]
        omega
      · have hself : colAt tabsize vcol1 [] (vcol - vcol1).toNat = vcol := by
          rw [colAt_nil]
          omega
        intro j
        rw [hself, sub_self, abs_zero]
        exact abs_nonneg _
  | cons c s ih =>
      have hmono := (colAt_strictMono h vcol1 (c :: s)).monotone
      have hnext : colAt tabsize vcol1 (c :: s) 1 = nextCol tabsize vcol1 c := by
        rw [colAt_cons_succ, colAt_zero]
      rw [realColLoop]
      by_cases hcovers : vcol ≤ nextCol tabsize vcol1 c
      · rw [if_pos ⟨hle, hcovers⟩]
        by_cases hhalf : vcol - vcol1 > nextCol tabsize vcol1 c - vcol
        · refine ⟨1, by rw [if_pos hhalf]; rfl, ?_⟩
          apply isNearest_upper hmono
          · rwa [zero_add, hnext]
          · rw [zero_add, hnext, colAt_zero]
            exact hhalf.le
        · refine ⟨0, by rw [if_neg hhalf]; rfl, ?_⟩
          apply isNearest_lower hmono
          · rwa [colAt_zero]
          · rw [zero_add, hnext, colAt_zero]
            exact le_of_not_gt hhalf
      · have hbehind : nextCol tabsize vcol1 c ≤ vcol := (lt_of_not_ge hcovers).le
        obtain ⟨k, hloop, hnearest⟩ := ih hbehind (col + 1)
        rw [if_neg fun hboth => hcovers hboth.2, hloop]
        refine ⟨k + 1, by push_cast; ring, ?_⟩
        apply IsNearest.of_succ hmono (hnext.trans_le hbehind)
        simpa only [colAt_cons_succ] using hnearest

/-- Visual columns increase, the real column of a visual column is the column it
came from, and that of any other place is a nearest one. -/
theorem tab_columns (s : Bytes) (h : 1 ≤ tabsize) :
    (∀ c c', 1 ≤ c → c < c' → visualCol s c tabsize < visualCol s c' tabsize) ∧
      (∀ c, 1 ≤ c → realCol s (visualCol s c tabsize) tabsize = c) ∧
      ∀ v, 1 ≤ v → 1 ≤ realCol s v tabsize ∧
        ∀ c, 1 ≤ c → |v - visualCol s (realCol s v tabsize) tabsize| ≤
          |v - visualCol s c tabsize| := by
  have hmono := colAt_strictMono h 1 s
  refine ⟨?_, ?_, ?_⟩
  · intro c c' hc hlt
    rw [visualCol_eq s hc, visualCol_eq s (hc.trans hlt.le)]
    exact hmono (by omega)
  · intro c hc
    have hle : 1 ≤ colAt tabsize 1 s (c - 1).toNat := by
      simpa using hmono.monotone (Nat.zero_le (c - 1).toNat)
    obtain ⟨k, hloop, hnearest⟩ := exists_realColLoop_eq h hle 0 s
    have hk : k = (c - 1).toNat := hnearest.eq hmono.injective
    rw [visualCol_eq s hc, realCol, hloop, hk]
    omega
  · intro v hv
    obtain ⟨k, hloop, hnearest⟩ := exists_realColLoop_eq h hv 0 s
    have hcol : 1 ≤ realCol s v tabsize := by
      rw [realCol, hloop]
      omega
    refine ⟨hcol, ?_⟩
    intro c hc
    have hk : (realCol s v tabsize - 1).toNat = k := by
      rw [realCol, hloop]
      omega
    rw [visualCol_eq s hcol, visualCol_eq s hc, hk]
    exact hnearest _

/-- Tabs at two places of a tabstop. -/
theorem tab_columns_mixed :
    (∀ c c', 1 ≤ c → c < c' →
        visualCol [97, TAB, TAB, 98] c 3 < visualCol [97, TAB, TAB, 98] c' 3) ∧
      (∀ c, 1 ≤ c →
        realCol [97, TAB, TAB, 98] (visualCol [97, TAB, TAB, 98] c 3) 3 = c) ∧
      ∀ v, 1 ≤ v → 1 ≤ realCol [97, TAB, TAB, 98] v 3 ∧
        ∀ c, 1 ≤ c →
          |v - visualCol [97, TAB, TAB, 98] (realCol [97, TAB, TAB, 98] v 3) 3| ≤
            |v - visualCol [97, TAB, TAB, 98] c 3| :=
  tab_columns [97, TAB, TAB, 98] (by decide)

end Columns

/-! ## Filling a distance -/

section Fill

variable {tabsize : Int}

/-- The visual column after some text. -/
def endCol (tabsize vcol : Int) (s : Bytes) : Int := s.foldl (nextCol tabsize) vcol

/-- Tabs and then spaces. -/
def fill (tabs spaces : ℕ) : Bytes := List.replicate tabs TAB ++ List.replicate spaces SPACE

theorem nextTabstop_add_mul (h : 1 ≤ tabsize) (vcol : Int) (n : ℕ) :
    nextTabstop (nextTabstop vcol tabsize + n * tabsize) tabsize =
      nextTabstop vcol tabsize + (n + 1) * tabsize := by
  have hne : tabsize ≠ 0 := by omega
  have hquot : (nextTabstop vcol tabsize + n * tabsize - 1) / tabsize =
      (vcol - 1) / tabsize + 1 + n := by
    have hprod : nextTabstop vcol tabsize + n * tabsize - 1 =
        ((vcol - 1) / tabsize + 1 + n) * tabsize := by
      rw [nextTabstop]
      ring
    rw [hprod, Int.mul_ediv_cancel _ hne]
  rw [nextTabstop, hquot, nextTabstop]
  ring

/-- The first tab reaches to the next tabstop, and each one after it one further. -/
theorem endCol_tabs (h : 1 ≤ tabsize) (vcol : Int) (n : ℕ) :
    endCol tabsize vcol (List.replicate (n + 1) TAB) =
      nextTabstop vcol tabsize + n * tabsize := by
  have hnext : ∀ v, nextCol tabsize v TAB = nextTabstop v tabsize := by
    intro v
    rw [nextCol, if_pos rfl, tabWidth]
    ring
  induction n with
  | zero => simp [endCol, hnext]
  | succ n ih =>
      rw [endCol] at ih
      rw [endCol, List.replicate_succ', List.foldl_append, ih, List.foldl_cons, List.foldl_nil,
        hnext, nextTabstop_add_mul h]
      push_cast
      rfl

theorem endCol_spaces (tabsize vcol : Int) (n : ℕ) :
    endCol tabsize vcol (List.replicate n SPACE) = vcol + n := by
  induction n with
  | zero => simp [endCol]
  | succ n ih =>
      rw [endCol] at ih
      rw [endCol, List.replicate_succ', List.foldl_append, ih, List.foldl_cons, List.foldl_nil,
        nextCol, if_neg (by decide)]
      push_cast
      ring

theorem endCol_fill (vcol : Int) (tabs spaces : ℕ) :
    endCol tabsize vcol (fill tabs spaces) =
      endCol tabsize vcol (List.replicate tabs TAB) + spaces := by
  have hspaces := endCol_spaces tabsize
    (endCol tabsize vcol (List.replicate tabs TAB)) spaces
  rw [endCol] at hspaces
  rw [fill, endCol, List.foldl_append]
  exact hspaces

/-- Any number of tabs too many goes behind a column that the next tab would be
behind. -/
theorem endCol_fill_ne (h : 1 ≤ tabsize) {vcol1 vcol2 : Int} {tabs : ℕ}
    (hbehind : vcol2 < nextTabstop vcol1 tabsize + tabs * tabsize) {tabs' : ℕ}
    (hmore : tabs < tabs') (spaces : ℕ) :
    endCol tabsize vcol1 (fill tabs' spaces) ≠ vcol2 := by
  obtain ⟨n, rfl⟩ : ∃ n, tabs' = n + 1 := ⟨tabs' - 1, by omega⟩
  have hle : (tabs : Int) * tabsize ≤ n * tabsize := by
    have hcount : (tabs : Int) ≤ n := by exact_mod_cast Nat.le_of_lt_succ hmore
    exact mul_le_mul_of_nonneg_right hcount (by omega)
  rw [endCol_fill, endCol_tabs h]
  omega

/-- The tabs and spaces cover the distance between the two columns, with fewer
spaces than a tab is wide, and no more tabs can be used. -/
theorem tabsAndSpaces_fill (h : 1 ≤ tabsize) {vcol1 vcol2 : Int} (hle : vcol1 ≤ vcol2) :
    ∃ tabs spaces : ℕ, tabsAndSpaces vcol1 vcol2 tabsize = ((tabs : Int), (spaces : Int)) ∧
      endCol tabsize vcol1 (fill tabs spaces) = vcol2 ∧ (spaces : Int) < tabsize ∧
      ∀ tabs' spaces', tabs < tabs' → endCol tabsize vcol1 (fill tabs' spaces') ≠ vcol2 := by
  have hpos : 0 < tabsize := by omega
  rw [tabsAndSpaces, if_neg (not_lt_of_ge hle)]
  by_cases hfirst : vcol2 - nextTabstop vcol1 tabsize ≥ 0
  · -- the quotient and the remainder of what the first tab leaves
    have hquot := Int.ediv_nonneg hfirst hpos.le
    have hrem := Int.emod_nonneg (vcol2 - nextTabstop vcol1 tabsize) hpos.ne'
    have hlt := Int.emod_lt_of_pos (vcol2 - nextTabstop vcol1 tabsize) hpos
    have hsum := Int.mul_ediv_add_emod (vcol2 - nextTabstop vcol1 tabsize) tabsize
    obtain ⟨full, hfull⟩ := Int.eq_ofNat_of_zero_le hquot
    obtain ⟨spaces, hspaces⟩ := Int.eq_ofNat_of_zero_le hrem
    rw [hfull, hspaces, mul_comm] at hsum
    rw [hspaces] at hlt
    refine ⟨full + 1, spaces, ?_, ?_, hlt, ?_⟩
    · rw [if_pos hfirst]
      simp only [hfull, Prod.mk.injEq]
      push_cast
      constructor
      · ring
      · omega
    · rw [endCol_fill, endCol_tabs h]
      omega
    · intro tabs' spaces' hmore
      apply endCol_fill_ne h _ hmore
      push_cast
      linarith
  · have hwidth : nextTabstop vcol1 tabsize ≤ vcol1 + tabsize := by
      have hfloor := Int.ediv_mul_le (vcol1 - 1) hpos.ne'
      rw [nextTabstop]
      linarith
    obtain ⟨spaces, hspaces⟩ := Int.eq_ofNat_of_zero_le (sub_nonneg.mpr hle)
    refine ⟨0, spaces, ?_, ?_, by omega, ?_⟩
    · rw [if_neg hfirst, hspaces]
      rfl
    · rw [endCol_fill]
      simp only [List.replicate_zero, endCol, List.foldl_nil]
      omega
    · intro tabs' spaces' hmore
      apply endCol_fill_ne h _ hmore
      push_cast
      linarith

/-- From inside one tab to inside the next but one. -/
theorem tabsAndSpaces_fill_two :
    ∃ tabs spaces : ℕ, tabsAndSpaces 2 8 3 = ((tabs : Int), (spaces : Int)) ∧
      endCol 3 2 (fill tabs spaces) = 8 ∧ (spaces : Int) < 3 ∧
      ∀ tabs' spaces', tabs < tabs' → endCol 3 2 (fill tabs' spaces') ≠ 8 :=
  tabsAndSpaces_fill (by decide) (by decide)

end Fill

end LuaAttic.Codedit.Tabs
