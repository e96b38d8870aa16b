import Mathlib.Algebra.Order.Floor.Ring
import Mathlib.Data.List.Nodup
import Mathlib.Data.List.Perm.Basic
import Mathlib.Data.Rat.Floor
import Mathlib.Tactic.FieldSimp
import Mathlib.Tactic.Linarith
import LuaAttic.Lua.Basic

/-!
# Global time on a path (`path_global_time.lua`)

The time range from 0 to 1 is divided evenly among the timed commands of a path.
A global time is a timed command and a time on it.
-/

namespace LuaAttic.PathTime

open LuaAttic.Lua

/-! ## Commands -/

/-- The commands that take time. -/
inductive Timed
  | close
  | line
  | hline
  | vline
  | curve
  | symmCurve
  | smoothCurve
  | quadCurve
  | quadCurve3p
  | symmQuadCurve
  | smoothQuadCurve
  | carc
  | arc
  | ellipticArc
  | lineArc
  | lineEllipticArc
  | arc3p
  | svgarc
  deriving DecidableEq, Repr

/-- The name of a command; `rel` is what begins with `'rel_'`. -/
inductive Name
  | abs (c : Timed)
  | rel (c : Timed)
  | other (s : String)
  deriving DecidableEq, Repr

/-- `is_timed[s]` -/
def isTimed : Name → Bool
  | .abs _ => true
  | .rel _ => true
  | .other _ => false

/-- A command with the index that it has in its path. -/
abbrev Command := ℕ × Name

/-- How many commands are timed. -/
def timedCount (cs : List Command) : ℕ := cs.countP fun c => isTimed c.2

/-- `math.modf(x)` -/
def modf (x : ℚ) : ℤ × ℚ :=
  let n := if 0 ≤ x then ⌊x⌋ else ⌈x⌉
  (n, x - n)

section Times

-- what `commands(path)` yields is not part of the file
variable {Path : Type} (commands : Path → List Command)

/-- A step of the loop of `global_time`: `count` and `n`. -/
def countStep (i : ℕ) (r : ℕ × Option ℕ) (c : Command) : ℕ × Option ℕ :=
  let count := r.1 + if isTimed c.2 then 1 else 0
  (count, if c.1 = i then some count else r.2)

/-- `global_time(i, t, path)` -/
def globalTime (i : ℕ) (t : ℚ) (path : Path) : Except Error ℚ := do
  let (count, n) := (commands path).foldl (countStep i) (0, none)
  let n ← nonNil .assertionFailed n
  return ((n : ℚ) - 1 + t) / count

/-- The last loop of `local_time`, with the count before it. -/
def findCommand (n : ℤ) : ℕ → List Command → Option ℕ
  | _, [] => none
  | count, c :: cs =>
      let count := count + if isTimed c.2 then 1 else 0
      if (count : ℤ) = n then some c.1 else findCommand n count cs

/-- `local_time(t, path)`; nil for a path without timed commands. -/
def localTime (t : ℚ) (path : Path) : Except Error (Option (ℕ × ℚ)) :=
  let t := min (max t 0) 1
  let count := timedCount (commands path)
  if count = 0 then .ok none
  else
    let (n, t) := modf (count * t)
    let n := n + 1
    let (n, t) := if n > count then ((count : ℤ), 1) else (n, t)
    match findCommand n 0 (commands path) with
    | some i => .ok (some (i, t))
    | none => .error .assertionFailed

end Times

/-! ## Counting -/

section Counting

variable {pre post : List Command} {i : ℕ} {s : Name}

theorem timedCount_append (l l' : List Command) :
    timedCount (l ++ l') = timedCount l + timedCount l' :=
  List.countP_append

theorem timedCount_cons (c : Command) (l : List Command) :
    timedCount (c :: l) = timedCount l + if isTimed c.2 then 1 else 0 :=
  List.countP_cons

theorem countStep_of_ne {c : Command} (h : c.1 ≠ i) (r : ℕ × Option ℕ) :
    countStep i r c = (r.1 + if isTimed c.2 then 1 else 0, r.2) := by
  rw [countStep, if_neg h]

theorem foldl_countStep_of_not_mem {l : List Command} (h : i ∉ l.map Prod.fst)
    (r : ℕ × Option ℕ) : l.foldl (countStep i) r = (r.1 + timedCount l, r.2) := by
  induction l generalizing r with
  | nil => rfl
  | cons c l ih =>
      rw [List.map_cons, List.mem_cons, not_or] at h
      rw [List.foldl_cons, countStep_of_ne (Ne.symm h.1), ih h.2, timedCount_cons]
      congr 1
      omega

/-- The number of a timed command, and how many there are. -/
theorem foldl_countStep (hnodup : ((pre ++ (i, s) :: post).map Prod.fst).Nodup)
    (hs : isTimed s = true) :
    (pre ++ (i, s) :: post).foldl (countStep i) (0, none) =
      (timedCount (pre ++ (i, s) :: post), some (timedCount pre + 1)) := by
  rw [List.map_append, List.map_cons, List.nodup_middle, List.nodup_cons, List.mem_append,
    not_or] at hnodup
  obtain ⟨⟨hpre, hpost⟩, -⟩ := hnodup
  rw [List.foldl_append, foldl_countStep_of_not_mem hpre, List.foldl_cons, countStep, if_pos rfl,
    foldl_countStep_of_not_mem hpost, timedCount_append, timedCount_cons]
  simp only [hs, if_true, Nat.zero_add]
  congr 1
  omega

/-- The command with a number is found. -/
theorem findCommand_append (hs : isTimed s = true) {n count : ℕ}
    (hn : n = count + timedCount pre + 1) :
    findCommand n count (pre ++ (i, s) :: post) = some i := by
  induction pre generalizing count with
  | nil =>
      have hn' : n = count + 1 := hn
      simp only [List.nil_append, findCommand, hs, if_true, hn']
  | cons c pre ih =>
      rw [timedCount_cons] at hn
      have hne : ((count + if isTimed c.2 then 1 else 0 : ℕ) : ℤ) ≠ n := by
        intro h
        have := Int.ofNat_inj.mp h
        omega
      rw [List.cons_append, findCommand, if_neg hne]
      apply ih
      omega

/-- There is a timed command with each number up to their count. -/
theorem exists_timed {l : List Command} {n : ℕ} (hn : n < timedCount l) :
    ∃ pre i s post, l = pre ++ (i, s) :: post ∧ isTimed s = true ∧ timedCount pre = n := by
  induction l generalizing n with
  | nil => exact absurd hn (Nat.not_lt_zero n)
  | cons c l ih =>
      rw [timedCount_cons] at hn
      by_cases hc : isTimed c.2 = true
      · rw [if_pos hc] at hn
        cases n with
        | zero => exact ⟨[], c.1, c.2, l, rfl, hc, rfl⟩
        | succ n =>
            obtain ⟨pre, i, s, post, rfl, hs, hpre⟩ := ih (Nat.lt_of_succ_lt_succ hn)
            refine ⟨c :: pre, i, s, post, rfl, hs, ?_⟩
            rw [timedCount_cons, if_pos hc, hpre]
      · rw [if_neg hc] at hn
        obtain ⟨pre, i, s, post, rfl, hs, hpre⟩ := ih hn
        refine ⟨c :: pre, i, s, post, rfl, hs, ?_⟩
        rw [timedCount_cons, if_neg hc, hpre, Nat.add_zero]

end Counting

/-! ## Scaled times -/

/-- A scaled time in the span of a number is split into that number and the time in it. -/
theorem modf_add (k : ℕ) {t : ℚ} (h0 : 0 ≤ t) (h1 : t < 1) : modf (k + t) = ((k : ℤ), t) := by
  have hnonneg : 0 ≤ (k : ℚ) + t := add_nonneg (Nat.cast_nonneg k) h0
  have hfloor : ⌊(k : ℚ) + t⌋ = (k : ℤ) := by
    rw [Int.floor_natCast_add, Int.floor_eq_zero_iff.mpr ⟨h0, h1⟩, add_zero]
  rw [modf, if_pos hnonneg, hfloor]
  congr 1
  rw [Int.cast_natCast, add_sub_cancel_left]

/-- A scaled time is in the span of a number. -/
theorem exists_span {x : ℚ} (h : 0 ≤ x) : ∃ (k : ℕ) (t : ℚ), x = k + t ∧ 0 ≤ t ∧ t < 1 := by
  refine ⟨⌊x⌋₊, x - ⌊x⌋₊, ?_, ?_, ?_⟩
  · rw [add_sub_cancel]
  · exact sub_nonneg.mpr (Nat.floor_le h)
  · exact sub_lt_iff_lt_add'.mpr (Nat.lt_floor_add_one x)

section Times

variable {Path : Type} {commands : Path → List Command} {path : Path}
  {pre post : List Command} {i : ℕ} {s : Name}

theorem timedCount_split (hs : isTimed s = true) :
    timedCount (pre ++ (i, s) :: post) = timedCount pre + 1 + timedCount post := by
  rw [timedCount_append, timedCount_cons, if_pos hs]
  omega

/-- The global time is the place of the command in the range, with the time on it. -/
theorem globalTime_split (hpath : commands path = pre ++ (i, s) :: post)
    (hnodup : ((commands path).map Prod.fst).Nodup) (hs : isTimed s = true) (t : ℚ) :
    globalTime commands i t path =
      .ok (((timedCount pre : ℚ) + t) / timedCount (commands path)) := by
  rw [hpath] at hnodup
  rw [globalTime, hpath, foldl_countStep hnodup hs]
  change Except.ok _ = _
  congr 2
  push_cast
  ring

theorem timedCount_pos (hpath : commands path = pre ++ (i, s) :: post) (hs : isTimed s = true) :
    timedCount pre < timedCount (commands path) := by
  rw [hpath, timedCount_split hs]
  omega

/-- A time in the span of a command, before its end, is a time on that command. -/
theorem localTime_of_span (hpath : commands path = pre ++ (i, s) :: post)
    (hs : isTimed s = true) {g t : ℚ} (hg0 : 0 ≤ g) (hg1 : g ≤ 1) (h0 : 0 ≤ t) (h1 : t < 1)
    (hg : timedCount (commands path) * g = timedCount pre + t) :
    localTime commands g path = .ok (some (i, t)) := by
  have hlt := timedCount_pos hpath hs
  have hle : ¬ ((timedCount pre : ℤ) + 1 > timedCount (commands path)) := by omega
  have hfind : findCommand ((timedCount pre : ℤ) + 1) 0 (commands path) = some i := by
    rw [hpath]
    apply findCommand_append hs
    rw [Nat.zero_add]
  simp only [localTime, max_eq_left hg0, min_eq_left hg1, hg, modf_add _ h0 h1,
    if_neg (Nat.ne_of_gt (Nat.zero_lt_of_lt hlt)), if_neg hle]
  rw [hfind]

/-- The end of the range is the end of the last timed command. -/
theorem localTime_one (hpath : commands path = pre ++ (i, s) :: post) (hs : isTimed s = true)
    (hlast : timedCount pre + 1 = timedCount (commands path)) :
    localTime commands 1 path = .ok (some (i, 1)) := by
  have hpos : timedCount (commands path) ≠ 0 := by omega
  have hspan : modf (timedCount (commands path) * 1) = ((timedCount (commands path) : ℤ), 0) := by
    rw [mul_one]
    simpa only [add_zero] using modf_add (timedCount (commands path)) le_rfl one_pos
  have hfind : findCommand (timedCount (commands path)) 0 (commands path) = some i := by
    rw [← hlast, hpath]
    apply findCommand_append hs
    rw [Nat.zero_add]
  simp only [localTime, max_eq_left zero_le_one, min_self, hspan, if_neg hpos,
    if_pos (Int.lt_add_one_of_le le_rfl)]
  rw [hfind]

/-- The global time of a time on a command gives it back. -/
theorem localTime_globalTime (hpath : commands path = pre ++ (i, s) :: post)
    (hnodup : ((commands path).map Prod.fst).Nodup) (hs : isTimed s = true) {t : ℚ}
    (h0 : 0 ≤ t) (h1 : t < 1) :
    ∃ g, globalTime commands i t path = .ok g ∧
      localTime commands g path = .ok (some (i, t)) := by
  refine ⟨_, globalTime_split hpath hnodup hs t, ?_⟩
  have hlt : (timedCount pre : ℚ) + 1 ≤ timedCount (commands path) := by
    exact_mod_cast timedCount_pos hpath hs
  have hpre : (0 : ℚ) ≤ timedCount pre := Nat.cast_nonneg _
  have hpos : (0 : ℚ) < timedCount (commands path) := by linarith
  apply localTime_of_span hpath hs _ _ h0 h1
  · exact mul_div_cancel₀ _ hpos.ne'
  · exact div_nonneg (by linarith) hpos.le
  · exact (div_le_one hpos).mpr (by linarith)

/-- A global time is a time on a timed command, and that command's global time. -/
theorem globalTime_localTime (htimed : 0 < timedCount (commands path))
    (hnodup : ((commands path).map Prod.fst).Nodup) {g : ℚ} (hg0 : 0 ≤ g) (hg1 : g ≤ 1) :
    ∃ i s t, (i, s) ∈ commands path ∧ isTimed s = true ∧ 0 ≤ t ∧ t ≤ 1 ∧
      localTime commands g path = .ok (some (i, t)) ∧
      globalTime commands i t path = .ok g := by
  have hpos : (0 : ℚ) < timedCount (commands path) := Nat.cast_pos.mpr htimed
  rcases hg1.eq_or_lt with rfl | hg1
  · obtain ⟨pre, i, s, post, hpath, hs, hpre⟩ := exists_timed (Nat.sub_lt htimed one_pos)
    have hlast : timedCount pre + 1 = timedCount (commands path) := by omega
    refine ⟨i, s, 1, hpath ▸ List.mem_append_right pre List.mem_cons_self, hs, zero_le_one,
      le_rfl, localTime_one hpath hs hlast, ?_⟩
    rw [globalTime_split hpath hnodup hs, ← hlast, Nat.cast_add, Nat.cast_one, div_self]
    positivity
  · obtain ⟨k, t, hx, h0, h1⟩ := exists_span (mul_nonneg hpos.le hg0)
    have hk : k < timedCount (commands path) := by
      have hx1 : (timedCount (commands path) : ℚ) * g < timedCount (commands path) :=
        mul_lt_of_lt_one_right hpos hg1
      exact Nat.cast_lt.mp (by linarith : (k : ℚ) < timedCount (commands path))
    obtain ⟨pre, i, s, post, hpath, hs, rfl⟩ := exists_timed hk
    refine ⟨i, s, t, hpath ▸ List.mem_append_right pre List.mem_cons_self, hs, h0, h1.le,
      localTime_of_span hpath hs hg0 hg1.le h0 h1 hx, ?_⟩
    rw [globalTime_split hpath hnodup hs, ← hx, mul_div_cancel_left₀ _ hpos.ne']

/-! ## Both directions -/

/-- On a path with timed commands, the local time of a global time is the time that it was
made from, and the global time of a local time is the one that it was made from. -/
theorem global_time_inverse (path : Path)
    (hnodup : ((commands path).map Prod.fst).Nodup)
    (htimed : ∃ c ∈ commands path, isTimed c.2 = true) :
    (∀ i s, (i, s) ∈ commands path → isTimed s = true → ∀ t : ℚ, 0 ≤ t → t < 1 →
      ∃ g, globalTime commands i t path = .ok g ∧
        localTime commands g path = .ok (some (i, t))) ∧
    (∀ g : ℚ, 0 ≤ g → g ≤ 1 →
      ∃ i s t, (i, s) ∈ commands path ∧ isTimed s = true ∧ 0 ≤ t ∧ t ≤ 1 ∧
        localTime commands g path = .ok (some (i, t)) ∧
        globalTime commands i t path = .ok g) := by
  constructor
  · intro i s hmem hs t h0 h1
    obtain ⟨pre, post, hpath⟩ := List.append_of_mem hmem
    exact localTime_globalTime hpath hnodup hs h0 h1
  · intro g hg0 hg1
    exact globalTime_localTime (List.countP_pos_iff.mpr htimed) hnodup hg0 hg1

end Times

/-- A path that begins with a command without time and ends with a relative curve. -/
def samplePath : List Command :=
  [(1, .other "move"), (4, .abs .line), (7, .other "text"), (9, .rel .curve)]

theorem global_time_inverse_sample :
    (∃ g, globalTime id 9 (1 / 2) samplePath = .ok g ∧
      localTime id g samplePath = .ok (some (9, 1 / 2))) ∧
    ∃ i s t, (i, s) ∈ samplePath ∧ isTimed s = true ∧ 0 ≤ t ∧ t ≤ 1 ∧
      localTime id 1 samplePath = .ok (some (i, t)) ∧ globalTime id i t samplePath = .ok 1 := by
  obtain ⟨hlocal, hglobal⟩ := @global_time_inverse (List Command) id samplePath (by decide)
    ⟨(4, .abs .line), by decide, rfl⟩
  exact ⟨hlocal 9 (.rel .curve) (by decide) rfl (1 / 2) (by norm_num) (by norm_num),
    hglobal 1 zero_le_one le_rfl⟩

end LuaAttic.PathTime
