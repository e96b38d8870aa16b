import LuaAttic.Lua.Basic
import LuaAttic.Support.Iteration

/-!
# `gsplit` with a plain separator (`glue_literate.lua`)

The string is cut at the separators that are found from the left, each after the end of
the one before.  Without any, the string is given once, by another function.
-/

namespace LuaAttic.Lua

open LuaAttic.Support

/-- `s:find(sep, init, true)` -/
def findPlain (s sep : Bytes) (init : Int) : Option (Int × Int) :=
  let first := min (max (relIndex s init) 1 - 1).toNat s.length
  ((List.range' first (s.length + 1 - first)).find? fun k => sep.isPrefixOf (s.drop k)).map
    fun (k : ℕ) => ((k : Int) + 1, (k : Int) + sep.length)

/-- `iterate_once(s, s1)` -/
def iterateOnce (s : Bytes) (s1 : Option Bytes) : Option Bytes :=
  if s1 = none then some s else none

/-- What `gsplit` returns: `iterate_once`, or its own function with `start` and `done`. -/
inductive Splitter
  | once
  | scan (start : Int) (done : Bool)

/-- `pass(i, j)` -/
def Gsplit.pass (s : Bytes) (start : Int) : Option (Int × Int) → Option Bytes × Splitter
  | some (i, j) => (some (sub s start (i - 1)), .scan (j + 1) false)
  | none => (some (subFrom s start), .scan start true)

/-- A call of what `gsplit` returned. -/
def Splitter.next (s sep : Bytes) (s1 : Option Bytes) : Splitter → Option Bytes × Splitter
  | .once => (iterateOnce s s1, .once)
  | .scan start done =>
      if done then (none, .scan start done)
      else if sep = [] then (some s, .scan start true)
      else Gsplit.pass s start (findPlain s sep start)

/-- `gsplit(s, sep, start, true)` -/
def gsplitPlain (s sep : Bytes) (start : Int) : Splitter :=
  if findPlain s sep start = none then .once else .scan start false

/-- The loop over what `gsplit` returned; nothing is raised. -/
def Segmented (s sep : Bytes) : Option Bytes → Splitter → List Bytes → Prop :=
  Yields fun s1 it => (.ok (it.next s sep s1) : Except Error _)

/-! ## Occurrences -/

/-- How many occurrences of `sep` there are from the left, none of them with a part of the
one before; the first `skip` characters are of one before. -/
def occurrencesFrom (sep : Bytes) : ℕ → Bytes → ℕ
  | _, [] => 0
  | skip + 1, _ :: s => occurrencesFrom sep skip s
  | 0, b :: s =>
      if sep <+: b :: s then occurrencesFrom sep (sep.length - 1) s + 1
      else occurrencesFrom sep 0 s

def occurrences (sep s : Bytes) : ℕ := occurrencesFrom sep 0 s

theorem occurrencesFrom_eq (sep s : Bytes) (skip : ℕ) :
    occurrencesFrom sep skip s = occurrences sep (s.drop skip) := by
  induction s generalizing skip with
  | nil => rw [List.drop_nil, occurrences, occurrencesFrom, occurrencesFrom]
  | cons b s ih =>
      cases skip with
      | zero => rfl
      | succ skip => rw [occurrencesFrom, ih, List.drop_succ_cons]

variable {s sep a v : Bytes}

theorem occurrences_of_prefix (hsep : sep ≠ []) :
    occurrences sep (sep ++ v) = occurrences sep v + 1 := by
  cases sep with
  | nil => exact absurd rfl hsep
  | cons b sep =>
      have hprefix : b :: sep <+: b :: (sep ++ v) := ⟨v, rfl⟩
      rw [List.cons_append, occurrences, occurrencesFrom, if_pos hprefix, occurrencesFrom_eq,
        List.length_cons, Nat.add_sub_cancel, List.drop_left]

/-- The first occurrence is counted, and the others after it. -/
theorem occurrences_append (hsep : sep ≠ [])
    (hfirst : ∀ k < a.length, ¬ sep <+: (a ++ (sep ++ v)).drop k) :
    occurrences sep (a ++ (sep ++ v)) = occurrences sep v + 1 := by
  induction a with
  | nil => exact occurrences_of_prefix hsep
  | cons b a ih =>
      have hnot : ¬ sep <+: b :: (a ++ (sep ++ v)) := hfirst 0 (Nat.succ_pos _)
      rw [List.cons_append, occurrences, occurrencesFrom, if_neg hnot]
      apply ih
      intro k hk
      exact hfirst (k + 1) (Nat.succ_lt_succ hk)

theorem occurrences_eq_zero (h : ¬ sep <:+: s) : occurrences sep s = 0 := by
  induction s with
  | nil => rfl
  | cons b s ih =>
      have hnot : ¬ sep <+: b :: s := fun hpre => h hpre.isInfix
      rw [occurrences, occurrencesFrom, if_neg hnot]
      apply ih
      intro hinf
      exact h (hinf.trans (List.suffix_cons b s).isInfix)

/-! ## Finding -/

variable {pre u : Bytes}

theorem findPlain_eq (pre u sep : Bytes) :
    findPlain (pre ++ u) sep (pre.length + 1) =
      ((List.range' pre.length (u.length + 1)).find? fun k =>
        sep.isPrefixOf ((pre ++ u).drop k)).map
      fun (k : ℕ) => ((k : Int) + 1, (k : Int) + sep.length) := by
  have hfirst : min (max (relIndex (pre ++ u) (pre.length + 1)) 1 - 1).toNat
      (pre ++ u).length = pre.length := by
    have hrel : relIndex (pre ++ u) (pre.length + 1) = pre.length + 1 := if_pos (by omega)
    rw [hrel, List.length_append]
    omega
  have hlength : (pre ++ u).length + 1 - pre.length = u.length + 1 := by
    rw [List.length_append]
    omega
  simp only [findPlain, hfirst, hlength]

/-- What is found is the first occurrence. -/
theorem exists_of_findPlain {i j : Int}
    (h : findPlain (pre ++ u) sep (pre.length + 1) = some (i, j)) :
    ∃ a v, u = a ++ (sep ++ v) ∧ i = pre.length + a.length + 1 ∧
      j = pre.length + a.length + sep.length ∧
      ∀ k < a.length, ¬ sep <+: (a ++ (sep ++ v)).drop k := by
  rw [findPlain_eq] at h
  obtain ⟨k, hk, heq⟩ := Option.map_eq_some_iff.mp h
  obtain ⟨hpre, hmem, hbefore⟩ := List.find?_range'_eq_some.mp hk
  obtain ⟨hle, hlt⟩ := List.mem_range'_1.mp hmem
  obtain ⟨d, rfl⟩ := Nat.exists_eq_add_of_le hle
  rw [List.drop_length_add_append, List.isPrefixOf_iff_prefix] at hpre
  obtain ⟨v, hv⟩ := hpre
  have hu : u.take d ++ (sep ++ v) = u := by rw [hv, List.take_append_drop]
  have hlength : (u.take d).length = d := List.length_take_of_le (by omega)
  obtain ⟨rfl, rfl⟩ := Prod.mk.inj heq
  refine ⟨u.take d, v, hu.symm, ?_, ?_, ?_⟩
  · rw [hlength, Nat.cast_add]
  · rw [hlength, Nat.cast_add]
  · intro k hk hpre
    rw [hlength] at hk
    have hnot := hbefore (pre.length + k) (Nat.le_add_right _ _) (Nat.add_lt_add_left hk _)
    rw [List.drop_length_add_append] at hnot
    rw [hu, ← List.isPrefixOf_iff_prefix] at hpre
    simp [hpre] at hnot

theorem not_infix_of_findPlain (pre u : Bytes)
    (h : findPlain (pre ++ u) sep (pre.length + 1) = none) :
    ¬ sep <:+: u := by
  rintro ⟨a, v, rfl⟩
  rw [findPlain_eq, Option.map_eq_none_iff, List.find?_range'_eq_none] at h
  have hlt : pre.length + a.length < pre.length + ((a ++ sep ++ v).length + 1) := by
    rw [List.length_append, List.length_append]
    omega
  have hnot := h (pre.length + a.length) (Nat.le_add_right _ _) hlt
  rw [List.drop_length_add_append, List.append_assoc, List.drop_left] at hnot
  have hpre := List.isPrefixOf_iff_prefix.mpr (List.prefix_append sep v)
  simp [hpre] at hnot

/-! ## The iteration -/

/-- What is before the first occurrence has none. -/
theorem not_infix_of_first (hsep : sep ≠ [])
    (hfirst : ∀ k < a.length, ¬ sep <+: (a ++ (sep ++ v)).drop k) : ¬ sep <:+: a := by
  rintro ⟨x, y, rfl⟩
  have hlt : x.length < (x ++ sep ++ y).length := by
    have := List.length_pos_iff.mpr hsep
    simp only [List.length_append]
    omega
  apply hfirst x.length hlt
  simp only [List.append_assoc, List.drop_left]
  exact List.prefix_append sep _

/-- What `sep` cuts a string into: the strings have none of it, and put together with it
give the string. -/
structure Segments (sep s : Bytes) (segs : List Bytes) : Prop where
  not_infix : ∀ seg ∈ segs, ¬ sep <:+: seg
  length_eq : segs.length = occurrences sep s + 1
  join_eq : sep.intercalate segs = s

theorem Segments.single (h : ¬ sep <:+: s) : Segments sep s [s] where
  not_infix := by
    intro seg hseg
    rwa [List.mem_singleton.mp hseg]
  length_eq := by rw [occurrences_eq_zero h, List.length_singleton]
  join_eq := List.intercalate_singleton

theorem Segments.cons {segs : List Bytes} (hsep : sep ≠ [])
    (hfirst : ∀ k < a.length, ¬ sep <+: (a ++ (sep ++ v)).drop k)
    (h : Segments sep v segs) : Segments sep (a ++ (sep ++ v)) (a :: segs) where
  not_infix := by
    intro seg hseg
    rcases List.mem_cons.mp hseg with rfl | hseg
    · exact not_infix_of_first hsep hfirst
    · exact h.not_infix seg hseg
  length_eq := by rw [List.length_cons, h.length_eq, occurrences_append hsep hfirst]
  join_eq := by
    cases segs with
    | nil => exact absurd h.length_eq (Nat.succ_ne_zero _).symm
    | cons seg segs => rw [List.intercalate_cons_cons, h.join_eq, List.append_assoc]

/-- A call while there is an occurrence gives what is before it. -/
theorem pass_some (pre a v sep : Bytes) :
    Gsplit.pass (pre ++ (a ++ (sep ++ v))) (pre.length + 1)
        (some (pre.length + a.length + 1, pre.length + a.length + sep.length)) =
      (some a, .scan ((pre ++ a ++ sep).length + 1) false) := by
  have hstart : ((pre.length : Int) + 1 - 1).toNat = pre.length := by omega
  have hstop : ((pre.length : Int) + a.length + 1 - 1).toNat = (pre ++ a).length := by
    rw [List.length_append]
    omega
  rw [Gsplit.pass, sub_eq_take_drop _ (by omega) (by omega), hstart, hstop, ← List.append_assoc,
    List.take_left, List.drop_left]
  simp only [List.length_append, Nat.cast_add]

theorem pass_none (pre u : Bytes) :
    Gsplit.pass (pre ++ u) (pre.length + 1) none = (some u, .scan (pre.length + 1) true) := by
  rw [Gsplit.pass, subFrom_append_left pre u rfl]

/-- The function of `gsplit` cuts what is from its start on, and ends. -/
theorem exists_segmented (hsep : sep ≠ []) (pre u : Bytes) (s1 : Option Bytes) :
    ∃ segs, Segmented (pre ++ u) sep s1 (.scan (pre.length + 1) false) segs ∧
      Segments sep u segs := by
  induction hn : u.length using Nat.strong_induction_on generalizing pre u s1 with
  | _ n ih =>
      subst hn
      have hnext : Splitter.next (pre ++ u) sep s1 (.scan (pre.length + 1) false) =
          Gsplit.pass (pre ++ u) (pre.length + 1) (findPlain (pre ++ u) sep (pre.length + 1)) := by
        rw [Splitter.next, if_neg Bool.false_ne_true, if_neg hsep]
      cases hfind : findPlain (pre ++ u) sep (pre.length + 1) with
      | none =>
          rw [hfind, pass_none] at hnext
          refine ⟨[u], ?_, Segments.single (not_infix_of_findPlain pre u hfind)⟩
          exact Yields.step (congrArg Except.ok hnext) (Yields.done rfl)
      | some ij =>
          obtain ⟨a, v, rfl, hi, hj, hfirst⟩ := exists_of_findPlain (i := ij.1) (j := ij.2) hfind
          have hlt : v.length < (a ++ (sep ++ v)).length := by
            have := List.length_pos_iff.mpr hsep
            simp only [List.length_append]
            omega
          obtain ⟨segs, hyields, hsegs⟩ := ih _ hlt (pre ++ a ++ sep) v (some a) rfl
          have hpair : ij = ((pre.length : Int) + a.length + 1,
              (pre.length : Int) + a.length + sep.length) := Prod.ext hi hj
          rw [hfind, hpair, pass_some] at hnext
          refine ⟨a :: segs, ?_, hsegs.cons hsep hfirst⟩
          rw [List.append_assoc, List.append_assoc] at hyields
          exact Yields.step (congrArg Except.ok hnext) hyields

/-- Both functions that `gsplit` returns cut the string. -/
theorem exists_segmented_gsplitPlain (hsep : sep ≠ []) (s : Bytes) :
    ∃ segs, Segmented s sep none (gsplitPlain s sep 1) segs ∧ Segments sep s segs := by
  cases hfind : findPlain s sep 1 with
  | none =>
      refine ⟨[s], ?_, Segments.single (not_infix_of_findPlain [] s hfind)⟩
      rw [gsplitPlain, if_pos hfind]
      exact Yields.step rfl (Yields.done rfl)
  | some ij =>
      have hne : findPlain s sep 1 ≠ none := by rw [hfind]; exact Option.some_ne_none ij
      rw [gsplitPlain, if_neg hne]
      exact exists_segmented hsep [] s none

/-- The iteration ends, no string in it contains the separator, there is one more of them
than occurrences, and joined with the separator they are the string. -/
theorem gsplit_plain_join (s : Bytes) {sep : Bytes} (hsep : sep ≠ []) :
    ∃ segs, (∀ l, Segmented s sep none (gsplitPlain s sep 1) l ↔ l = segs) ∧
      (∀ seg ∈ segs, ¬ sep <:+: seg) ∧ segs.length = occurrences sep s + 1 ∧
      sep.intercalate segs = s := by
  obtain ⟨segs, hyields, hsegs⟩ := exists_segmented_gsplitPlain hsep s
  exact ⟨segs, fun l => hyields.iff_eq, hsegs.not_infix, hsegs.length_eq, hsegs.join_eq⟩

theorem gsplit_plain_join_sample :
    ∃ segs, (∀ l, Segmented [44, 44, 44, 97] [44, 44] none
        (gsplitPlain [44, 44, 44, 97] [44, 44] 1) l ↔ l = segs) ∧
      (∀ seg ∈ segs, ¬ [44, 44] <:+: seg) ∧
      segs.length = occurrences [44, 44] [44, 44, 44, 97] + 1 ∧
      [44, 44].intercalate segs = [44, 44, 44, 97] :=
  gsplit_plain_join [44, 44, 44, 97] (List.cons_ne_nil 44 [44])

end LuaAttic.Lua
