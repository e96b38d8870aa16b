import LuaAttic.Lua.Pattern

/-!
# Functions of glue (`glue_literate.lua`)

`gsplit` cuts a string at the matches of a pattern that does not match the
empty string.  For runs of characters of a class, the cuts are found by a
recursion over the string.
-/

namespace LuaAttic.Lua

/-- The strings between the matches. -/
def segments : List Piece → List Bytes
  | [] => [[]]
  | .hit _ _ :: l => [] :: segments l
  | .char b :: l => (segments l).modifyHead (b :: ·)

/-- `glue.gsplit(s, sep)` -/
def gsplit (sep : Pattern) (s : Bytes) : List Bytes := segments (sep.pieces s)

/-- The strings between the runs of characters of a class. -/
def splitRuns (c : CharClass) : Bytes → List Bytes
  | [] => [[]]
  | b :: s =>
      if c b then
        if s.head?.any c then splitRuns c s else [] :: splitRuns c s
      else (splitRuns c s).modifyHead (b :: ·)

theorem splitRuns_ne_nil (c : CharClass) (s : Bytes) : splitRuns c s ≠ [] := by
  induction s with
  | nil => exact List.cons_ne_nil _ _
  | cons b s ih =>
      rw [splitRuns]
      split_ifs
      · exact ih
      · exact List.cons_ne_nil _ _
      · simpa using ih

theorem splitRuns_run {c : CharClass} {b : UInt8} (hb : c b = true) (s : Bytes) :
    splitRuns c (b :: s) = [] :: splitRuns c (s.dropWhile c) := by
  induction s generalizing b with
  | nil => simp [splitRuns, hb]
  | cons d s ih =>
      rw [splitRuns, if_pos hb]
      by_cases hd : c d = true
      · rw [List.head?_cons, Option.any_some, if_pos hd, ih hd,
          List.dropWhile_cons_of_pos hd]
      · rw [List.head?_cons, Option.any_some, if_neg hd,
          List.dropWhile_cons_of_neg hd]

/-- A separator of one or more characters of a class. -/
theorem gsplit_plus (c : CharClass) (s : Bytes) :
    gsplit ⟨[.plus c], false⟩ s = splitRuns c s := by
  change segments (Pattern.piecesFrom _ 0 s) = _
  induction hn : s.length using Nat.strong_induction_on generalizing s with
  | _ n ih =>
      subst hn
      cases s with
      | nil => rfl
      | cons b s =>
          by_cases hb : c b = true
          · have hsplit : b :: s =
                (b :: s.takeWhile c) ++ s.dropWhile c := by
              rw [List.cons_append, List.takeWhile_append_dropWhile]
            have hitems : matchItems [.plus c] []
                ((b :: s.takeWhile c) ++ s.dropWhile c) =
                some (s.dropWhile c, []) := by
              rw [← hsplit, matchItems, if_pos hb, maxExpand_of_isSome rfl]
              rfl
            have hlt : (s.dropWhile c).length < (b :: s).length :=
              (List.length_dropWhile_le c s).trans_lt (Nat.lt_succ_self _)
            rw [splitRuns_run hb, ← ih _ hlt _ rfl]
            conv_lhs => rw [hsplit]
            rw [piecesFrom_hit (matchHere_append (p := ⟨[.plus c], false⟩)
              hitems) (List.cons_ne_nil _ _)]
            rfl
          · have hitems : matchItems [.plus c] [] (b :: s) = none := by
              simp [matchItems, hb]
            rw [Pattern.piecesFrom, matchHere_eq_none hitems, splitRuns,
              if_neg hb, ← ih _ (Nat.lt_succ_self _) _ rfl]
            rfl

/-- What has no separators is put before the first string. -/
theorem splitRuns_append_of_none {c : CharClass} {a : Bytes}
    (ha : ∀ b ∈ a, c b = false) (s : Bytes) :
    splitRuns c (a ++ s) = (splitRuns c s).modifyHead (a ++ ·) := by
  induction a with
  | nil => exact (congrFun List.modifyHead_id _).symm
  | cons b a ih =>
      rw [List.cons_append, splitRuns, if_neg (by simp [ha b List.mem_cons_self]),
        ih fun d hd => ha d (List.mem_cons_of_mem b hd), List.modifyHead_modifyHead]
      rfl

/-- A string without separators is not cut. -/
theorem splitRuns_of_none {c : CharClass} {s : Bytes}
    (h : ∀ b ∈ s, c b = false) : splitRuns c s = [s] := by
  have hall := splitRuns_append_of_none h []
  rw [List.append_nil] at hall
  simpa [splitRuns] using hall

/-- The first string is what comes before the first separator. -/
theorem splitRuns_append {c : CharClass} {a s : Bytes} {b : UInt8}
    (ha : ∀ b ∈ a, c b = false) (hb : c b = true) :
    splitRuns c (a ++ b :: s) = a :: splitRuns c (s.dropWhile c) := by
  rw [splitRuns_append_of_none ha, splitRuns_run hb, List.modifyHead_cons,
    List.append_nil]

theorem filter_splitRuns_dropWhile (c : CharClass) (s : Bytes) :
    (splitRuns c (s.dropWhile c)).filter (· ≠ []) = (splitRuns c s).filter (· ≠ []) := by
  cases s with
  | nil => rfl
  | cons b s =>
      by_cases hb : c b = true
      · rw [List.dropWhile_cons_of_pos hb, splitRuns_run hb, List.filter_cons_of_neg (by simp)]
      · rw [List.dropWhile_cons_of_neg hb]

/-- The runs of characters of a class are what the other characters separate. -/
theorem gmatch_plus (c : CharClass) (s : Bytes) :
    gmatch ⟨[.plus c], false⟩ s =
      ((splitRuns (fun b => !c b) s).filter (· ≠ [])).map fun w => [w] := by
  induction hn : s.length using Nat.strong_induction_on generalizing s with
  | _ n ih =>
      subst hn
      cases s with
      | nil => rfl
      | cons b s =>
          by_cases hb : c b = true
          · let w := b :: s.takeWhile c
            have hsplit : b :: s = w ++ s.dropWhile c := by
              rw [List.cons_append, List.takeWhile_append_dropWhile]
            have hw : ∀ d ∈ w, (!c d) = false := by
              intro d hd
              rcases List.mem_cons.mp hd with rfl | hd
              · simp [hb]
              · simp [List.mem_takeWhile_imp hd]
            have hitems : matchItems [.plus c] [] (w ++ s.dropWhile c) =
                some (s.dropWhile c, []) := by
              rw [← hsplit, matchItems, if_pos hb, maxExpand_of_isSome rfl]
              rfl
            have hlt : (s.dropWhile c).length < (b :: s).length :=
              (List.length_dropWhile_le c s).trans_lt (Nat.lt_succ_self _)
            have hgmatch : gmatch ⟨[.plus c], false⟩ (w ++ s.dropWhile c) =
                [w] :: gmatch ⟨[.plus c], false⟩ (s.dropWhile c) := by
              simp only [gmatch, Pattern.pieces, Bool.false_eq_true, if_false]
              rw [piecesFrom_hit (matchHere_append (p := ⟨[.plus c], false⟩) hitems)
                (List.cons_ne_nil _ _)]
              rfl
            have hnone := List.head?_dropWhile_not c s
            have hih := ih _ hlt _ rfl
            rw [hsplit, hgmatch, hih]
            cases hr : s.dropWhile c with
            | nil => simp [splitRuns_of_none hw, splitRuns, w]
            | cons d r =>
                have hd : (!c d) = true := by
                  rw [hr] at hnone
                  simpa using hnone
                rw [splitRuns_append hw hd, splitRuns_run hd, List.filter_cons_of_neg (by simp),
                  List.filter_cons_of_pos (by simp [w]), List.map_cons]
          · have hitems : matchItems [.plus c] [] (b :: s) = none := by
              simp [matchItems, hb]
            have hnone : Pattern.matchHere ⟨[.plus c], false⟩ (b :: s) = none :=
              matchHere_eq_none hitems
            have hskip : gmatch ⟨[.plus c], false⟩ (b :: s) = gmatch ⟨[.plus c], false⟩ s := by
              simp [gmatch, Pattern.pieces, Pattern.piecesFrom, hnone]
            rw [hskip, ih _ (Nat.lt_succ_self _) _ rfl, splitRuns_run (by simp [hb]),
              List.filter_cons_of_neg (by simp), filter_splitRuns_dropWhile]

end LuaAttic.Lua
