import Mathlib.Data.List.Basic

/-!
# Lists cut at separators

A list is cut before each of its separators.  A block is the separator that it begins
with, if it begins with one, and the run of the elements up to the next separator; the
runs that are not empty are the maximal ones without separators.
-/

namespace LuaAttic.Support

variable {α β : Type*} (sep : α → Prop) [DecidablePred sep]

/-- The blocks of a list, where one has been begun. -/
def blocksFrom (before : Option α) (cur : List α) : List α → List (Option α × List α)
  | [] => [(before, cur)]
  | a :: l =>
      if sep a then (before, cur) :: blocksFrom (some a) [] l
      else blocksFrom before (cur ++ [a]) l

/-- The blocks with a run that is not empty. -/
def fullBlocks (l : List α) : List (Option α × List α) :=
  (blocksFrom sep none [] l).filter fun b => b.2 ≠ []

/-- The maximal runs without separators. -/
def runs (l : List α) : List (List α) := (fullBlocks sep l).map Prod.snd

variable {sep} {before : Option α} {cur l : List α}

/-! ## Blocks -/

theorem blocksFrom_run (hl : ∀ a ∈ l, ¬ sep a) (before : Option α) (cur : List α) :
    blocksFrom sep before cur l = [(before, cur ++ l)] := by
  induction l generalizing cur with
  | nil => rw [blocksFrom, List.append_nil]
  | cons a l ih =>
      rw [blocksFrom, if_neg (hl a List.mem_cons_self),
        ih fun b hb => hl b (List.mem_cons_of_mem a hb), List.append_assoc,
        List.singleton_append]

theorem blocksFrom_append_sep {s : α} (hs : sep s) (before : Option α) (cur l l' : List α) :
    blocksFrom sep before cur (l ++ s :: l') =
      blocksFrom sep before cur l ++ blocksFrom sep (some s) [] l' := by
  induction l generalizing before cur with
  | nil => simp only [List.nil_append, blocksFrom, if_pos hs, List.singleton_append]
  | cons a l ih =>
      rw [List.cons_append, blocksFrom, blocksFrom]
      split_ifs with ha
      · rw [ih, List.cons_append]
      · exact ih before (cur ++ [a])

/-- What a block begins with is a separator, and its run has none. -/
theorem blocksFrom_spec (hbefore : ∀ a ∈ before, sep a) (hcur : ∀ a ∈ cur, ¬ sep a)
    {b : Option α × List α} (hb : b ∈ blocksFrom sep before cur l) :
    (∀ a ∈ b.1, sep a) ∧ ∀ a ∈ b.2, ¬ sep a := by
  induction l generalizing before cur with
  | nil =>
      obtain rfl := List.mem_singleton.mp hb
      exact ⟨hbefore, hcur⟩
  | cons a l ih =>
      rw [blocksFrom] at hb
      split_ifs at hb with ha
      · rcases List.mem_cons.mp hb with rfl | hb
        · exact ⟨hbefore, hcur⟩
        · refine ih (fun c hc => ?_) (by simp) hb
          rwa [← Option.some.inj hc]
      · refine ih hbefore (fun c hc => ?_) hb
        rcases List.mem_append.mp hc with hc | hc
        · exact hcur c hc
        · rwa [List.mem_singleton.mp hc]

/-- A block that has been begun is not empty. -/
theorem ne_of_mem_blocksFrom (h : before = none → cur ≠ []) {b : Option α × List α}
    (hb : b ∈ blocksFrom sep before cur l) : b.1 = none → b.2 ≠ [] := by
  induction l generalizing before cur with
  | nil =>
      obtain rfl := List.mem_singleton.mp hb
      exact h
  | cons a l ih =>
      rw [blocksFrom] at hb
      split_ifs at hb with ha
      · rcases List.mem_cons.mp hb with rfl | hb
        · exact h
        · exact ih (fun hnone => absurd hnone (Option.some_ne_none a)) hb
      · exact ih (fun _ => List.append_ne_nil_of_right_ne_nil cur (List.cons_ne_nil a [])) hb

/-- What separators do not count for is read off the runs. -/
theorem flatMap_blocksFrom {f : α → List β} (hf : ∀ a, sep a → f a = [])
    (before : Option α) (cur l : List α) :
    (blocksFrom sep before cur l).flatMap (fun b => b.2.flatMap f) =
      cur.flatMap f ++ l.flatMap f := by
  induction l generalizing before cur with
  | nil => simp [blocksFrom]
  | cons a l ih =>
      rw [blocksFrom]
      split_ifs with ha
      · rw [List.flatMap_cons, ih, List.flatMap_cons, hf a ha]
        rfl
      · rw [ih, List.flatMap_append, List.flatMap_singleton, List.append_assoc,
          List.flatMap_cons]

/-! ## Runs -/

theorem flatMap_filter_ne_nil {γ : Type*} (f : γ → List α) (g : List α → List β)
    (hg : g [] = []) (l : List γ) :
    (l.filter fun c => f c ≠ []).flatMap (fun c => g (f c)) = l.flatMap fun c => g (f c) := by
  induction l with
  | nil => rfl
  | cons c l ih =>
      by_cases hc : f c = []
      · rw [List.filter_cons_of_neg (by simpa using hc), ih, List.flatMap_cons, hc, hg,
          List.nil_append]
      · rw [List.filter_cons_of_pos (by simpa using hc), List.flatMap_cons, ih,
          List.flatMap_cons]

theorem flatMap_runs {f : α → List β} (hf : ∀ a, sep a → f a = []) (l : List α) :
    (runs sep l).flatMap (fun r => r.flatMap f) = l.flatMap f := by
  rw [runs, List.flatMap_map, fullBlocks,
    flatMap_filter_ne_nil Prod.snd (fun r => r.flatMap f) rfl, flatMap_blocksFrom hf]
  rfl

theorem mem_fullBlocks {b : Option α × List α} (hb : b ∈ fullBlocks sep l) :
    b ∈ blocksFrom sep none [] l ∧ b.2 ≠ [] := by
  simpa [fullBlocks] using hb

/-- Lists without separators, with a separator before each of them. -/
theorem map_snd_blocksFrom {s : α} (hs : sep s) {ls : List (List α)}
    (hls : ∀ l ∈ ls, ∀ a ∈ l, ¬ sep a) (hcur : ∀ a ∈ cur, ¬ sep a) (before : Option α) :
    (blocksFrom sep before [] (cur ++ ls.flatMap (s :: ·))).map Prod.snd = cur :: ls := by
  induction ls generalizing before cur with
  | nil => rw [List.flatMap_nil, List.append_nil, blocksFrom_run hcur]; rfl
  | cons l ls ih =>
      obtain ⟨hl, hls⟩ := List.forall_mem_cons.mp hls
      rw [List.flatMap_cons, List.cons_append, blocksFrom_append_sep hs, blocksFrom_run hcur,
        List.singleton_append, List.map_cons, ih hls hl]
      rfl

theorem intercalate_singleton_cons (s : α) (l : List α) (ls : List (List α)) :
    [s].intercalate (l :: ls) = l ++ ls.flatMap (s :: ·) := by
  induction ls generalizing l with
  | nil => simp
  | cons l' ls ih =>
      rw [List.intercalate_cons_cons, ih, List.flatMap_cons, List.append_assoc]
      rfl

/-- Lists without separators, with a separator between each two of them, are the runs,
as far as they are not empty. -/
theorem runs_intercalate {s : α} (hs : sep s) {ls : List (List α)}
    (hls : ∀ l ∈ ls, ∀ a ∈ l, ¬ sep a) :
    runs sep ([s].intercalate ls) = ls.filter fun l => l ≠ [] := by
  cases ls with
  | nil => rfl
  | cons l ls =>
      obtain ⟨hl, hls⟩ := List.forall_mem_cons.mp hls
      have hmap := map_snd_blocksFrom hs hls hl none
      rw [intercalate_singleton_cons, ← hmap, List.filter_map]
      rfl

end LuaAttic.Support
