import Mathlib.Data.List.ModifyLast
import LuaAttic.Codedit.Chars
import LuaAttic.Codedit.Words
import LuaAttic.Support.Cutting

/-!
# Paragraphs

The paragraphs are the blocks of the lines, cut before each blank line: a paragraph
begins with a blank line, unless it is the first one.  Its indent is the text of that
blank line; only the indent of a paragraph that does not begin with one is what is
before its first word.
-/

namespace LuaAttic.Codedit.Reflow

open LuaAttic.Support LuaAttic.Lua Str

/-- A line of spaces. -/
def Blank (line : Bytes) : Prop := ∀ c ∈ line, c = SPACE

instance : DecidablePred Blank := fun line => List.decidableBAll (· = SPACE) line

/-- The spaces before the first word of a line. -/
def indentOf (line : Bytes) : Bytes := line.takeWhile (· == SPACE)

/-! ## Indents -/

theorem blank_indentOf (line : Bytes) : Blank (indentOf line) :=
  fun _ hc => beq_iff_eq.mp (List.mem_takeWhile_imp (p := (· == SPACE)) hc)

theorem indentOf_append {t : Bytes} (ht : Blank t) {s : Bytes}
    (hs : ∀ c ∈ s.head?, c ≠ SPACE) : indentOf (t ++ s) = t := by
  have hempty : s.takeWhile (· == SPACE) = [] := by
    cases s with
    | nil => rfl
    | cons c s => rw [List.takeWhile_cons_of_neg (by simpa using hs c rfl)]
  have hall : ∀ c ∈ t, (c == SPACE) = true := fun c hc => beq_iff_eq.mpr (ht c hc)
  rw [indentOf, List.takeWhile_append_of_pos hall, hempty, List.append_nil]

theorem indentOf_of_word {w s : Bytes} (hw : IsWord w) (h : w <+: s) : indentOf s = [] := by
  obtain ⟨t, rfl⟩ := h
  have hindent := indentOf_append (t := []) (s := w ++ t) (by simp [Blank]) fun c hc => by
    rw [List.head?_append_of_ne_nil _ hw.ne_nil] at hc
    rintro rfl
    exact hw.space_notMem (List.mem_of_mem_head? hc)
  rwa [List.nil_append] at hindent

/-- Spaces that a line begins with. -/
theorem prefix_iff_length_le {t line : Bytes} (ht : Blank t) :
    t <+: line ↔ t.length ≤ (indentOf line).length := by
  constructor
  · rintro ⟨s, rfl⟩
    have hall : ∀ c ∈ t, (c == SPACE) = true := fun c hc => beq_iff_eq.mpr (ht c hc)
    rw [indentOf, List.takeWhile_append_of_pos hall, List.length_append]
    exact Nat.le_add_right _ _
  · intro hle
    have hspaces : t <+: indentOf line := by
      rw [List.eq_replicate_of_mem (blank_indentOf line), List.eq_replicate_of_mem ht,
        List.prefix_replicate_iff, List.length_replicate]
      exact ⟨hle, rfl⟩
    exact hspaces.trans (List.takeWhile_prefix _)

theorem blank_cons {c : UInt8} {s : Bytes} : Blank (c :: s) ↔ c = SPACE ∧ Blank s :=
  List.forall_mem_cons

theorem cutWords_eq_nil_iff {cur s : Bytes} : cutWords cur s = [] ↔ cur = [] ∧ Blank s := by
  induction s generalizing cur with
  | nil =>
      rw [cutWords]
      split_ifs with hcur
      · simp [hcur, Blank]
      · simp [hcur]
  | cons c s ih =>
      rw [cutWords, blank_cons]
      split_ifs with hc hcur
      · simp [ih, hcur, hc]
      · simp [hcur]
      · simp [ih, hc]

theorem wordsOf_eq_nil_iff {line : Bytes} : wordsOf line = [] ↔ Blank line := by
  rw [wordsOf, cutWords_eq_nil_iff, eq_self_iff_true, true_and]

/-! ## Paragraphs -/

theorem tests_not_isspace (s : Bytes) :
    Tests s (fun i => not <$> isspace s i) fun c => !(c == SPACE) := fun n h => by
  simp only [isspace, ischar_succ h]
  rfl

theorem nextNonspace_eq (s : Bytes) : nextNonspace s =
    .ok (if Blank s then none else some ((indentOf s).length + 1 : Int)) := by
  obtain ⟨r, hr, hsome, hnone⟩ :=
    gives_nextCharWhich (n := 0) (tests_not_isspace s)
      (show s.length < s.length + 1 + 0 by omega)
  rw [nextNonspace]
  refine hr.trans ?_
  cases r with
  | none =>
      have hblank : Blank s := by
        intro c hc
        obtain ⟨k, hk⟩ := List.mem_iff_getElem?.mp hc
        simpa using hnone rfl k (Nat.zero_le k) c hk
      rw [if_pos hblank]
  | some j =>
      obtain ⟨m, c, rfl, -, hc, hne, hbefore⟩ := hsome j rfl
      have hword : c ≠ SPACE := by simpa using hne
      have hnot : ¬ Blank s := fun h => hword (h c (List.mem_of_getElem? hc))
      obtain ⟨hlt, rfl⟩ := List.getElem?_eq_some_iff.mp hc
      have hspaces : Blank (s.take m) := by
        intro d hd
        obtain ⟨k, hk, rfl⟩ := List.mem_take_iff_getElem.mp hd
        have hk' : k < m := by omega
        simpa using hbefore k (Nat.zero_le k) hk' s[k] (List.getElem?_eq_getElem (by omega))
      have hindent : indentOf s = s.take m := by
        have hhead : ∀ d ∈ (s.drop m).head?, d ≠ SPACE := by
          intro d hd
          rw [List.head?_drop, List.getElem?_eq_getElem hlt] at hd
          obtain rfl := Option.some.inj hd
          exact hword
        have happend := indentOf_append hspaces hhead
        rwa [List.take_append_drop] at happend
      rw [if_neg hnot, hindent, List.length_take, Nat.min_eq_left hlt.le]
      rfl

/-- The paragraph of a block of lines. -/
def paragraphOf (b : Option Bytes × List Bytes) : Paragraph :=
  ⟨b.1.getD (indentOf (b.2.headD [])), b.1.toList ++ b.2⟩

theorem sub_all (s : Bytes) : sub s 1 (-1) = s :=
  (subFrom_drop s (le_refl 1)).trans List.drop_zero

theorem sub_indentOf (s : Bytes) :
    sub s 1 ((indentOf s).length + 1 - 1) = indentOf s := by
  obtain ⟨t, ht⟩ := List.takeWhile_prefix (l := s) (· == SPACE)
  have hleft := sub_append_left (indentOf s) t rfl
  rwa [indentOf, ht] at hleft

/-- A blank line begins a paragraph. -/
theorem paragraphsStep_blank (done : List Paragraph) {line : Bytes} (hline : Blank line) :
    paragraphsStep done line = .ok (done ++ [paragraphOf (some line, [])]) := by
  rw [paragraphsStep, nextNonspace_eq, if_pos hline, ok_bind]
  simp only [or_true, if_true, List.modifyLast_concat, Option.map_none, Option.getD_none,
    sub_all, paragraphOf]
  rfl

/-- So does the first line. -/
theorem paragraphsStep_first {line : Bytes} (hline : ¬ Blank line) :
    paragraphsStep [] line = .ok [paragraphOf (none, [line])] := by
  rw [paragraphsStep, nextNonspace_eq, if_neg hline, ok_bind]
  simp only [true_or, if_true, List.modifyLast_concat, Option.map_some, Option.getD_some,
    sub_indentOf, paragraphOf]
  rfl

/-- Any other line belongs to the last paragraph. -/
theorem paragraphsStep_line (done : List Paragraph) {before : Option Bytes} {cur : List Bytes}
    (hcur : before = none → cur ≠ []) {line : Bytes} (hline : ¬ Blank line) :
    paragraphsStep (done ++ [paragraphOf (before, cur)]) line =
      .ok (done ++ [paragraphOf (before, cur ++ [line])]) := by
  have hindent : before.getD (indentOf ((cur ++ [line]).headD [])) =
      before.getD (indentOf (cur.headD [])) := by
    cases before with
    | some b => rfl
    | none =>
        obtain ⟨l, cur, rfl⟩ := List.exists_cons_of_ne_nil (hcur rfl)
        rfl
  rw [paragraphsStep, nextNonspace_eq, if_neg hline, ok_bind, paragraphOf, paragraphOf, hindent]
  simp only [List.append_eq_nil_iff, List.cons_ne_self, reduceCtorEq, and_false, or_self,
    if_false, List.modifyLast_concat, List.append_assoc]
  rfl

theorem paragraphs_loop (done : List Paragraph) {before : Option Bytes} {cur : List Bytes}
    (hcur : before = none → cur ≠ []) (lines : List Bytes) :
    lines.foldlM paragraphsStep (done ++ [paragraphOf (before, cur)]) =
      .ok (done ++ (blocksFrom Blank before cur lines).map paragraphOf) := by
  induction lines generalizing done before cur with
  | nil => rfl
  | cons line lines ih =>
      rw [List.foldlM_cons, blocksFrom]
      split_ifs with hline
      · rw [paragraphsStep_blank _ hline, ok_bind,
          ih _ (fun h => absurd h (Option.some_ne_none line)), List.append_assoc]
        rfl
      · rw [paragraphsStep_line done hcur hline, ok_bind]
        exact ih done fun _ =>
          List.append_ne_nil_of_right_ne_nil cur (List.cons_ne_nil line [])

/-- The blocks that have been begun. -/
def begunBlocks (lines : List Bytes) : List (Option Bytes × List Bytes) :=
  (blocksFrom Blank none [] lines).filter fun b => b ≠ (none, [])

theorem paragraphs_eq (lines : List Bytes) :
    paragraphs lines = .ok ((begunBlocks lines).map paragraphOf) := by
  have hbegun : ∀ (before : Option Bytes) (cur l : List Bytes), (before = none → cur ≠ []) →
      (blocksFrom Blank before cur l).filter (fun b => b ≠ (none, [])) =
        blocksFrom Blank before cur l := by
    intro before cur l h
    refine List.filter_eq_self.mpr fun b hb => decide_eq_true fun heq => ?_
    subst heq
    exact ne_of_mem_blocksFrom h hb rfl rfl
  cases lines with
  | nil => rfl
  | cons line lines =>
      rw [paragraphs, List.foldlM_cons, begunBlocks, blocksFrom]
      split_ifs with hline
      · have hsome : some line = none → ([] : List Bytes) ≠ [] :=
          fun h => absurd h (Option.some_ne_none line)
        rw [paragraphsStep_blank [] hline, ok_bind, paragraphs_loop [] hsome,
          List.filter_cons_of_neg (by simp), hbegun _ _ _ hsome, List.nil_append]
      · have hline' : (none : Option Bytes) = none → [line] ≠ [] :=
          fun _ => List.cons_ne_nil line []
        have hloop := paragraphs_loop [] hline' lines
        rw [paragraphsStep_first hline, ok_bind, List.nil_append, hbegun _ _ _ hline']
        exact hloop

theorem fullBlocks_eq (lines : List Bytes) :
    fullBlocks Blank lines = (begunBlocks lines).filter fun b => b.2 ≠ [] := by
  rw [fullBlocks, begunBlocks, List.filter_filter]
  refine List.filter_congr fun b _ => ?_
  have hfull : b.2 ≠ [] → b ≠ (none, []) := by
    rintro h rfl
    exact h rfl
  simp only [Bool.and_eq_decide, decide_eq_true_eq, decide_eq_decide]
  exact (and_iff_left_of_imp hfull).symm

/-! ## The words of a paragraph -/

theorem words_loop (ws : List Bytes) (lines : List Bytes) :
    lines.foldlM (fun (words : Option (List Bytes)) line =>
      some <$> lineWords line (words.getD [])) (some ws) =
      (.ok (some (ws ++ lines.flatMap wordsOf)) : Except Error (Option (List Bytes))) := by
  induction lines generalizing ws with
  | nil => simp [pure, Except.pure]
  | cons line lines ih =>
      rw [List.foldlM_cons, Option.getD_some, lineWords_eq]
      refine (ih (ws ++ wordsOf line)).trans ?_
      rw [List.flatMap_cons, List.append_assoc]

theorem words_eq {lines : List Bytes} (h : lines ≠ []) :
    words lines = .ok (some (lines.flatMap wordsOf)) := by
  obtain ⟨line, lines, rfl⟩ := List.exists_cons_of_ne_nil h
  rw [words, List.foldlM_cons, Option.getD_none, lineWords_eq]
  exact words_loop (wordsOf line) lines

end LuaAttic.Codedit.Reflow
