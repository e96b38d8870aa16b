import LuaAttic.Codedit.Greedy
import LuaAttic.Codedit.Justify
import LuaAttic.Codedit.Paragraphs

/-!
# What reflowing keeps

The words and the paragraphs are kept.  The indent of a paragraph is lost behind a
blank line that is shorter, since the text of that blank line is glued to the first
word in its place, and it is lost when the line it is on is justified, since that line
is read as words again.
-/

namespace LuaAttic.Codedit.Reflow

open LuaAttic.Support LuaAttic.Lua Str

/-- The first line begins with the indent of the first line of a run. -/
def KeptIndent (run out : List Bytes) : Prop :=
  ∃ line ∈ run.head?, ∃ first ∈ out.head?, indentOf line <+: first

/-- The same words, in the same paragraphs, with the same indents. -/
structure Preserves (lines out : List Bytes) : Prop where
  words : out.flatMap wordsOf = lines.flatMap wordsOf
  paragraphs : (runs Blank out).map (fun run => run.flatMap wordsOf) =
    (runs Blank lines).map fun run => run.flatMap wordsOf
  indents : List.Forall₂ KeptIndent (runs Blank lines) (runs Blank out)

/-- There is one word, or the indent and the words are narrower than a line. -/
def OneLine (indent : Bytes) (ws : List Bytes) (width : Int) : Prop :=
  ws.length ≤ 1 ∨ (indent.length : Int) + (joinWords ws).length < width

/-- The indent of a run is not longer than what is glued to its first word, which is
the blank line that the run comes after; and no line with an indent is justified. -/
def KeepsIndent (width : Int) (how : Align) (b : Option Bytes × List Bytes) : Prop :=
  (indentOf (b.2.headD [])).length ≤ (paragraphOf b).indent.length ∧
    (how = .justify → indentOf (b.2.headD []) = [] ∨
      OneLine (paragraphOf b).indent (b.2.flatMap wordsOf) width)

instance (width : Int) (how : Align) (b : Option Bytes × List Bytes) :
    Decidable (KeepsIndent width how b) :=
  inferInstanceAs (Decidable (_ ∧ (_ → _ ∨ _ ∨ _)))

/-! ## Lines with an indent -/

theorem flatMap_wordsOf_joinWords {gs : List (List Bytes)}
    (hgs : ∀ w ∈ gs.flatten, IsWord w) :
    (gs.map joinWords).flatMap wordsOf = gs.flatten := by
  induction gs with
  | nil => rfl
  | cons g gs ih =>
      rw [List.flatten_cons] at hgs
      rw [List.map_cons, List.flatMap_cons, List.flatten_cons,
        wordsOf_joinWords fun w hw => hgs w (List.mem_append_left _ hw),
        ih fun w hw => hgs w (List.mem_append_right g hw)]

/-- Lines of the given words; the first one has the given indent. -/
structure Indented (indent : Bytes) (ws lines : List Bytes) : Prop where
  words : lines.flatMap wordsOf = ws
  not_blank : ∀ line ∈ lines, ¬ Blank line
  first : ∀ line ∈ lines.head?, indentOf line = indent

theorem indented_joinWords {indent : Bytes} (hindent : Blank indent) {ws : List Bytes}
    (hws : ∀ w ∈ ws, IsWord w) {gs : List (List Bytes)}
    (hflat : gs.flatten = ws.modifyHead (indent ++ ·)) (hne : ∀ g ∈ gs, g ≠ []) :
    Indented indent ws (gs.map joinWords) := by
  cases gs with
  | nil =>
      cases ws with
      | nil => exact ⟨rfl, by simp, by simp⟩
      | cons w rest => cases hflat
  | cons g gs =>
      obtain ⟨x, g, rfl⟩ := List.exists_cons_of_ne_nil (hne _ List.mem_cons_self)
      cases ws with
      | nil => cases hflat
      | cons w rest =>
          obtain ⟨rfl, rfl⟩ := List.cons.inj hflat
          have hw := hws w List.mem_cons_self
          have hgs : ∀ v ∈ gs.flatten, IsWord v := fun v hv =>
            hws v (List.mem_cons_of_mem w (List.mem_append_right g hv))
          have hwords : wordsOf (indent ++ joinWords (w :: g)) = w :: g := by
            rw [wordsOf_spaces_append hindent, wordsOf_joinWords]
            intro v hv
            rcases List.mem_cons.mp hv with rfl | hv
            · exact hw
            · exact hws v (List.mem_cons_of_mem w (List.mem_append_left _ hv))
          rw [List.map_cons, joinWords_append_cons]
          refine ⟨?_, ?_, ?_⟩
          · rw [List.flatMap_cons, hwords, flatMap_wordsOf_joinWords hgs]
            rfl
          · intro line hline
            rw [← wordsOf_eq_nil_iff]
            rcases List.mem_cons.mp hline with rfl | hline
            · rw [hwords]
              exact List.cons_ne_nil w g
            · obtain ⟨g', hg', rfl⟩ := List.mem_map.mp hline
              rw [wordsOf_joinWords fun v hv => hgs v (List.mem_flatten_of_mem hg' hv)]
              exact hne g' (List.mem_cons_of_mem _ hg')
          · intro line hline
            obtain rfl := Option.some.inj hline
            refine indentOf_append hindent fun c hc => ?_
            obtain ⟨t, ht⟩ := prefix_joinWords w g
            rw [← ht, List.head?_append_of_ne_nil _ hw.ne_nil] at hc
            rintro rfl
            exact hw.space_notMem (List.mem_of_mem_head? hc)

/-! ## Aligned lines -/

/-- The indent is lost on a line that is justified. -/
def alignedIndent (how : Align) (indent : Bytes) (lines : List Bytes) : Bytes :=
  if how = .justify ∧ 2 ≤ lines.length then [] else indent

theorem flatMap_wordsOf_respaced {width : Int} {lines out : List Bytes}
    (h : List.Forall₂ (RespacedLine width) lines out) :
    out.flatMap wordsOf = lines.flatMap wordsOf := by
  induction h with
  | nil => rfl
  | cons hline _ ih => rw [List.flatMap_cons, List.flatMap_cons, hline.words, ih]

theorem not_blank_respaced {width : Int} {lines out : List Bytes}
    (h : List.Forall₂ (RespacedLine width) lines out) (hlines : ∀ line ∈ lines, ¬ Blank line) :
    ∀ line ∈ out, ¬ Blank line := by
  induction h with
  | nil => simp
  | cons hline _ ih =>
      obtain ⟨hfirst, hrest⟩ := List.forall_mem_cons.mp hlines
      refine List.forall_mem_cons.mpr ⟨?_, ih hrest⟩
      rwa [← wordsOf_eq_nil_iff, hline.words, wordsOf_eq_nil_iff]

/-- A line that is justified has no indent. -/
theorem indentOf_respaced {width : Int} {line line' : Bytes} (h : RespacedLine width line line')
    (hline : ¬ Blank line) : indentOf line' = [] := by
  obtain ⟨w, ws, hws⟩ := List.exists_cons_of_ne_nil (mt wordsOf_eq_nil_iff.mp hline)
  have hw : w ∈ wordsOf line := hws ▸ List.mem_cons_self
  exact indentOf_of_word (isWord_of_mem_wordsOf hw) (h.first w (by rw [hws]; rfl))

theorem indented_respaced {indent : Bytes} {ws lines : List Bytes} (h : Indented indent ws lines)
    {width : Int} {out : List Bytes} (hout : List.Forall₂ (RespacedLine width) lines.dropLast out) :
    Indented (alignedIndent .justify indent lines) ws (out ++ lines.getLast?.toList) := by
  rcases List.eq_nil_or_concat' lines with rfl | ⟨init, last, rfl⟩
  · cases hout
    exact ⟨h.words, by simp, by simp⟩
  · rw [List.dropLast_concat] at hout
    rw [List.getLast?_concat, Option.toList_some]
    have hinit : ∀ line ∈ init, ¬ Blank line :=
      fun line hline => h.not_blank line (List.mem_append_left _ hline)
    refine ⟨?_, ?_, ?_⟩
    · rw [List.flatMap_append, flatMap_wordsOf_respaced hout, ← List.flatMap_append, h.words]
    · intro line hline
      rcases List.mem_append.mp hline with hline | hline
      · exact not_blank_respaced hout hinit line hline
      · exact h.not_blank line (List.mem_append_right init hline)
    · intro line hline
      rw [alignedIndent, List.length_append, List.length_singleton]
      cases hout with
      | nil => exact h.first line hline
      | cons hfirst _ =>
          obtain rfl := Option.some.inj hline
          rw [if_pos ⟨rfl, by simp⟩]
          exact indentOf_respaced hfirst (hinit _ List.mem_cons_self)

/-! ## The lines of a paragraph -/

/-- The words, with the indent glued to the first one, are wrapped to one line. -/
theorem length_greedyGroups_le_one_iff (indent : Bytes) (ws : List Bytes) (width : Int) :
    (greedyGroups width width [] (ws.modifyHead (indent ++ ·))).length ≤ 1 ↔
      OneLine indent ws width := by
  cases ws with
  | nil => exact iff_of_true (Nat.zero_le 1) (.inl (Nat.zero_le 1))
  | cons w rest =>
      have hwide : ((joinWords (w :: rest)).length : Int) =
          w.length + spacedWidth List.length rest := by
        rw [length_joinWords, lineWidth_cons]
        push_cast
        rfl
      have hone : (w :: rest).length ≤ 1 ↔ rest = [] := by
        rw [List.length_cons, ← List.length_eq_zero_iff]
        omega
      have hpos : (0 : Int) ≤ spacedWidth List.length rest := Int.natCast_nonneg _
      have hsucc : ∀ n : ℕ, n + 1 ≤ 1 ↔ n = 0 := fun n => by omega
      rw [List.modifyHead_cons, greedyGroups, OneLine, hone, hwide, List.length_append]
      push_cast
      by_cases hfull : width < indent.length + w.length + 1
      · -- the first word is alone on its line
        have hnil : ∀ room, greedyGroups width room [] rest = [] ↔ rest = [] := by
          intro room
          have hflat : (greedyGroups width room [] rest).flatten = rest :=
            flatten_greedyGroups room [] rest
          constructor
          · intro h
            rw [← hflat, h]
            rfl
          · rintro rfl
            rfl
        rw [if_pos hfull, if_pos rfl, List.length_cons, hsucc, List.length_eq_zero_iff, hnil]
        refine (or_iff_left ?_).symm
        omega
      · rw [if_neg hfull, List.nil_append, length_greedyGroups (List.cons_ne_nil _ _), hsucc,
          linesBegun_eq_zero_iff]
        refine or_congr_right ?_
        omega

section Random

variable {rnd : ℕ → Int → Int → Int}
  (hrnd : ∀ k min max, min ≤ max → min ≤ rnd k min max ∧ rnd k min max ≤ max)

include hrnd

theorem align_spec {indent : Bytes} {ws lines : List Bytes} (h : Indented indent ws lines)
    (width : Int) {how : Align} (hhow : how ≠ .right) :
    ∃ n, ∀ fuel, n ≤ fuel → ∃ out, align rnd fuel lines width how = pure out ∧
      Indented (alignedIndent how indent lines) ws out := by
  cases how with
  | left => exact ⟨0, fun fuel _ => ⟨lines, rfl, h.words, h.not_blank, h.first⟩⟩
  | right => exact absurd rfl hhow
  | justify =>
      obtain ⟨n, hn⟩ := justify_respaced hrnd lines width
      refine ⟨n, fun fuel hfuel => ?_⟩
      obtain ⟨out, hout, hall⟩ := hn fuel hfuel
      exact ⟨_, hout, indented_respaced h hall⟩

/-- What becomes of a block of lines. -/
structure KeptBlock (width : Int) (how : Align) (b : Option Bytes × List Bytes)
    (out : List Bytes) : Prop where
  words : out.flatMap wordsOf = b.2.flatMap wordsOf
  not_blank : ∀ line ∈ out, ¬ Blank line
  indent : b.2 ≠ [] → (KeptIndent b.2 out ↔ KeepsIndent width how b)

omit hrnd in
theorem words_ne_nil {run : List Bytes} (hrun : ∀ line ∈ run, ¬ Blank line) (hne : run ≠ []) :
    run.flatMap wordsOf ≠ [] := by
  obtain ⟨line, run, rfl⟩ := List.exists_cons_of_ne_nil hne
  rw [List.flatMap_cons]
  exact List.append_ne_nil_of_left_ne_nil
    (mt wordsOf_eq_nil_iff.mp (hrun line List.mem_cons_self)) _

omit hrnd in
/-- The indent of the first line decides. -/
theorem keptBlock_of_indented {width : Int} {how : Align} {b : Option Bytes × List Bytes}
    (hrun : ∀ line ∈ b.2, ¬ Blank line) {lines out : List Bytes}
    (hlines : lines.length ≤ 1 ↔ OneLine (paragraphOf b).indent (b.2.flatMap wordsOf) width)
    (h : Indented (alignedIndent how (paragraphOf b).indent lines) (b.2.flatMap wordsOf) out) :
    KeptBlock width how b out := by
  refine ⟨h.words, h.not_blank, fun hne => ?_⟩
  have hout : out ≠ [] := by
    rintro rfl
    exact words_ne_nil hrun hne h.words.symm
  obtain ⟨first, out, rfl⟩ := List.exists_cons_of_ne_nil hout
  have hfirst := h.first first rfl
  have hkept : KeptIndent b.2 (first :: out) ↔ (indentOf (b.2.headD [])).length ≤
      (alignedIndent how (paragraphOf b).indent lines).length := by
    obtain ⟨line, run, hline⟩ := List.exists_cons_of_ne_nil hne
    rw [hline, ← hfirst]
    change _ ↔ (indentOf line).length ≤ _
    rw [← prefix_iff_length_le (blank_indentOf line)]
    constructor
    · rintro ⟨l, hl, f, hf, hprefix⟩
      obtain rfl := Option.some.inj hl
      obtain rfl := Option.some.inj hf
      exact hprefix
    · exact fun hprefix => ⟨line, rfl, first, rfl, hprefix⟩
  rw [hkept, KeepsIndent, alignedIndent]
  by_cases hjustified : how = .justify ∧ 2 ≤ lines.length
  · have hlong : ¬ OneLine (paragraphOf b).indent (b.2.flatMap wordsOf) width := by
      rw [← hlines]
      omega
    rw [if_pos hjustified, List.length_nil, Nat.le_zero, List.length_eq_zero_iff]
    constructor
    · intro hnil
      rw [hnil]
      exact ⟨Nat.zero_le _, fun _ => .inl rfl⟩
    · rintro ⟨-, h⟩
      exact (h hjustified.1).resolve_right hlong
  · rw [if_neg hjustified]
    refine (and_iff_left_of_imp fun _ hjustify => .inr (hlines.mp ?_)).symm
    by_contra hmany
    exact hjustified ⟨hjustify, by omega⟩

/-- What is put behind the lines for a block. -/
def Reflows (rnd : ℕ → Int → Int → Int) (fuel : ℕ) (width : Int) (how : Align)
    (b : Option Bytes × List Bytes) (out : List Bytes) : Prop :=
  ∀ outLines i, reflowStep rnd fuel width how outLines i (paragraphOf b) =
    pure ((if 1 < i then outLines ++ [[]] else outLines) ++ out)

theorem reflowStep_spec {b : Option Bytes × List Bytes} (hbegun : b ≠ (none, []))
    (hbefore : ∀ line ∈ b.1, Blank line) (hrun : ∀ line ∈ b.2, ¬ Blank line) (width : Int)
    {how : Align} (hhow : how ≠ .right) :
    ∃ n, ∀ fuel, n ≤ fuel → ∃ out, Reflows rnd fuel width how b out ∧
      KeptBlock width how b out := by
  set ws := b.2.flatMap wordsOf with hws
  have hlines : (paragraphOf b).lines ≠ [] := by
    intro h
    obtain ⟨before, run⟩ := b
    rw [paragraphOf, List.append_eq_nil_iff, Option.toList_eq_nil_iff] at h
    obtain ⟨rfl, rfl⟩ := h
    exact hbegun rfl
  have hwords : words (paragraphOf b).lines = .ok (some ws) := by
    rw [words_eq hlines, paragraphOf, List.flatMap_append]
    cases hb : b.1 with
    | none => rfl
    | some line =>
        rw [Option.toList_some, List.flatMap_singleton,
          wordsOf_eq_nil_iff.mpr (hbefore line (by rw [hb]; rfl)), List.nil_append]
  have hindent : Blank (paragraphOf b).indent := by
    rw [paragraphOf]
    cases hb : b.1 with
    | none => exact blank_indentOf _
    | some line => exact hbefore line (by rw [hb]; rfl)
  have hisWord : ∀ w ∈ ws, IsWord w := by
    intro w hw
    obtain ⟨line, -, hw⟩ := List.mem_flatMap.mp hw
    exact isWord_of_mem_wordsOf hw
  set gs := greedyGroups width width [] (ws.modifyHead ((paragraphOf b).indent ++ ·)) with hgs
  have hindented : Indented (paragraphOf b).indent ws (gs.map joinWords) :=
    indented_joinWords hindent hisWord (flatten_greedyGroups width [] _)
      fun g hg => ne_nil_of_mem_greedyGroups hg
  obtain ⟨n, hn⟩ := align_spec hrnd hindented width hhow
  refine ⟨n, fun fuel hfuel => ?_⟩
  obtain ⟨out, hout, hout'⟩ := hn fuel hfuel
  refine ⟨out, fun outLines i => ?_, keptBlock_of_indented hrun ?_ hout'⟩
  · rw [reflowStep, hwords]
    simp only [ok_bind, nonNil, run_ok, pure_bind, greedy_eq, ← hgs, hout]
  · rw [List.length_map]
    exact length_greedyGroups_le_one_iff _ ws width

/-! ## The text -/

omit hrnd in
theorem exists_fuel_forall {β : Type} {P : ℕ → β → Prop} {l : List β}
    (h : ∀ b ∈ l, ∃ n, ∀ fuel, n ≤ fuel → P fuel b) :
    ∃ n, ∀ fuel, n ≤ fuel → ∀ b ∈ l, P fuel b := by
  induction l with
  | nil => exact ⟨0, by simp⟩
  | cons b l ih =>
      obtain ⟨hb, hl⟩ := List.forall_mem_cons.mp h
      obtain ⟨n, hn⟩ := hb
      obtain ⟨m, hm⟩ := ih hl
      refine ⟨max n m, fun fuel hfuel => List.forall_mem_cons.mpr ⟨?_, ?_⟩⟩
      · exact hn fuel (le_trans (le_max_left n m) hfuel)
      · exact hm fuel (le_trans (le_max_right n m) hfuel)

omit hrnd in
theorem reflowLoop_eq {fuel : ℕ} {width : Int} {how : Align}
    {bs : List (Option Bytes × List Bytes)} {f : Option Bytes × List Bytes → List Bytes}
    (h : ∀ b ∈ bs, Reflows rnd fuel width how b (f b)) (outLines : List Bytes) {i : ℕ}
    (hi : 1 < i) :
    reflowLoop rnd fuel width how outLines i (bs.map paragraphOf) =
      pure (outLines ++ (bs.map f).flatMap ([] :: ·)) := by
  induction bs generalizing outLines i with
  | nil => rw [List.map_nil, reflowLoop, List.map_nil, List.flatMap_nil, List.append_nil]
  | cons b bs ih =>
      obtain ⟨hb, hbs⟩ := List.forall_mem_cons.mp h
      rw [List.map_cons, reflowLoop, hb outLines i, pure_bind, if_pos hi,
        ih hbs _ (Nat.lt_succ_of_lt hi), List.map_cons, List.flatMap_cons]
      simp only [List.append_assoc, List.cons_append, List.nil_append]

omit hrnd in
/-- The paragraphs come one after the other, with an empty line between them. -/
theorem reflow_eq {lines : List Bytes} {fuel : ℕ} {width : Int} {how : Align}
    {f : Option Bytes × List Bytes → List Bytes}
    (h : ∀ b ∈ begunBlocks lines, Reflows rnd fuel width how b (f b)) :
    reflow rnd fuel lines width how =
      pure ([([] : Bytes)].intercalate ((begunBlocks lines).map f)) := by
  rw [reflow, paragraphs_eq, run_ok, pure_bind]
  cases hbs : begunBlocks lines with
  | nil => rfl
  | cons b bs =>
      rw [hbs] at h
      obtain ⟨hb, hbs⟩ := List.forall_mem_cons.mp h
      rw [List.map_cons, reflowLoop, hb [] 1, pure_bind, if_neg (lt_irrefl 1),
        reflowLoop_eq hbs _ Nat.one_lt_two, List.map_cons, intercalate_singleton_cons,
        List.nil_append]

omit hrnd in
theorem preserves_iff {lines out : List Bytes} {width : Int} {how : Align}
    {f : Option Bytes × List Bytes → List Bytes}
    (hout : runs Blank out = (fullBlocks Blank lines).map f)
    (hf : ∀ b ∈ fullBlocks Blank lines, KeptBlock width how b (f b)) :
    Preserves lines out ↔ ∀ b ∈ fullBlocks Blank lines, KeepsIndent width how b := by
  have hblank : ∀ line, Blank line → wordsOf line = [] := fun line => wordsOf_eq_nil_iff.mpr
  have hparagraphs : (runs Blank out).map (fun run => run.flatMap wordsOf) =
      (runs Blank lines).map fun run => run.flatMap wordsOf := by
    rw [hout, runs, List.map_map, List.map_map]
    exact List.map_congr_left fun b hb => (hf b hb).words
  have hwords : out.flatMap wordsOf = lines.flatMap wordsOf := by
    rw [← flatMap_runs hblank out, ← flatMap_runs hblank lines, List.flatMap_def,
      List.flatMap_def, hparagraphs]
  have hindents : List.Forall₂ KeptIndent (runs Blank lines) (runs Blank out) ↔
      ∀ b ∈ fullBlocks Blank lines, KeepsIndent width how b := by
    rw [hout, runs, List.forall₂_map_left_iff, List.forall₂_map_right_iff, List.forall₂_same]
    exact forall₂_congr fun b hb => (hf b hb).indent (mem_fullBlocks hb).2
  rw [← hindents]
  exact ⟨fun h => h.indents, fun h => ⟨hwords, hparagraphs, h⟩⟩

/-- With enough fuel `str.reflow` returns, and the text is preserved exactly when each
run of lines keeps its indent. -/
theorem reflow_spec (lines : List Bytes) (width : Int) {how : Align} (hhow : how ≠ .right) :
    ∃ n, ∀ fuel, n ≤ fuel → ∃ out, reflow rnd fuel lines width how = pure out ∧
      (Preserves lines out ↔ ∀ b ∈ fullBlocks Blank lines, KeepsIndent width how b) := by
  have hblocks : ∀ b ∈ begunBlocks lines, ∃ n, ∀ fuel, n ≤ fuel → ∃ out,
      Reflows rnd fuel width how b out ∧ KeptBlock width how b out := by
    intro b hb
    obtain ⟨hmem, hbegun⟩ := List.mem_filter.mp hb
    obtain ⟨hbefore, hrun⟩ := blocksFrom_spec (by simp) (by simp) hmem
    exact reflowStep_spec hrnd (of_decide_eq_true hbegun) hbefore hrun width hhow
  obtain ⟨n, hn⟩ := exists_fuel_forall hblocks
  refine ⟨n, fun fuel hfuel => ?_⟩
  choose! f hf using hn fuel hfuel
  refine ⟨_, reflow_eq fun b hb => (hf b hb).1, ?_⟩
  have hfull : ∀ b ∈ begunBlocks lines, (f b ≠ [] ↔ b.2 ≠ []) := by
    intro b hb
    have hwords := (hf b hb).2.words
    have hrun := (blocksFrom_spec (by simp) (by simp) (List.mem_filter.mp hb).1).2
    constructor
    · intro hne hnil
      rw [hnil] at hwords
      exact words_ne_nil (hf b hb).2.not_blank hne hwords
    · intro hne hnil
      rw [hnil] at hwords
      exact words_ne_nil hrun hne hwords.symm
  have hruns : runs Blank ([([] : Bytes)].intercalate ((begunBlocks lines).map f)) =
      (fullBlocks Blank lines).map f := by
    have hblank : Blank [] := by simp [Blank]
    rw [runs_intercalate hblank, List.filter_map, fullBlocks_eq]
    · refine congrArg _ (List.filter_congr fun b hb => ?_)
      exact decide_eq_decide.mpr (hfull b hb)
    · intro l hl
      obtain ⟨b, hb, rfl⟩ := List.mem_map.mp hl
      exact (hf b hb).2.not_blank
  refine preserves_iff hruns fun b hb => ?_
  rw [fullBlocks_eq] at hb
  exact (hf b (List.mem_filter.mp hb).1).2

/-- The text is preserved exactly when each run of lines keeps its indent. -/
theorem reflow_preserves_iff {how : Align} (hhow : how ≠ .right) (lines : List Bytes)
    (width : Int) :
    (∃ n, ∀ fuel, n ≤ fuel → ∃ out, reflow rnd fuel lines width how = pure out ∧
      Preserves lines out) ↔ ∀ b ∈ fullBlocks Blank lines, KeepsIndent width how b := by
  obtain ⟨n, hn⟩ := reflow_spec hrnd lines width hhow
  constructor
  · rintro ⟨m, hm⟩
    obtain ⟨out, hout, hiff⟩ := hn (max n m) (le_max_left n m)
    obtain ⟨out', hout', hpreserves⟩ := hm (max n m) (le_max_right n m)
    obtain rfl : out = out' := Except.ok.inj (Option.some.inj (hout.symm.trans hout'))
    exact hiff.mp hpreserves
  · intro hkeeps
    refine ⟨n, fun fuel hfuel => ?_⟩
    obtain ⟨out, hout, hiff⟩ := hn fuel hfuel
    exact ⟨out, hout, hiff.mpr hkeeps⟩

end Random

/-- Two paragraphs, the second one behind a line of two spaces. -/
theorem reflow_preserves_iff_indented : ∃ n, ∀ fuel, n ≤ fuel → ∃ out,
    reflow (fun _ min _ => min) fuel [[97, 32, 98], [32, 32], [32, 99]] 80 .justify = pure out ∧
      Preserves [[97, 32, 98], [32, 32], [32, 99]] out :=
  (reflow_preserves_iff (fun _ _ _ h => ⟨le_refl _, h⟩) (by decide)
    [[97, 32, 98], [32, 32], [32, 99]] 80).mpr (by decide)

/-- The second paragraph loses its indent behind an empty line. -/
theorem reflow_indent_lost : ¬ ∃ n, ∀ fuel, n ≤ fuel → ∃ out,
    reflow (fun _ min _ => min) fuel [[97], [], [32, 32, 98]] 80 .left = pure out ∧
      Preserves [[97], [], [32, 32, 98]] out := by
  rintro ⟨n, hn⟩
  obtain ⟨out, hout, hpreserves⟩ := hn n le_rfl
  have hreflow : reflow (fun _ min _ => min) n [[97], [], [32, 32, 98]] 80 .left =
      pure [[97], [], [98]] := rfl
  obtain rfl : [[97], [], [98]] = out :=
    Except.ok.inj (Option.some.inj (hreflow.symm.trans hout))
  have hruns : runs Blank [[97], [], [32, 32, 98]] = [[[97]], [[32, 32, 98]]] := by decide
  have hout : runs Blank [[97], [], [98]] = [[[97]], [[98]]] := by decide
  have hindents := hpreserves.indents
  rw [hruns, hout] at hindents
  cases hindents with
  | cons _ hrest =>
      cases hrest with
      | cons hindent _ =>
          obtain ⟨line, hline, first, hfirst, hprefix⟩ := hindent
          obtain rfl := Option.some.inj hline
          obtain rfl := Option.some.inj hfirst
          exact absurd hprefix (by decide)

end LuaAttic.Codedit.Reflow
