import LuaAttic.Codedit.Words

/-!
# Greedy wrapping

The space that is left counts one column too many for the first word of the text, and
a word alone on a line takes its width off the next line.  So the first line is
narrower, and where first words of the text are alone on their lines, the words that
come next have no room left beside the last of them, but get a line for themselves.
-/

namespace LuaAttic.Codedit.Reflow

open LuaAttic.Support LuaAttic.Lua Str

/-! ## The lines of the loop -/

/-- The words of the lines that `greedy` makes, from a line with some words and some
space left on. -/
def greedyGroups (width : Int) : Int → List Bytes → List Bytes → List (List Bytes)
  | _, cur, [] => if cur = [] then [] else [cur]
  | room, cur, word :: rest =>
      if room < word.length + 1 then
        if cur = [] then [word] :: greedyGroups width (width - word.length) [] rest
        else cur :: greedyGroups width (width - word.length) [word] rest
      else greedyGroups width (room - (word.length + 1)) (cur ++ [word]) rest

variable {words : List Bytes} {width : Int}

/-- What is left to do after the loop. -/
def finishWrap (words : List Bytes) (s : Wrap) : Except Error (List Bytes) := do
  if s.i1 ≤ words.length then
    let line ← tableConcat words [SPACE] s.i1 (s.lasti.getD words.length)
    return s.lines ++ [line]
  else return s.lines

theorem greedyStep_full {s : Wrap} {i : Int} {word line : Bytes}
    (hfull : s.spaceLeft < word.length + 1)
    (hline : tableConcat words [SPACE] s.i1 (if s.i1 = i then s.i1 else i - 1) = .ok line) :
    greedyStep words width s i word =
      .ok ⟨s.lines ++ [line], width - word.length, if s.i1 = i then i + 1 else i, some i⟩ := by
  simp only [greedyStep, if_pos hfull, decide_eq_true_eq, hline, bind, Except.bind, pure,
    Except.pure]

theorem greedyStep_fits {s : Wrap} {i : Int} {word : Bytes}
    (hfits : ¬ s.spaceLeft < word.length + 1) :
    greedyStep words width s i word =
      .ok { s with spaceLeft := s.spaceLeft - (word.length + 1), lasti := some i } := by
  rw [greedyStep, if_neg hfits]
  rfl

theorem greedyLoop_groups (done : List (List Bytes)) (cur rest : List Bytes)
    (room i1 i : Int) (lasti : Option Int) (hwords : words = done.flatten ++ (cur ++ rest))
    (hi1 : i1 = done.flatten.length + 1) (hi : i = done.flatten.length + cur.length + 1)
    (hlasti : cur ≠ [] → lasti = some (done.flatten.length + cur.length : Int)) :
    (greedyLoop words width ⟨done.map joinWords, room, i1, lasti⟩ i rest >>=
        finishWrap words) =
      .ok ((done ++ greedyGroups width room cur rest).map joinWords) := by
  induction rest generalizing done cur room i1 i lasti with
  | nil =>
      simp only [greedyLoop, greedyGroups, finishWrap, bind, Except.bind]
      by_cases hcur : cur = []
      · subst hcur
        have hlen : ¬ i1 ≤ words.length := by
          simp only [hwords, List.append_nil]
          omega
        rw [if_neg hlen, if_pos rfl, List.append_nil]
        rfl
      · have hpos := List.length_pos_of_ne_nil hcur
        have hlen : i1 ≤ words.length := by
          simp only [hwords, List.append_nil, List.length_append]
          omega
        have hconcat := tableConcat_split done.flatten cur [] hi1 rfl
        rw [if_pos hlen, hlasti hcur, Option.getD_some, hwords, hconcat, if_neg hcur]
        simp [pure, Except.pure]
  | cons word rest ih =>
      rw [greedyLoop, greedyGroups]
      by_cases hfull : room < word.length + 1
      · rw [if_pos hfull]
        by_cases hcur : cur = []
        · -- the word is alone on its line
          subst hcur
          have honly : i1 = i := by simp [hi1, hi]
          have hconcat : tableConcat words [SPACE] i1 (if i1 = i then i1 else i - 1) =
              .ok (joinWords [word]) := by
            rw [if_pos honly, hwords]
            exact tableConcat_split done.flatten [word] rest hi1 (by simpa using hi1)
          rw [greedyStep_full hfull hconcat, if_pos honly, if_pos rfl]
          have hnext := ih (done ++ [[word]]) [] (width - word.length) (i + 1) (i + 1) (some i)
            (by simp [hwords]) (by simp [hi]) (by simp [hi]) (fun h => absurd rfl h)
          simpa [ok_bind] using hnext
        · have hpos := List.length_pos_of_ne_nil hcur
          have honly : i1 ≠ i := by omega
          have hconcat : tableConcat words [SPACE] i1 (if i1 = i then i1 else i - 1) =
              .ok (joinWords cur) := by
            rw [if_neg honly, hwords]
            exact tableConcat_split done.flatten cur (word :: rest) hi1 (by omega)
          rw [greedyStep_full hfull hconcat, if_neg honly, if_neg hcur]
          have hnext := ih (done ++ [cur]) [word] (width - word.length) i (i + 1) (some i)
            (by simp [hwords]) (by simp [hi]) (by simp [hi]) (fun _ => by simp [hi])
          simpa [ok_bind] using hnext
      · rw [if_neg hfull, greedyStep_fits hfull]
        exact ih done (cur ++ [word]) (room - (word.length + 1)) i1 (i + 1) (some i)
          (by simp [hwords]) hi1 (by simp [hi]; omega) (fun _ => by simp [hi]; omega)

theorem greedy_eq (words : List Bytes) (width : Int) :
    greedy words width = .ok ((greedyGroups width width [] words).map joinWords) :=
  greedyLoop_groups [] [] words width 1 1 none rfl rfl rfl fun h => absurd rfl h

/-! ## The words of the lines -/

theorem flatten_greedyGroups (room : Int) (cur rest : List Bytes) :
    (greedyGroups width room cur rest).flatten = cur ++ rest := by
  induction rest generalizing room cur with
  | nil =>
      rw [greedyGroups]
      split_ifs with hcur <;> simp [hcur]
  | cons word rest ih =>
      rw [greedyGroups]
      split_ifs with hfull hcur
      · simp [ih, hcur]
      · simp [ih]
      · simp [ih]

theorem ne_nil_of_mem_greedyGroups {g : List Bytes} {room : Int} {cur rest : List Bytes}
    (hg : g ∈ greedyGroups width room cur rest) : g ≠ [] := by
  induction rest generalizing room cur with
  | nil =>
      rw [greedyGroups] at hg
      split_ifs at hg with hcur
      · cases hg
      · rwa [List.mem_singleton.mp hg]
  | cons word rest ih =>
      rw [greedyGroups] at hg
      split_ifs at hg with hfull hcur
      · rcases List.mem_cons.mp hg with rfl | hg
        · exact List.cons_ne_nil word []
        · exact ih hg
      · rcases List.mem_cons.mp hg with rfl | hg
        · exact hcur
        · exact ih hg
      · exact ih hg

/-- The space that is left is at most what the line has. -/
theorem fits_greedyGroups {g : List Bytes} {room : Int} {cur rest : List Bytes}
    (hroom : room ≤ width + 1 - spacedWidth List.length cur) (hempty : cur = [] → room ≤ width)
    (hcur : 2 ≤ cur.length → (lineWidth List.length cur : Int) ≤ width)
    (hg : g ∈ greedyGroups width room cur rest) (hlen : 2 ≤ g.length) :
    (lineWidth List.length g : Int) ≤ width := by
  induction rest generalizing room cur with
  | nil =>
      rw [greedyGroups] at hg
      split_ifs at hg with hnil
      · cases hg
      · obtain rfl := List.mem_singleton.mp hg
        exact hcur hlen
  | cons word rest ih =>
      rw [greedyGroups] at hg
      split_ifs at hg with hfull hnil
      · rcases List.mem_cons.mp hg with rfl | hg
        · simp at hlen
        · refine ih ?_ (fun _ => by omega) (by simp) hg
          simp only [spacedWidth_nil]
          omega
      · rcases List.mem_cons.mp hg with rfl | hg
        · exact hcur hlen
        · refine ih ?_ (by simp) (by simp) hg
          simp only [spacedWidth_cons, spacedWidth_nil]
          push_cast
          omega
      · have hwide : (spacedWidth List.length (cur ++ [word]) : Int) =
            spacedWidth List.length cur + (word.length + 1) := by
          rw [spacedWidth_append]
          simp
        refine ih (by omega) (by simp) (fun hlong => ?_) hg
        obtain ⟨x, ws, hws⟩ := List.exists_cons_of_ne_nil
          (List.append_ne_nil_of_right_ne_nil cur (List.cons_ne_nil word []))
        rw [hws] at hwide ⊢
        rw [lineWidth_cons]
        rw [spacedWidth_cons] at hwide
        push_cast at hwide ⊢
        omega

/-! ## How many lines there are -/

theorem length_greedyGroups {room : Int} {cur : List Bytes} (hcur : cur ≠ [])
    (rest : List Bytes) :
    (greedyGroups width room cur rest).length =
      linesBegun List.length width room rest + 1 := by
  induction rest generalizing room cur with
  | nil =>
      rw [greedyGroups, if_neg hcur]
      rfl
  | cons word rest ih =>
      rw [greedyGroups]
      split_ifs with hfull
      · rw [List.length_cons, ih (List.cons_ne_nil word []), linesBegun, if_neg (by omega)]
      · rw [ih (List.append_ne_nil_of_right_ne_nil cur (List.cons_ne_nil word [])),
          linesBegun_of_fits (by omega)]

/-- No two words fit on a line together, where one comes after the other. -/
def Crowded (width : Int) (words : List Bytes) : Prop :=
  words.IsChain fun a b => width < a.length + 1 + b.length

instance (width : Int) (words : List Bytes) : Decidable (Crowded width words) :=
  inferInstanceAs (Decidable (words.IsChain _))

/-- After a word alone on its line there is a line too many if two words fit. -/
theorem length_greedyGroups_nil (word : Bytes) (rest : List Bytes) :
    (greedyGroups width (width - word.length) [] rest).length =
      linesBegun List.length width (width - word.length) rest +
        if Crowded width (word :: rest) then 0 else 1 := by
  induction rest generalizing word with
  | nil =>
      have hcrowded : Crowded width [word] := List.isChain_singleton word
      rw [greedyGroups, if_pos rfl, if_pos hcrowded]
      rfl
  | cons next rest ih =>
      have hiff : Crowded width (word :: next :: rest) ↔
          width < word.length + 1 + next.length ∧ Crowded width (next :: rest) :=
        List.isChain_cons_cons
      rw [greedyGroups]
      by_cases hfull : width - word.length < next.length + 1
      · have hpair : width < word.length + 1 + next.length := by omega
        have hbegun : linesBegun List.length width (width - word.length) (next :: rest) =
            linesBegun List.length width (width - next.length) rest + 1 := by
          rw [linesBegun, if_neg (by omega)]
        rw [if_pos hfull, if_pos rfl, List.length_cons, ih, hbegun]
        simp only [hiff, hpair, true_and]
        omega
      · have hnot : ¬ Crowded width (word :: next :: rest) := fun h => by
          have hpair := (hiff.mp h).1
          omega
        rw [if_neg hfull, if_neg hnot, List.nil_append,
          length_greedyGroups (List.cons_ne_nil next []), linesBegun_of_fits (by omega)]

/-! ## Greedy wrapping -/

/-- The words are put on lines in order; a line that does not fit is a single word. -/
structure WrapsTo (words : List Bytes) (width : Int) (gs : List (List Bytes)) : Prop where
  flatten : gs.flatten = words
  ne_nil : ∀ g ∈ gs, g ≠ []
  fits : ∀ g ∈ gs, ((joinWords g).length : Int) ≤ width ∨
    ∃ word, g = [word] ∧ width < word.length

theorem wrapsTo_iff {gs : List (List Bytes)} :
    WrapsTo words width gs ↔ Breaks List.length width words gs := by
  constructor
  · rintro ⟨hflat, hne, hfits⟩
    refine ⟨hflat, hne, fun g hg hlen => ?_⟩
    rcases hfits g hg with hle | ⟨word, rfl, -⟩
    · rwa [length_joinWords] at hle
    · simp at hlen
  · rintro ⟨hflat, hne, hfits⟩
    refine ⟨hflat, hne, fun g hg => ?_⟩
    obtain ⟨word, g, rfl⟩ := List.exists_cons_of_ne_nil (hne g hg)
    cases g with
    | nil =>
        rw [joinWords_singleton]
        rcases lt_or_ge width (word.length : Int) with hlong | hfit
        · exact .inr ⟨word, rfl, hlong⟩
        · exact .inl hfit
    | cons next g =>
        rw [length_joinWords]
        exact .inl (hfits _ hg (by simp))

/-- The lines are a breaking of the words, and no other one has fewer lines. -/
def WrapsBest (words : List Bytes) (width : Int) (lines : List Bytes) : Prop :=
  ∃ gs, WrapsTo words width gs ∧ lines = gs.map joinWords ∧
    ∀ gs', WrapsTo words width gs' → lines.length ≤ gs'.length

theorem wrapsTo_greedyGroups (words : List Bytes) (width : Int) :
    WrapsTo words width (greedyGroups width width [] words) := by
  refine wrapsTo_iff.mpr ⟨flatten_greedyGroups width [] words,
    fun g hg => ne_nil_of_mem_greedyGroups hg, fun g hg hlen => ?_⟩
  refine fits_greedyGroups ?_ (fun _ => le_refl width) (by simp) hg hlen
  simp only [spacedWidth_nil]
  omega

theorem wrapsBest_iff :
    WrapsBest words width ((greedyGroups width width [] words).map joinWords) ↔
      (greedyGroups width width [] words).length = fewestLines List.length width words := by
  constructor
  · rintro ⟨gs, hgs, hlines, hbest⟩
    rw [List.length_map] at hbest
    obtain ⟨gs', hgs', hlen⟩ := exists_breaks_fewestLines (w := List.length) (L := width) words
    have hle := hbest gs' (wrapsTo_iff.mpr hgs')
    have hge := fewestLines_le (wrapsTo_iff.mp (wrapsTo_greedyGroups words width))
    omega
  · intro hlen
    refine ⟨_, wrapsTo_greedyGroups words width, rfl, fun gs' hgs' => ?_⟩
    rw [List.length_map, hlen]
    exact fewestLines_le (wrapsTo_iff.mp hgs')

/-- Where the first word is shorter than a line, no line is lost by the column that is
counted too many: if first words fill a line exactly, the last of them does not need a
line more than what comes after it. -/
def FirstLineSpares (words : List Bytes) (width : Int) : Prop :=
  (∀ word ∈ words.head?, (word.length : Int) < width) ∧
    ∀ k, 2 ≤ k → k ≤ words.length → ((joinWords (words.take k)).length : Int) = width →
      fewestLines List.length width (words.drop (k - 1)) ≤
        fewestLines List.length width (words.drop k)

theorem length_joinWords_take (word : Bytes) (rest : List Bytes) (k : ℕ) :
    (((joinWords ((word :: rest).take (k + 2))).length : ℕ) : Int) =
      word.length + spacedWidth List.length (rest.take (k + 1)) := by
  rw [length_joinWords, List.take_succ_cons, lineWidth_cons]
  push_cast
  rfl

theorem firstLineSpares_of_crowded {word : Bytes} {rest : List Bytes}
    (hshort : (word.length : Int) < width) (h : Crowded width (word :: rest)) :
    FirstLineSpares (word :: rest) width := by
  refine ⟨fun word' hword' => ?_, fun k hk hle hwidth => ?_⟩
  · obtain rfl := Option.some.inj hword'
    exact hshort
  · -- two words are already too wide
    obtain ⟨k, rfl⟩ := Nat.exists_eq_add_of_le' hk
    cases rest with
    | nil => simp at hle
    | cons next rest =>
        have hpair : width < word.length + 1 + next.length := (List.isChain_cons_cons.mp h).1
        rw [length_joinWords_take, List.take_succ_cons, spacedWidth_cons] at hwidth
        push_cast at hwidth
        omega

theorem length_greedyGroups_iff :
    (greedyGroups width width [] words).length = fewestLines List.length width words ↔
      FirstLineSpares words width ∨ Crowded width words := by
  cases words with
  | nil =>
      refine iff_of_true rfl (.inl ⟨by simp, fun k hk hle => ?_⟩)
      simp only [List.length_nil] at hle
      omega
  | cons word rest =>
      have hfewest : fewestLines List.length width (word :: rest) =
          linesBegun List.length width (width - word.length) rest + 1 := rfl
      rw [greedyGroups]
      by_cases hlong : width < word.length + 1
      · have hnot : ¬ FirstLineSpares (word :: rest) width := by
          rintro ⟨hshort, -⟩
          have hlt := hshort word rfl
          omega
        rw [if_pos hlong, if_pos rfl, List.length_cons, length_greedyGroups_nil, hfewest]
        simp only [hnot, false_or]
        split_ifs with hcrowded
        · simp [hcrowded]
        · simp [hcrowded]
      · have hroom : width - (word.length + 1) = width - word.length - 1 := by omega
        rw [if_neg hlong, length_greedyGroups (List.append_ne_nil_of_right_ne_nil []
          (List.cons_ne_nil word [])), hfewest, Nat.add_right_cancel_iff, hroom,
          linesBegun_pred_iff, or_iff_left_of_imp (firstLineSpares_of_crowded (by omega))]
        constructor
        · intro h
          refine ⟨fun word' hword' => ?_, fun k hk hle hwidth => ?_⟩
          · obtain rfl := Option.some.inj hword'
            omega
          · obtain ⟨k, rfl⟩ := Nat.exists_eq_add_of_le' hk
            rw [length_joinWords_take] at hwidth
            rw [List.length_cons] at hle
            exact h k (by omega) (by omega)
        · rintro ⟨-, h⟩ k hk hwidth
          refine h (k + 2) (Nat.le_add_left 2 k) (by rw [List.length_cons]; omega) ?_
          rw [length_joinWords_take]
          omega

/-- `wrap.greedy` puts the words on the fewest lines exactly in these cases. -/
theorem greedy_best_iff (words : List Bytes) (width : Int) :
    (∃ lines, greedy words width = .ok lines ∧ WrapsBest words width lines) ↔
      FirstLineSpares words width ∨ Crowded width words := by
  rw [← length_greedyGroups_iff, ← wrapsBest_iff, greedy_eq]
  constructor
  · rintro ⟨lines, hlines, hbest⟩
    obtain rfl := Except.ok.inj hlines
    exact hbest
  · intro hbest
    exact ⟨_, rfl, hbest⟩

/-- Two words that fill a line exactly are put on two lines. -/
theorem greedy_full_line : ¬ ∃ lines,
    greedy [[97, 97], [98]] 4 = .ok lines ∧ WrapsBest [[97, 97], [98]] 4 lines := by
  rintro ⟨lines, hlines, gs, hgs, rfl, hbest⟩
  have hlen : (gs.map joinWords).length = 2 := by
    have hrun : greedy [[97, 97], [98]] 4 = .ok [[97, 97], [98]] := by decide
    rw [← Except.ok.inj (hrun.symm.trans hlines)]
    rfl
  have hone : WrapsTo [[97, 97], [98]] 4 [[[97, 97], [98]]] :=
    ⟨rfl, by simp, fun g hg => .inl (by rw [List.mem_singleton.mp hg]; decide)⟩
  have hle := hbest _ hone
  rw [hlen] at hle
  exact absurd hle (by decide)

end LuaAttic.Codedit.Reflow
