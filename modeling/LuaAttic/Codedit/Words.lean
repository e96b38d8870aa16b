import LuaAttic.Codedit.Reflow
import LuaAttic.Support.Fallible
import LuaAttic.Support.LineBreaking

/-!
# The words of a line

Words are separated by spaces.  Reading a line collects what is between the spaces;
joining words with spaces and reading the line gives the words again, however many
spaces there are.
-/

namespace LuaAttic.Codedit.Reflow

open LuaAttic.Support LuaAttic.Lua Str

theorem run_ok {α : Type} (a : α) : run (.ok a) = pure a := rfl

/-! ## Lines of words -/

/-- Words with a space between each two of them. -/
def joinWords (ws : List Bytes) : Bytes := [SPACE].intercalate ws

@[simp] theorem joinWords_nil : joinWords [] = [] := rfl

@[simp] theorem joinWords_singleton (s : Bytes) : joinWords [s] = s :=
  List.intercalate_singleton

theorem joinWords_cons (s : Bytes) {ws : List Bytes} (h : ws ≠ []) :
    joinWords (s :: ws) = s ++ SPACE :: joinWords ws := by
  obtain ⟨t, ws, rfl⟩ := List.exists_cons_of_ne_nil h
  simp [joinWords, List.intercalate_cons_cons]

theorem length_joinWords (ws : List Bytes) :
    (joinWords ws).length = lineWidth List.length ws := by
  induction ws with
  | nil => rfl
  | cons s ws ih =>
      rw [lineWidth_cons]
      cases ws with
      | nil => simp
      | cons t ws =>
          rw [joinWords_cons s (List.cons_ne_nil t ws), List.length_append, List.length_cons, ih,
            lineWidth_cons, spacedWidth_cons]
          omega

theorem tableConcat_split (pre g post : List Bytes) {i j : Int} (hi : i = pre.length + 1)
    (hj : j = pre.length + g.length) :
    tableConcat (pre ++ (g ++ post)) [SPACE] i j = .ok (joinWords g) := by
  subst hi hj
  rw [tableConcat]
  split_ifs with hempty hrange
  · have hg : g = [] := List.eq_nil_of_length_eq_zero (by omega)
    rw [hg, joinWords_nil]
  · have htake : ((pre.length : Int) + g.length).toNat = (pre ++ g).length := by
      rw [List.length_append]
      omega
    have hdrop : ((pre.length : Int) + 1 - 1).toNat = pre.length := by omega
    rw [htake, hdrop, ← List.append_assoc, List.take_left, List.drop_left, joinWords]
  · refine absurd ⟨?_, ?_⟩ hrange
    · omega
    · simp only [List.length_append]
      omega

theorem tableConcat_all (ws : List Bytes) :
    tableConcat ws [SPACE] 1 ws.length = .ok (joinWords ws) := by
  have hsplit := tableConcat_split [] ws [] (i := 1) (j := ws.length) rfl (by simp)
  rwa [List.nil_append, List.append_nil] at hsplit

/-! ## Reading words -/

/-- The words of a line, where a word has been begun. -/
def cutWords : Bytes → Bytes → List Bytes
  | cur, [] => if cur = [] then [] else [cur]
  | cur, c :: s =>
      if c = SPACE then if cur = [] then cutWords [] s else cur :: cutWords [] s
      else cutWords (cur ++ [c]) s

/-- What is between the spaces of a line. -/
def wordsOf (s : Bytes) : List Bytes := cutWords [] s

/-- A word is not empty and has no spaces. -/
structure IsWord (s : Bytes) : Prop where
  ne_nil : s ≠ []
  space_notMem : SPACE ∉ s

theorem isWord_of_mem_cutWords {cur s w : Bytes} (hcur : SPACE ∉ cur)
    (hw : w ∈ cutWords cur s) : IsWord w := by
  induction s generalizing cur with
  | nil =>
      rw [cutWords] at hw
      split_ifs at hw with hnil
      · cases hw
      · obtain rfl := List.mem_singleton.mp hw
        exact ⟨hnil, hcur⟩
  | cons c s ih =>
      rw [cutWords] at hw
      split_ifs at hw with hc hnil
      · exact ih List.not_mem_nil hw
      · rcases List.mem_cons.mp hw with rfl | hw
        · exact ⟨hnil, hcur⟩
        · exact ih List.not_mem_nil hw
      · refine ih ?_ hw
        simp only [List.mem_append, List.mem_singleton, not_or]
        exact ⟨hcur, Ne.symm hc⟩

theorem isWord_of_mem_wordsOf {s w : Bytes} (hw : w ∈ wordsOf s) : IsWord w :=
  isWord_of_mem_cutWords List.not_mem_nil hw

theorem cutWords_append {t : Bytes} (ht : SPACE ∉ t) (cur s : Bytes) :
    cutWords cur (t ++ s) = cutWords (cur ++ t) s := by
  induction t generalizing cur with
  | nil => rw [List.nil_append, List.append_nil]
  | cons c t ih =>
      have hc : c ≠ SPACE := fun h => ht (h ▸ List.mem_cons_self)
      rw [List.cons_append, cutWords, if_neg hc, ih fun h => ht (List.mem_cons_of_mem c h),
        List.append_assoc, List.singleton_append]

@[simp] theorem wordsOf_nil : wordsOf [] = [] := rfl

theorem wordsOf_singleton {w : Bytes} (hw : IsWord w) : wordsOf w = [w] := by
  have happend := cutWords_append hw.space_notMem [] []
  rw [List.append_nil, List.nil_append] at happend
  rw [wordsOf, happend, cutWords, if_neg hw.ne_nil]

theorem wordsOf_append_space {w : Bytes} (hw : IsWord w) (s : Bytes) :
    wordsOf (w ++ SPACE :: s) = w :: wordsOf s := by
  rw [wordsOf, cutWords_append hw.space_notMem, List.nil_append, cutWords, if_pos rfl,
    if_neg hw.ne_nil, wordsOf]

/-- Spaces before the words of a line. -/
theorem wordsOf_spaces_append {t : Bytes} (ht : ∀ c ∈ t, c = SPACE) (s : Bytes) :
    wordsOf (t ++ s) = wordsOf s := by
  induction t with
  | nil => rfl
  | cons c t ih =>
      obtain rfl := ht c List.mem_cons_self
      rw [List.cons_append, wordsOf, cutWords, if_pos rfl, if_pos rfl]
      exact ih fun c hc => ht c (List.mem_cons_of_mem _ hc)

theorem wordsOf_joinWords {ws : List Bytes} (hws : ∀ w ∈ ws, IsWord w) :
    wordsOf (joinWords ws) = ws := by
  induction ws with
  | nil => rfl
  | cons w ws ih =>
      have hw := hws w List.mem_cons_self
      by_cases hnil : ws = []
      · subst hnil
        rw [joinWords_singleton, wordsOf_singleton hw]
      · rw [joinWords_cons w hnil, wordsOf_append_space hw,
          ih fun w' hw' => hws w' (List.mem_cons_of_mem w hw')]

theorem length_cutWords_le (cur s : Bytes) :
    (cutWords cur s).length ≤ cur.length + s.length := by
  induction s generalizing cur with
  | nil =>
      rw [cutWords]
      split_ifs with hnil
      · exact Nat.zero_le _
      · exact List.length_pos_of_ne_nil hnil
  | cons c s ih =>
      rw [cutWords, List.length_cons]
      split_ifs with hc hnil
      · have htail := ih []
        rw [List.length_nil] at htail
        omega
      · have htail := ih []
        have hpos := List.length_pos_of_ne_nil hnil
        rw [List.length_nil] at htail
        rw [List.length_cons]
        omega
      · have htail := ih (cur ++ [c])
        rw [List.length_append, List.length_singleton] at htail
        omega

theorem length_wordsOf_le (s : Bytes) : (wordsOf s).length ≤ s.length :=
  (length_cutWords_le [] s).trans_eq (Nat.zero_add _)

/-! ## The loop over the bytes -/

theorem isspace_split (pre : Bytes) (c : UInt8) (s : Bytes) {i : Int}
    (hi : i = pre.length + 1) : isspace (pre ++ c :: s) i = .ok (c == SPACE) := by
  have hindex : (i - 1).toNat = pre.length := by omega
  have hbyte : byteAt (pre ++ c :: s) i = some c := by
    rw [byteAt, if_pos (by omega), hindex]
    simp
  rw [isspace, ischar, hbyte]

theorem sub_split (pre cur s : Bytes) {i j : Int} (hi : i = pre.length + 1)
    (hj : j = pre.length + cur.length) : sub (pre ++ (cur ++ s)) i j = cur := by
  have htake : j.toNat = (pre ++ cur).length := by
    rw [List.length_append]
    omega
  have hdrop : (i - 1).toNat = pre.length := by omega
  rw [sub_eq_take_drop _ (by omega) (by omega), htake, hdrop, ← List.append_assoc,
    List.take_left, List.drop_left]

/-- What is left to do after the loop. -/
def finishWords (line : Bytes) (s : LineWords) : Except Error (List Bytes) :=
  match s.starti with
  | some starti => return s.words ++ [subFrom line starti]
  | none => return s.words

theorem lineWords_loop {line : Bytes} (pre cur s : Bytes) (ws : List Bytes)
    (starti lasti : Option Int) (i : Int) (hline : line = pre ++ (cur ++ s))
    (hi : i = pre.length + cur.length + 1)
    (hstart : starti = if cur = [] then none else some (pre.length + 1 : Int))
    (hlast : cur ≠ [] → lasti = some (pre.length + cur.length : Int)) :
    ((interval i s.length).foldlM (lineWordsStep line) ⟨ws, starti, lasti⟩ >>=
        finishWords line) = .ok (ws ++ cutWords cur s) := by
  induction s generalizing pre cur ws starti lasti i with
  | nil =>
      rw [List.length_nil, interval_zero, List.foldlM_nil, pure_bind, finishWords, cutWords,
        hstart]
      split_ifs with hcur
      · rw [List.append_nil]
        rfl
      · have hsub : subFrom line (pre.length + 1) = cur := by
          rw [hline, List.append_nil]
          exact subFrom_append_left pre cur rfl
        simp only [hsub]
        rfl
  | cons c s ih =>
      have hspace : isspace line i = .ok (c == SPACE) := by
        rw [hline, ← List.append_assoc]
        exact isspace_split (pre ++ cur) c s (by rw [List.length_append]; omega)
      rw [List.length_cons, interval_succ, List.foldlM_cons, lineWordsStep, hspace, ok_bind,
        cutWords]
      by_cases hc : c = SPACE
      · rw [if_pos hc, beq_iff_eq.mpr hc]
        by_cases hcur : cur = []
        · subst hcur
          rw [if_pos rfl] at hstart ⊢
          subst hstart
          exact ih (pre ++ [c]) [] ws none (some i) (i + 1) (by simp [hline]) (by simp [hi]) rfl
            fun h => absurd rfl h
        · rw [if_neg hcur] at hstart ⊢
          have hsub : sub line (pre.length + 1) (lasti.getD (-1)) = cur := by
            rw [hlast hcur, Option.getD_some, hline]
            exact sub_split pre cur (c :: s) rfl rfl
          subst hstart
          have hnext := ih (pre ++ (cur ++ [c])) [] (ws ++ [cur]) none (some i) (i + 1)
            (by simp [hline]) (by simp [hi]; omega) rfl fun h => absurd rfl h
          simpa [hsub, pure, Except.pure, ok_bind] using hnext
      · rw [if_neg hc, beq_eq_false_iff_ne.mpr hc]
        by_cases hcur : cur = []
        · subst hcur
          rw [if_pos rfl] at hstart
          subst hstart
          exact ih pre [c] ws (some i) (some i) (i + 1) (by simp [hline]) (by simp [hi])
            (by simp [hi]) fun _ => by simp [hi]
        · rw [if_neg hcur] at hstart
          subst hstart
          exact ih pre (cur ++ [c]) ws _ (some i) (i + 1) (by simp [hline])
            (by simp [hi]; omega) (by simp) fun _ => by simp [hi]; omega

theorem lineWords_eq (line : Bytes) (ws : List Bytes) :
    lineWords line ws = .ok (ws ++ wordsOf line) :=
  lineWords_loop [] [] line ws none none 1 rfl rfl rfl fun h => absurd rfl h

end LuaAttic.Codedit.Reflow
