import LuaAttic.Codedit.Words

/-!
# Justified lines

The spaces that a line lacks are shared out among its gaps: each gap gets the same
number, and of the rest, one after each punctuation mark as long as there are some,
and the others at random.  Where a random gap is not new there is another try, until
there are no retries left, so each space gets a gap.
-/

namespace LuaAttic.Codedit.Reflow

open LuaAttic.Support LuaAttic.Lua Str

/-! ## Places -/

/-- The spaces of some places. -/
def Places.total (places : Places) (l : List Int) : Int :=
  (l.map fun pos => (places pos).getD 0).sum

/-- No place has a negative number of spaces. -/
def Places.Nonneg (places : Places) : Prop := ∀ pos, 0 ≤ (places pos).getD 0

theorem add_getD (places : Places) (pos pos' : Int) :
    ((places.add pos) pos').getD 0 = (places pos').getD 0 + if pos' = pos then 1 else 0 := by
  rw [Places.add, Function.update_apply]
  split_ifs with h
  · rw [h, Option.getD_some]
  · rw [add_zero]

theorem Places.Nonneg.add {places : Places} (h : places.Nonneg) (pos : Int) :
    (places.add pos).Nonneg := by
  intro pos'
  have hold := h pos'
  rw [add_getD]
  split_ifs <;> omega

theorem total_add {l : List Int} (hl : l.Nodup) {pos : Int} (hpos : pos ∈ l)
    (places : Places) : (places.add pos).total l = places.total l + 1 := by
  have hcount : (l.map fun pos' => if pos' = pos then (1 : Int) else 0).sum = 1 := by
    rw [List.sum_map_ite_eq, List.count_eq_one_of_mem hl hpos]
    simp
  simp only [Places.total, add_getD, List.sum_map_add, hcount]

/-- Some spaces have been put at places. -/
structure Puts (l : List Int) (places : Places) (count : Int) (places' : Places)
    (count' : Int) : Prop where
  nonneg : places'.Nonneg
  count_nonneg : 0 ≤ count'
  count_le : count' ≤ count
  total : places'.total l + count' = places.total l + count

theorem Puts.refl {l : List Int} {places : Places} {count : Int} (h : places.Nonneg)
    (hcount : 0 ≤ count) : Puts l places count places count :=
  ⟨h, hcount, le_refl _, rfl⟩

/-- A first space at a place, and some more. -/
theorem Puts.add {l : List Int} (hl : l.Nodup) {pos : Int} (hpos : pos ∈ l)
    {places places' : Places} {count count' : Int}
    (h : Puts l (places.add pos) (count - 1) places' count') :
    Puts l places count places' count' := by
  have htotal := h.total
  have hle := h.count_le
  rw [total_add hl hpos] at htotal
  exact ⟨h.nonneg, h.count_nonneg, by omega, by omega⟩

/-! ## Punctuation -/

section Punctuation

variable {ws : List Bytes} {l : List Int}

theorem addPunctuationLoop_puts (hws : ∀ w ∈ ws, w ≠ []) (hl : l.Nodup) {rest : List Int}
    (hrest : ∀ pos ∈ rest, pos ∈ l ∧ 2 ≤ pos ∧ pos ≤ ws.length) {places : Places}
    (hplaces : places.Nonneg) {count : Int} (hcount : 0 ≤ count) :
    ∃ places' count', addPunctuationLoop ws places count rest = .ok (places', count') ∧
      Puts l places count places' count' := by
  induction rest generalizing places count with
  | nil => exact ⟨places, count, rfl, .refl hplaces hcount⟩
  | cons pos rest ih =>
      rw [addPunctuationLoop]
      by_cases hone : count < 1
      · exact ⟨places, count, by rw [if_pos hone]; rfl, .refl hplaces hcount⟩
      · obtain ⟨hpos, hfirst, hlast⟩ := hrest pos List.mem_cons_self
        have hrest' : ∀ pos ∈ rest, pos ∈ l ∧ 2 ≤ pos ∧ pos ≤ ws.length :=
          fun pos hpos => hrest pos (List.mem_cons_of_mem _ hpos)
        obtain ⟨pre, w, post, rfl, hindex⟩ : ∃ pre w post, ws = pre ++ w :: post ∧
            pos - 1 = pre.length + 1 := exists_split_of_range (by omega)
        have hw := hws w (by simp)
        have hlen := List.length_pos_of_ne_nil hw
        obtain ⟨c, hc⟩ : ∃ c, byteAt w w.length = some c :=
          ⟨_, by rw [byteAt, if_pos (by omega), List.getElem?_eq_getElem (by omega)]⟩
        rw [if_neg hone, hindex, tableGet_split, nonNil, ok_bind, prev, if_neg hw, nonNil,
          ok_bind, isword, hc, ok_bind]
        by_cases hp : isPunctuation c = true
        · rw [if_pos hp]
          obtain ⟨places', count', hrun, hputs⟩ := ih hrest' (hplaces.add pos)
            (show 0 ≤ count - 1 by omega)
          exact ⟨places', count', hrun, hputs.add hl hpos⟩
        · rw [if_neg hp]
          exact ih hrest' hplaces hcount

end Punctuation

/-! ## Random places -/

section Random

variable {rnd : ℕ → Int → Int → Int}
  (hrnd : ∀ k min max, min ≤ max → min ≤ rnd k min max ∧ rnd k min max ≤ max)

include hrnd

theorem uniqueRandomNumber_spec {min max : Int} (hle : min ≤ max) (places : Places)
    {fuel : ℕ} {retries : Int} (hretries : 0 ≤ retries) (hfuel : retries < fuel) (k : ℕ) :
    ∃ pos k', uniqueRandomNumber rnd min max places fuel retries k = pure (pos, k') ∧
      min ≤ pos ∧ pos ≤ max := by
  induction fuel generalizing retries k with
  | zero => omega
  | succ fuel ih =>
      rw [uniqueRandomNumber]
      by_cases hdone : places (rnd k min max) = none ∨ retries = 0
      · exact ⟨rnd k min max, k + 1, if_pos hdone, hrnd k min max hle⟩
      · simp only [if_neg hdone]
        obtain ⟨-, hne⟩ := not_or.mp hdone
        exact ih (by omega) (by omega) (k + 1)

theorem addRandomLoop_puts {min max : Int} (hle : min ≤ max) {l : List Int} (hl : l.Nodup)
    (hmem : ∀ pos, min ≤ pos → pos ≤ max → pos ∈ l) {fuel : ℕ} {retries : Int}
    (hretries : 0 ≤ retries) (hfuel : retries < fuel) {places : Places}
    (hplaces : places.Nonneg) (k n : ℕ) :
    ∃ places' k', addRandomLoop rnd fuel min max retries places n k n =
        pure (places', 0, k') ∧ Puts l places n places' 0 := by
  induction n generalizing places k with
  | zero => exact ⟨places, k, rfl, .refl hplaces (le_refl 0)⟩
  | succ n ih =>
      obtain ⟨pos, k', hpos, hmin, hmax⟩ :=
        uniqueRandomNumber_spec hrnd hle places hretries hfuel k
      obtain ⟨places', k'', hrun, hputs⟩ := ih (hplaces.add pos) k'
      have hcount : ((n + 1 : ℕ) : Int) - 1 = n := by omega
      refine ⟨places', k'', ?_, .add hl (hmem pos hmin hmax) (hcount ▸ hputs)⟩
      rw [addRandomLoop, hpos, pure_bind, hcount]
      exact hrun

end Random

/-! ## Padded words -/

/-- Words from a position on with spaces before them. -/
def padded (f : Int → Int) : Int → List Bytes → List Bytes
  | _, [] => []
  | pos, w :: ws => (rep [SPACE] (f pos) ++ w) :: padded f (pos + 1) ws

theorem length_rep_space (n : Int) : (rep [SPACE] n).length = n.toNat := by
  simp [rep]

theorem eq_space_of_mem_rep {n : Int} {c : UInt8} (hc : c ∈ rep [SPACE] n) : c = SPACE :=
  List.mem_singleton.mp (mem_rep hc)

theorem spacedWidth_padded {f : Int → Int} (hf : ∀ pos, 0 ≤ f pos) (pos : Int)
    (ws : List Bytes) : (spacedWidth List.length (padded f pos ws) : Int) =
      spacedWidth List.length ws + ((interval pos ws.length).map f).sum := by
  induction ws generalizing pos with
  | nil => simp [padded]
  | cons w ws ih =>
      have hpos := hf pos
      have htail := ih (pos + 1)
      rw [padded, spacedWidth_cons, spacedWidth_cons, List.length_cons, interval_succ,
        List.map_cons, List.sum_cons, List.length_append, length_rep_space]
      push_cast
      rw [htail]
      omega

theorem joinWords_append_cons (t w : Bytes) (ws : List Bytes) :
    joinWords ((t ++ w) :: ws) = t ++ joinWords (w :: ws) := by
  by_cases h : ws = []
  · rw [h, joinWords_singleton, joinWords_singleton]
  · rw [joinWords_cons _ h, joinWords_cons _ h, List.append_assoc]

theorem prefix_joinWords (w : Bytes) (ws : List Bytes) : w <+: joinWords (w :: ws) := by
  by_cases h : ws = []
  · exact ⟨[], by rw [List.append_nil, h, joinWords_singleton]⟩
  · rw [joinWords_cons w h]
    exact List.prefix_append _ _

/-- More spaces between the words do not change them. -/
theorem wordsOf_joinWords_padded {w : Bytes} {ws : List Bytes} (hw : IsWord w)
    (hws : ∀ w ∈ ws, IsWord w) (f : Int → Int) (pos : Int) :
    wordsOf (joinWords (w :: padded f pos ws)) = w :: ws := by
  induction ws generalizing w pos with
  | nil => rw [padded, joinWords_singleton, wordsOf_singleton hw]
  | cons w' ws ih =>
      rw [joinWords_cons w (by simp [padded]), wordsOf_append_space hw, padded,
        joinWords_append_cons, wordsOf_spaces_append fun c => eq_space_of_mem_rep,
        ih (hws w' List.mem_cons_self) fun w hw => hws w (List.mem_cons_of_mem _ hw)]

theorem padWords_eq (minSpaces : Int) (places : Places) (pre ws : List Bytes) {pos : Int}
    (hpos : pos = pre.length + 1) :
    (interval pos ws.length).foldlM (padWord minSpaces places) (pre ++ ws) =
      .ok (pre ++ padded (fun pos => minSpaces + (places pos).getD 0) pos ws) := by
  induction ws generalizing pre pos with
  | nil => rfl
  | cons w ws ih =>
      subst hpos
      have hnext := ih (pre ++ [rep [SPACE] (minSpaces + (places (pre.length + 1)).getD 0) ++ w])
        (show (pre.length + 1 + 1 : Int) = _ by simp)
      rw [List.length_cons, interval_succ, List.foldlM_cons, padWord, tableGet_split, nonNil,
        ok_bind, pure_bind, tableSet_split, padded]
      rw [List.append_assoc, List.append_assoc] at hnext
      exact hnext

/-! ## Justified lines -/

section Justify

variable {rnd : ℕ → Int → Int → Int}
  (hrnd : ∀ k min max, min ≤ max → min ≤ rnd k min max ∧ rnd k min max ≤ max)

include hrnd

/-- All the spaces that a line of several words lacks are put at places. -/
theorem exists_places {w : Bytes} {rest : List Bytes} (hws : ∀ v ∈ w :: rest, v ≠ [])
    {spaces : Int} (hspaces : 0 ≤ spaces) (hlt : spaces < rest.length)
    {fuel : ℕ} (hfuel : 2 * rest.length ≤ fuel) (k : ℕ) :
    ∃ places count places' k',
      addPunctuationPlaces (fun _ => none) spaces (w :: rest) = .ok (places, count) ∧
      addRandomPlaces rnd fuel places count 2 (w :: rest).length k = pure (places', 0, k') ∧
      places'.Nonneg ∧ places'.total (interval 2 rest.length) = spaces := by
  have hnodup : (interval 2 rest.length).Nodup := nodup_interval 2 rest.length
  have hempty : Places.Nonneg fun _ => none := fun _ => le_refl 0
  have hpositions : ∀ pos ∈ interval 2 rest.length,
      pos ∈ interval 2 rest.length ∧ 2 ≤ pos ∧ pos ≤ (w :: rest).length := by
    intro pos hpos
    have hbounds := mem_interval.mp hpos
    rw [List.length_cons]
    push_cast
    exact ⟨hpos, by omega, by omega⟩
  obtain ⟨places, count, hpunct, hputs⟩ :=
    addPunctuationLoop_puts hws hnodup hpositions hempty hspaces
  have hle := hputs.count_le
  obtain ⟨n, rfl⟩ := Int.eq_ofNat_of_zero_le hputs.count_nonneg
  obtain ⟨places', k', hrun, hputs'⟩ := addRandomLoop_puts hrnd
    (show (2 : Int) ≤ (w :: rest).length by rw [List.length_cons]; push_cast; omega) hnodup
    (fun pos hmin hmax => mem_interval.mpr ⟨hmin, by
      rw [List.length_cons] at hmax
      push_cast at hmax
      omega⟩) (show (0 : Int) ≤ 2 * n by omega) (show (2 * n : Int) < fuel by omega)
    hputs.nonneg k n
  refine ⟨places, n, places', k', hpunct, ?_, hputs'.nonneg, ?_⟩
  · rw [addRandomPlaces, if_pos (by rw [List.length_cons]; push_cast; omega), Int.toNat_natCast]
    exact hrun
  · have htotal := hputs.total
    have htotal' := hputs'.total
    have hzero : Places.total (fun _ => none) (interval 2 rest.length) = 0 := by
      simp [Places.total]
    omega

/-- The words are the same, with no spaces before the first one, and where there is a
gap and no column too many, it gets what is missing. -/
structure RespacedLine (width : Int) (line line' : Bytes) : Prop where
  words : wordsOf line' = wordsOf line
  first : ∀ w ∈ (wordsOf line).head?, w <+: line'
  length : 2 ≤ (wordsOf line).length → (line.length : Int) ≤ width →
    (line'.length : Int) = (joinWords (wordsOf line)).length + (width - line.length)

theorem justifyLine_spec (line : Bytes) (width : Int) {fuel : ℕ}
    (hfuel : 2 * line.length < fuel) (k : ℕ) :
    ∃ line' k', justifyLine rnd fuel width line k = pure (line', k') ∧
      RespacedLine width line line' := by
  have hws : ∀ w ∈ wordsOf line, IsWord w := fun w hw => isWord_of_mem_wordsOf hw
  have hmany := length_wordsOf_le line
  rw [justifyLine, lineWords_eq, List.nil_append, run_ok, pure_bind]
  by_cases hgaps : (0 : Int) < (wordsOf line).length - 1
  · obtain ⟨w, rest, hline⟩ := List.exists_cons_of_length_pos (l := wordsOf line) (by omega)
    rw [hline] at hws hmany hgaps ⊢
    have hlen : (((w :: rest).length : ℕ) : Int) - 1 = rest.length := by
      rw [List.length_cons]
      push_cast
      omega
    rw [List.length_cons] at hmany
    simp only [if_pos hgaps]
    rw [hlen] at hgaps ⊢
    set spaces := width - line.length with hspaces
    have hleftover : spaces - spaces / rest.length * rest.length = spaces % rest.length := by
      rw [Int.emod_def, mul_comm]
    have hnonneg := Int.emod_nonneg spaces hgaps.ne'
    have hlt := Int.emod_lt_of_pos spaces hgaps
    obtain ⟨places, count, places', k', hpunct, hrandom, hplaces, htotal⟩ :=
      exists_places hrnd (fun v hv => (hws v hv).ne_nil) hnonneg hlt
        (show 2 * rest.length ≤ fuel by omega) k
    have hpad := padWords_eq (spaces / rest.length) places' [w] rest (by rfl : (2 : Int) = _)
    have hcount : (w :: rest).length - 1 = rest.length := rfl
    rw [List.singleton_append, List.singleton_append] at hpad
    rw [hleftover, hpunct, run_ok, pure_bind, hrandom, pure_bind, hcount, hpad, run_ok]
    simp only [ne_eq, not_true_eq_false, if_false, pure_bind, tableConcat_all, run_ok]
    refine ⟨_, k', rfl, ?_, fun w' hw' => ?_, fun _ hfits => ?_⟩
    · rw [hline]
      exact wordsOf_joinWords_padded (hws w List.mem_cons_self)
        (fun v hv => hws v (List.mem_cons_of_mem w hv)) _ 2
    · rw [hline] at hw'
      obtain rfl := Option.some.inj hw'
      exact prefix_joinWords w _
    · have hdiv : 0 ≤ spaces / rest.length := Int.ediv_nonneg (by omega) (by omega)
      have hwide := spacedWidth_padded
        (fun pos => add_nonneg hdiv (hplaces pos)) 2 rest
      have hsum : ((interval 2 rest.length).map fun pos =>
          spaces / rest.length + (places' pos).getD 0).sum = spaces := by
        rw [List.sum_map_add, List.map_const', List.sum_replicate, length_interval, nsmul_eq_mul]
        have hdivmod := Int.mul_ediv_add_emod spaces rest.length
        rw [← htotal] at hdivmod
        exact hdivmod
      rw [hline, length_joinWords, length_joinWords, lineWidth_cons, lineWidth_cons]
      push_cast
      omega
  · simp only [if_neg hgaps, tableConcat_all, run_ok]
    refine ⟨joinWords (wordsOf line), k, rfl, wordsOf_joinWords hws, fun w hw => ?_, ?_⟩
    · obtain ⟨rest, hrest⟩ := List.head?_eq_some_iff.mp hw
      rw [hrest]
      exact prefix_joinWords w rest
    · intro htwo
      omega

theorem justifyLoop_spec (lines : List Bytes) (width : Int) {fuel : ℕ}
    (hfuel : ∀ line ∈ lines, 2 * line.length < fuel) (k : ℕ) :
    ∃ out, justifyLoop rnd fuel width lines k = pure out ∧
      List.Forall₂ (RespacedLine width) lines out := by
  induction lines generalizing k with
  | nil => exact ⟨[], rfl, .nil⟩
  | cons line lines ih =>
      obtain ⟨line', k', hline, hspec⟩ :=
        justifyLine_spec hrnd line width (hfuel _ List.mem_cons_self) k
      obtain ⟨out, hout, hall⟩ := ih (fun l hl => hfuel l (List.mem_cons_of_mem _ hl)) k'
      refine ⟨line' :: out, ?_, .cons hspec hall⟩
      simp only [justifyLoop, hline, pure_bind, hout]

/-- With enough fuel `align.justify` returns the lines with other spaces, up to the last
one. -/
theorem justify_respaced (lines : List Bytes) (width : Int) :
    ∃ n, ∀ fuel, n ≤ fuel → ∃ out,
      justify rnd fuel lines width = pure (out ++ lines.getLast?.toList) ∧
        List.Forall₂ (RespacedLine width) lines.dropLast out := by
  refine ⟨2 * lines.flatten.length + 1, fun fuel hfuel => ?_⟩
  have hshort : ∀ line ∈ lines.dropLast, 2 * line.length < fuel := by
    intro line hline
    have hle := (List.sublist_flatten_of_mem (List.dropLast_subset lines hline)).length_le
    omega
  obtain ⟨out, hout, hall⟩ := justifyLoop_spec hrnd lines.dropLast width hshort 0
  refine ⟨out, ?_, hall⟩
  rw [justify, hout, pure_bind]

/-- The words are the same, and a line with a gap that is not too long is filled. -/
structure JustifiedLine (width : Int) (line line' : Bytes) : Prop where
  words : wordsOf line' = wordsOf line
  full : 2 ≤ (wordsOf line).length → (line.length : Int) ≤ width →
    (line'.length : Int) = width

/-- The lines are words joined by single spaces. -/
def Joined (lines : List Bytes) : Prop :=
  ∀ line ∈ lines, ∃ ws, (∀ w ∈ ws, IsWord w) ∧ line = joinWords ws

omit hrnd in
theorem justifiedLine_of_joined {lines : List Bytes} (hlines : Joined lines) {width : Int}
    {line line' : Bytes} (hline : line ∈ lines) (h : RespacedLine width line line') :
    JustifiedLine width line line' := by
  refine ⟨h.words, fun htwo hfits => ?_⟩
  have hlen := h.length htwo hfits
  obtain ⟨ws, hws, rfl⟩ := hlines line hline
  rw [wordsOf_joinWords hws] at hlen
  omega

/-- Each line keeps its words; the lines before the last one are filled, and the last
one is left as it is. -/
structure Justified (lines : List Bytes) (width : Int) (out : List Bytes) : Prop where
  words : out.map wordsOf = lines.map wordsOf
  full : ∀ i line line', lines[i]? = some line → out[i]? = some line' →
    i + 1 < lines.length → 2 ≤ (wordsOf line).length → (line.length : Int) ≤ width →
      (line'.length : Int) = width
  last : out.getLast? = lines.getLast?

omit hrnd in
theorem justified_append {lines out : List Bytes} {width : Int}
    (h : List.Forall₂ (JustifiedLine width) lines.dropLast out) :
    Justified lines width (out ++ lines.getLast?.toList) := by
  rcases List.eq_nil_or_concat' lines with rfl | ⟨init, last, rfl⟩
  · cases h
    exact ⟨rfl, by simp, rfl⟩
  · rw [List.dropLast_concat] at h
    rw [List.getLast?_concat, Option.toList_some]
    have hlen := h.length_eq
    have hwords : out.map wordsOf = init.map wordsOf := by
      induction h with
      | nil => rfl
      | cons hline h ih =>
          rw [List.map_cons, List.map_cons, hline.words, ih h.length_eq]
    refine ⟨by rw [List.map_append, List.map_append, hwords], ?_,
      List.getLast?_concat.trans List.getLast?_concat.symm⟩
    intro i line line' hi hi' hlast
    rw [List.length_append, List.length_singleton, Nat.add_lt_add_iff_right] at hlast
    rw [List.getElem?_append_left hlast] at hi
    rw [List.getElem?_append_left (by omega)] at hi'
    obtain ⟨hlt, rfl⟩ := List.getElem?_eq_some_iff.mp hi
    obtain ⟨hlt', rfl⟩ := List.getElem?_eq_some_iff.mp hi'
    exact (h.get hlt hlt').full

/-- With enough fuel `align.justify` returns, and its lines are justified. -/
theorem justify_ok {lines : List Bytes} (hlines : Joined lines) (width : Int) :
    ∃ n, ∀ fuel, n ≤ fuel → ∃ out, justify rnd fuel lines width = pure out ∧
      Justified lines width out := by
  obtain ⟨n, hn⟩ := justify_respaced hrnd lines width
  refine ⟨n, fun fuel hfuel => ?_⟩
  obtain ⟨out, hout, hall⟩ := hn fuel hfuel
  refine ⟨out ++ lines.getLast?.toList, hout, justified_append ?_⟩
  refine List.forall₂_iff_get.mpr ⟨hall.length_eq, fun i hi hi' => ?_⟩
  exact justifiedLine_of_joined hlines (List.dropLast_subset lines (List.get_mem _ _))
    (hall.get hi hi')

end Justify

/-- Three words, and the last line. -/
theorem justify_ok_two : ∃ n, ∀ fuel, n ≤ fuel → ∃ out,
    justify (fun _ min _ => min) fuel [[97, 32, 98, 46, 32, 99], [100]] 9 = pure out ∧
      Justified [[97, 32, 98, 46, 32, 99], [100]] 9 out := by
  refine justify_ok (fun _ _ _ h => ⟨le_refl _, h⟩) ?_ 9
  intro line hline
  have hword : ∀ ws : List Bytes, (∀ w ∈ ws, w ≠ [] ∧ SPACE ∉ w) → ∀ w ∈ ws, IsWord w :=
    fun ws h w hw => ⟨(h w hw).1, (h w hw).2⟩
  rcases List.mem_pair.mp hline with rfl | rfl
  · exact ⟨[[97], [98, 46], [99]], hword _ (by decide), rfl⟩
  · exact ⟨[[100]], hword _ (by decide), rfl⟩

end LuaAttic.Codedit.Reflow
