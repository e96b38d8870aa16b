import LuaAttic.Codedit.Normal
import LuaAttic.Codedit.WellFormed

/-!
# Normalizing keeps the text

Each pass stores all the lines, so that after the first one the lines are those of a list
of texts, joined with the line terminator of the buffer.  The passes are functions on that
list, and a second run changes nothing in it.
-/

namespace LuaAttic.Codedit

open LuaAttic.Support LuaAttic.Lua Str Tabs

/-! ## Texts and lines -/

/-- A text as a line with some lines after it. -/
def ended (term s : Bytes) (post : List Bytes) : Bytes := if post = [] then s else s ++ term

/-- Texts as lines. -/
def joined (term : Bytes) : List Bytes → List Bytes
  | [] => []
  | s :: post => ended term s post :: joined term post

variable {term s t x : Bytes} {ts post : List Bytes}

@[simp] theorem joined_eq_nil_iff : joined term ts = [] ↔ ts = [] := by
  cases ts with
  | nil => exact Iff.rfl
  | cons t ts => simp [joined]

theorem length_joined (term : Bytes) (ts : List Bytes) : (joined term ts).length = ts.length := by
  induction ts with
  | nil => rfl
  | cons t ts ih => rw [joined, List.length_cons, List.length_cons, ih]

theorem joined_concat (term : Bytes) (ts : List Bytes) (t : Bytes) :
    joined term (ts ++ [t]) = ts.map (· ++ term) ++ [t] := by
  induction ts with
  | nil => rfl
  | cons s ts ih =>
      have hne : ts ++ [t] ≠ [] := List.append_ne_nil_of_right_ne_nil ts (List.cons_ne_nil t [])
      rw [List.cons_append, joined, ih, ended, if_neg hne]
      rfl

theorem contents_ended (hs : Plain s) (hterm : IsTerminator term) (post : List Bytes) :
    contents (ended term s post) = s := by
  rw [ended]
  split_ifs
  · exact contents_plain hs
  · exact contents_body_term hs hterm

theorem map_contents_joined (hts : ∀ t ∈ ts, Plain t) (hterm : IsTerminator term) :
    (joined term ts).map contents = ts := by
  induction ts with
  | nil => rfl
  | cons t ts ih =>
      rw [joined, List.map_cons, contents_ended (hts t List.mem_cons_self) hterm,
        ih fun s hs => hts s (List.mem_cons_of_mem t hs)]

/-- Each line is a text with the lines after it. -/
theorem ended_of_suffix (h : x :: post <:+ joined term ts) :
    ∃ t ∈ ts, x = ended term t post := by
  induction ts with
  | nil => exact absurd (List.suffix_nil.mp h) (List.cons_ne_nil x post)
  | cons t ts ih =>
      rcases List.suffix_cons_iff.mp h with h | h
      · obtain ⟨rfl, rfl⟩ := List.cons.inj h
        refine ⟨t, List.mem_cons_self, ?_⟩
        simp only [ended, joined_eq_nil_iff]
      · obtain ⟨s, hs, hx⟩ := ih h
        exact ⟨s, List.mem_cons_of_mem t hs, hx⟩

/-- Text that does not end in whitespace. -/
def Trimmed (s : Bytes) : Prop := ∀ c ∈ s.getLast?, isWhite c = false

/-- Such a text is stored as it is. -/
theorem stored_eq_ended (hs : Trimmed s) (term : Bytes)
    (post : List Bytes) : Buffer.stored term s post = ended term s post := by
  have hterm : hasterm s = false := by
    rw [hasterm]
    cases hlast : s.getLast? with
    | none => rfl
    | some c =>
        have hc := hs c hlast
        simp only [isWhite, Bool.or_eq_false_iff] at hc
        exact hc.2.2
  simp only [Buffer.stored, ended, removeTerm, addTerm, hterm, Bool.false_eq_true, if_false]

theorem removeTerm_eq (s : Bytes) : removeTerm s = contents s := by
  rw [removeTerm]
  split_ifs with h
  · rfl
  · refine (List.rdropWhile_eq_self_iff.mpr ?_).symm
    intro hne hlast
    rw [hasterm, List.getLast?_eq_getLast_of_ne_nil hne] at h
    exact h hlast

theorem Trimmed.eq_nil (ht : Trimmed t) (hblank : Blank t) : t = [] := by
  cases hlast : t.getLast? with
  | none => exact List.getLast?_eq_none_iff.mp hlast
  | some c =>
      have hwhite := hblank c (List.mem_of_getLast? hlast)
      rw [ht c hlast] at hwhite
      cases hwhite

theorem trimmed_trimRight (s : Bytes) : Trimmed (trimRight s) := by
  intro c hc
  have hne : trimRight s ≠ [] := List.ne_nil_of_mem (List.mem_of_mem_getLast? hc)
  have hlast := List.rdropWhile_last_not isWhite s hne
  rw [List.getLast?_eq_getLast_of_ne_nil hne] at hc
  rw [← Option.some.inj hc]
  exact Bool.eq_false_iff.mpr hlast

/-- What both loops that make the indentation again find in a line. -/
theorem reindent_cases (ht : Trimmed t) (convert : ConvertIndent) (tabsize : Int)
    (h : 1 ≤ tabsize) :
    (indentCol t = .ok 0 ∧ reindent convert tabsize t = t) ∨
      ∃ i : Int, 0 < i ∧ indentCol t = .ok i ∧
        visualCol t i tabsize = endCol tabsize 1 (t.takeWhile isWhite) ∧
        subFrom t i = t.dropWhile isWhite ∧ Trimmed (reindent convert tabsize t) := by
  rcases blank_or_first t with hblank | ⟨w, c, d, rfl, hw, hc⟩
  · obtain rfl := ht.eq_nil hblank
    refine Or.inl ⟨rfl, ?_⟩
    rw [reindent, List.takeWhile_nil, newIndent_nil h]
    rfl
  · have htake : (w ++ c :: d).takeWhile isWhite = w := by
      rw [List.takeWhile_append_of_pos hw, List.takeWhile_cons_of_neg (by simp [hc]),
        List.append_nil]
    have hdrop : (w ++ c :: d).dropWhile isWhite = c :: d := by
      rw [List.dropWhile_append_of_pos hw, List.dropWhile_cons_of_neg (by simp [hc])]
    refine Or.inr ⟨w.length + 1, by positivity, ?_, ?_, ?_, ?_⟩
    · rw [indentCol, nextNonspaceChar_first hw hc]
      rfl
    · rw [htake, visualCol_append]
    · rw [hdrop, subFrom_append_left w (c :: d) rfl]
    · intro b hb
      apply ht b
      rw [reindent, hdrop] at hb
      rwa [List.getLast?_append_cons] at hb ⊢

/-- A line of trimmed text. -/
def TrimmedLine (term x : Bytes) (post : List Bytes) : Prop :=
  ∃ t, x = ended term t post ∧ Plain t ∧ Trimmed t

namespace Buffer

variable {b : Buffer} {pre : List Bytes} {line : Int}

theorem lineText_eq (h : b.lineAt line = some x) : lineText line b = .ok (contents x) b := by
  rw [lineText, get_bind_apply, h, ← removeTerm_eq]
  rfl

/-- A loop over all lines that stores each of them changes them all. -/
theorem yields_forFrom {body : Int → Program Buffer Unit} {f : Bytes → Bytes}
    {P : Bytes → List Bytes → Prop}
    (hbody : ∀ b pre x post, b.lineTerminator = term → b.lines = pre ++ x :: post → P x post →
      Yields (body (pre.length + 1)) b () (pre ++ ended term (f x) post :: post))
    {rest : List Bytes} (hb : b.lineTerminator = term) (hlines : b.lines = pre ++ rest)
    (hP : ∀ x post, x :: post <:+ rest → P x post) :
    Yields (forFrom body rest.length (pre.length + 1)) b () (pre ++ joined term (rest.map f)) := by
  induction rest generalizing pre b with
  | nil =>
      have hpure := Yields.pure () b
      rw [hlines] at hpure
      exact hpure
  | cons x post ih =>
      refine Yields.bind (hbody b pre x post hb hlines (hP x post List.suffix_rfl)) ?_
      intro b' hlines' hb'
      have hsplit : b'.lines = (pre ++ [ended term (f x) post]) ++ post := by
        rw [hlines', List.append_assoc, List.singleton_append]
      have hrest := ih (hb'.trans hb) hsplit fun x' post' h =>
        hP x' post' (h.trans (List.suffix_cons x post))
      have hnext : ((pre ++ [ended term (f x) post]).length : Int) + 1 =
          (pre.length : Int) + 1 + 1 := by simp
      have hjoined : (pre ++ [ended term (f x) post]) ++ joined term (post.map f) =
          pre ++ joined term ((x :: post).map f) := by
        rw [List.append_assoc, List.singleton_append, List.map_cons, joined]
        simp only [ended, List.map_eq_nil_iff]
      rwa [hnext, hjoined] at hrest

theorem yields_forLines {body : Int → Program Buffer Unit} {f : Bytes → Bytes}
    {P : Bytes → List Bytes → Prop}
    (hbody : ∀ b pre x post, b.lineTerminator = term → b.lines = pre ++ x :: post → P x post →
      Yields (body (pre.length + 1)) b () (pre ++ ended term (f x) post :: post))
    (hb : b.lineTerminator = term) (hP : ∀ x post, x :: post <:+ b.lines → P x post) :
    Yields (forLines body) b () (joined term (b.lines.map f)) :=
  Yields.get_bind (yields_forFrom hbody hb (List.nil_append _).symm hP)

/-! ## The passes over lines -/

theorem yields_removeEolSpaces (b : Buffer) :
    Yields removeEolSpaces b () (joined b.lineTerminator
      (b.lines.map fun x => trimRight (contents x))) := by
  refine yields_forLines (P := fun _ _ => True) ?_ rfl fun _ _ _ => trivial
  intro b' pre x post hterm hlines _
  refine Yields.ok_bind (lineText_eq (lineAt_split hlines)) ?_
  rw [rtrim_eq, ofExcept_ok_bind, ← hterm, ← stored_eq_ended (trimmed_trimRight (contents x))]
  exact yields_setline hlines rfl (trimRight (contents x))

/-- The loop that makes the indentation again from the visual column after it. -/
theorem yields_reindentLines {f : Int → Bytes} (convert : ConvertIndent) {tabsize : Int}
    (h : 1 ≤ tabsize) (hf : ∀ w, f (endCol tabsize 1 w) = newIndent convert tabsize w)
    (hterm : IsTerminator b.lineTerminator)
    (hb : ∀ x post, x :: post <:+ b.lines → TrimmedLine b.lineTerminator x post) :
    Yields (forLines fun line => do
      let s ← lineText line
      let indentCol ← MonadExcept.ofExcept (indentCol s)
      (if indentCol > 0 then
          setline line (f (visualCol s indentCol tabsize) ++ subFrom s indentCol)
        else pure ())) b () (joined b.lineTerminator
      (b.lines.map fun x => reindent convert tabsize (contents x))) := by
  refine yields_forLines (P := TrimmedLine b.lineTerminator) ?_ rfl hb
  intro b' pre x post hb' hlines hx
  obtain ⟨t, rfl, hplain, htrimmed⟩ := hx
  have hcontents := contents_ended hplain hterm post
  refine Yields.ok_bind (lineText_eq (lineAt_split hlines)) ?_
  rw [hcontents]
  rcases reindent_cases htrimmed convert tabsize h with
    ⟨hcol, heq⟩ | ⟨i, hpos, hcol, hvisual, hfrom, hnew⟩
  · rw [hcol, ofExcept_ok_bind, heq, ← hlines]
    exact Yields.pure () b'
  · rw [hcol, ofExcept_ok_bind, if_pos hpos, hvisual, hf, hfrom, ← hb', ← stored_eq_ended hnew]
    exact yields_setline hlines rfl _

theorem yields_convertIndentToTabs {tabsize : Int} (h : 1 ≤ tabsize)
    (hterm : IsTerminator b.lineTerminator)
    (hb : ∀ x post, x :: post <:+ b.lines → TrimmedLine b.lineTerminator x post) :
    Yields (convertIndentToTabs tabsize) b () (joined b.lineTerminator
      (b.lines.map fun x => reindent .tabs tabsize (contents x))) :=
  yields_reindentLines (f := fun vcol =>
    rep [TAB] (tabsAndSpaces 1 vcol tabsize).1 ++ rep [SPACE] (tabsAndSpaces 1 vcol tabsize).2)
    .tabs h (fun _ => rfl) hterm hb

theorem yields_convertIndentToSpaces {tabsize : Int} (h : 1 ≤ tabsize)
    (hterm : IsTerminator b.lineTerminator)
    (hb : ∀ x post, x :: post <:+ b.lines → TrimmedLine b.lineTerminator x post) :
    Yields (convertIndentToSpaces tabsize) b () (joined b.lineTerminator
      (b.lines.map fun x => reindent .spaces tabsize (contents x))) :=
  yields_reindentLines (f := fun vcol => rep [SPACE] (vcol - 1)) .spaces h (fun _ => rfl)
    hterm hb

/-- The lines after the passes over them. -/
theorem yields_normalLines (hsound : Sound b) (convert : ConvertIndent) {tabsize : Int}
    (h : 1 ≤ tabsize) :
    Yields (do
      removeEolSpaces
      match convert with
        | .tabs => convertIndentToTabs tabsize
        | .spaces => convertIndentToSpaces tabsize
        | .leave => pure ()) b ()
      (joined b.lineTerminator
        (b.lines.map fun x => normalText convert tabsize (contents x))) := by
  refine Yields.bind (yields_removeEolSpaces b) ?_
  intro b' hlines hb'
  set ts := b.lines.map fun x => trimRight (contents x)
  have hplain : ∀ t ∈ ts, Plain t := by
    intro t ht
    obtain ⟨x, hx, rfl⟩ := List.mem_map.mp ht
    apply (plain_contents (hsound.lines.atMostOne hx)).of_subset
    exact (List.rdropWhile_prefix _ _).subset
  have htrimmed : ∀ x post, x :: post <:+ b'.lines → TrimmedLine b'.lineTerminator x post := by
    intro x post hx
    rw [hlines] at hx
    obtain ⟨t, ht, rfl⟩ := ended_of_suffix hx
    refine ⟨t, by rw [hb'], hplain t ht, ?_⟩
    obtain ⟨y, -, rfl⟩ := List.mem_map.mp ht
    exact trimmed_trimRight (contents y)
  have hterm : IsTerminator b'.lineTerminator := by rw [hb']; exact hsound.lineTerminator
  have hmap (convert : ConvertIndent) :
      b'.lines.map (fun x => reindent convert tabsize (contents x)) =
        b.lines.map fun x => normalText convert tabsize (contents x) := by
    calc b'.lines.map (fun x => reindent convert tabsize (contents x))
        = (b'.lines.map contents).map (reindent convert tabsize) := by
          rw [List.map_map]
          rfl
      _ = ts.map (reindent convert tabsize) := by
          rw [hlines, map_contents_joined hplain hsound.lineTerminator]
      _ = b.lines.map fun x => normalText convert tabsize (contents x) := List.map_map
  rw [← hmap, ← hb']
  cases convert with
  | tabs => exact yields_convertIndentToTabs h hterm htrimmed
  | spaces => exact yields_convertIndentToSpaces h hterm htrimmed
  | leave =>
      have hleave : b'.lines.map (fun x => reindent .leave tabsize (contents x)) = ts := by
        rw [hmap]
        apply List.map_congr_left
        intro x _
        exact List.takeWhile_append_dropWhile
      rw [hleave, hb', ← hlines]
      exact Yields.pure () b'

/-! ## The passes over the end of the text -/

/-- The empty texts at the end are removed, but for the first text. -/
def removeTrailing : List Bytes → List Bytes
  | [] => []
  | t :: ts => t :: ts.rdropWhile List.isEmpty

theorem isempty_last (hb : b.lines = pre ++ [t]) (ht : Trimmed t) :
    isempty b.lastLine b = .ok t.isEmpty b := by
  have hlast : b.lastLine = pre.length + 1 := by
    rw [lastLine, hb, List.length_append, List.length_singleton]
    rfl
  have hget : b.lineAt b.lastLine = some t := by
    rw [hlast]
    exact lineAt_split hb
  have hnext : Str.nextNonspaceChar t 0 = .ok none ∧ t = [] ∨
      ∃ i, Str.nextNonspaceChar t 0 = .ok (some i) ∧ t ≠ [] := by
    rcases blank_or_first t with hblank | ⟨w, c, d, rfl, hw, hc⟩
    · exact Or.inl ⟨nextNonspaceChar_blank hblank, ht.eq_nil hblank⟩
    · exact Or.inr ⟨_, nextNonspaceChar_first hw hc d, by simp⟩
  rw [isempty, get_bind_apply, Buffer.nextNonspaceChar, hget]
  rcases hnext with ⟨hnext, rfl⟩ | ⟨i, hnext, hne⟩
  · simp only [hnext]
    rfl
  · simp only [hnext]
    rw [List.isEmpty_eq_false_iff.mpr hne]
    rfl

theorem removeTrailing_concat_nil (t : Bytes) (ts : List Bytes) :
    removeTrailing (t :: (ts ++ [[]])) = removeTrailing (t :: ts) := by
  rw [removeTrailing, List.rdropWhile_concat_pos _ _ _ rfl, removeTrailing]

theorem removeTrailing_concat (t : Bytes) (ts : List Bytes) {x : Bytes} (hx : x ≠ []) :
    removeTrailing (t :: (ts ++ [x])) = t :: (ts ++ [x]) := by
  rw [removeTrailing, List.rdropWhile_concat_neg _ _ _ (by simpa using hx)]

/-- An empty last line is removed. -/
theorem yields_removeLine_joined (hterm : IsTerminator b.lineTerminator)
    (hplain : ∀ s ∈ t :: ts, Plain s)
    (hb : b.lines = joined b.lineTerminator ((t :: ts) ++ [[]])) :
    Yields (removeLine b.lastLine) b () (joined b.lineTerminator (t :: ts)) := by
  obtain ⟨init, y, hy⟩ :=
    List.eq_nil_or_concat' (t :: ts) |>.resolve_left (List.cons_ne_nil t ts)
  have hlines : b.lines = init.map (· ++ b.lineTerminator) ++ [y ++ b.lineTerminator, []] := by
    rw [hb, joined_concat, hy, List.map_append, List.append_assoc]
    rfl
  have hlast : b.lastLine = (init.map (· ++ b.lineTerminator)).length + 2 := by
    rw [lastLine, hlines, List.length_append]
    rfl
  have hyplain : Plain y := hplain y (hy ▸ List.mem_append_right init List.mem_cons_self)
  have hremove := yields_removeLine_last hlines hlast
  rwa [contents_body_term hyplain hterm, ← joined_concat, ← hy] at hremove

theorem yields_removeEofLoop (hterm : IsTerminator b.lineTerminator)
    (hplain : ∀ s ∈ t :: ts, Plain s) (htrimmed : ∀ s ∈ t :: ts, Trimmed s)
    {fuel : ℕ} (hfuel : ts.length ≤ fuel)
    (hb : b.lines = joined b.lineTerminator (t :: ts)) :
    Yields (removeEofLoop fuel) b () (joined b.lineTerminator (removeTrailing (t :: ts))) := by
  induction fuel generalizing b ts with
  | zero =>
      obtain rfl := List.eq_nil_of_length_eq_zero (Nat.le_zero.mp hfuel)
      rw [removeTrailing, List.rdropWhile_nil, ← hb]
      exact Yields.pure () b
  | succ fuel ih =>
      have hlength : b.lastLine = (ts.length : Int) + 1 := by
        rw [lastLine, hb, length_joined]
        rfl
      rcases List.eq_nil_or_concat' ts with rfl | ⟨init, x, rfl⟩
      · have hlines : b.lines = [] ++ [t] := hb
        refine Yields.get_bind (Yields.ok_bind (isempty_last hlines (htrimmed t (by simp))) ?_)
        rw [if_neg (by rw [hlength]; simp), removeTrailing, List.rdropWhile_nil, ← hb]
        exact Yields.pure () b
      · have hlines := hb
        rw [← List.cons_append, joined_concat] at hlines
        refine Yields.get_bind (Yields.ok_bind (isempty_last hlines (htrimmed x (by simp))) ?_)
        by_cases hx : x = []
        · subst hx
          rw [if_pos ⟨by rw [hlength]; simp, rfl⟩, removeTrailing_concat_nil]
          have hinit (s : Bytes) (hs : s ∈ t :: init) : s ∈ t :: (init ++ [[]]) :=
            List.mem_append_left [[]] hs
          have hplain' : ∀ s ∈ t :: init, Plain s := fun s hs => hplain s (hinit s hs)
          refine Yields.bind (yields_removeLine_joined hterm hplain' hb) ?_
          intro b' hb' hterm'
          rw [← hterm']
          apply ih (hterm'.symm ▸ hterm) hplain' fun s hs => htrimmed s (hinit s hs)
          · rw [List.length_append] at hfuel
            exact Nat.le_of_succ_le_succ hfuel
          · rw [hb', hterm']
        · rw [if_neg (by simp [hx]), removeTrailing_concat t init hx, ← hb]
          exact Yields.pure () b

theorem yields_removeEofLines (hterm : IsTerminator b.lineTerminator) (hne : ts ≠ [])
    (hplain : ∀ s ∈ ts, Plain s) (htrimmed : ∀ s ∈ ts, Trimmed s)
    (hb : b.lines = joined b.lineTerminator ts) :
    Yields removeEofLines b () (joined b.lineTerminator (removeTrailing ts)) := by
  obtain ⟨t, ts, rfl⟩ := List.exists_cons_of_ne_nil hne
  refine Yields.get_bind (yields_removeEofLoop hterm hplain htrimmed ?_ hb)
  rw [hb, length_joined]
  exact Nat.le_succ ts.length

/-- An empty line is added after the last one. -/
theorem yields_insertLine_joined (hne : ts ≠ []) (hb : b.lines = joined b.lineTerminator ts) :
    Yields (insertLine (b.lastLine + 1) []) b () (joined b.lineTerminator (ts ++ [[]])) := by
  obtain ⟨init, y, rfl⟩ := List.eq_nil_or_concat' ts |>.resolve_left hne
  have hlines := hb
  rw [joined_concat] at hlines
  have hlast : b.lastLine + 1 = (init.map (· ++ b.lineTerminator)).length + 2 := by
    rw [lastLine, hlines, List.length_append]
    rfl
  have hinsert := yields_insertLine_last hlines hlast []
  rwa [joined_concat, List.map_append, List.append_assoc]

theorem yields_appendEofLines (hne : ts ≠ []) (n : ℕ)
    (hb : b.lines = joined b.lineTerminator ts) :
    Yields (appendEofLines n) b ()
      (joined b.lineTerminator (ts ++ List.replicate n [])) := by
  induction n generalizing b ts with
  | zero =>
      rw [List.replicate_zero, List.append_nil, ← hb]
      exact Yields.pure () b
  | succ n ih =>
      have hinsert := yields_insertLine_joined hne hb
      refine Yields.get_bind (Yields.bind hinsert ?_)
      intro b' hb' hterm'
      have hlines : b'.lines = joined b'.lineTerminator (ts ++ [[]]) := by rw [hb', hterm']
      have hmore := ih (List.append_ne_nil_of_left_ne_nil hne _) hlines
      rwa [List.append_assoc, hterm'] at hmore

/-- The texts after the pass over the end of them. -/
def eofTexts (eofLines : EofLines) (ts : List Bytes) : List Bytes :=
  match eofLines with
  | .leave => ts
  | .remove => removeTrailing ts
  | .ensure => if ts.getLast? = some [] then ts else ts ++ [[]]
  | .number n => removeTrailing ts ++ List.replicate n.toNat []

theorem removeTrailing_ne_nil (hne : ts ≠ []) : removeTrailing ts ≠ [] := by
  obtain ⟨t, ts, rfl⟩ := List.exists_cons_of_ne_nil hne
  exact List.cons_ne_nil t _

/-- The texts that come after are empty. -/
theorem removeTrailing_append_replicate (ts : List Bytes) (n : ℕ) (hne : ts ≠ []) :
    removeTrailing (ts ++ List.replicate n []) = removeTrailing ts := by
  obtain ⟨t, ts, rfl⟩ := List.exists_cons_of_ne_nil hne
  induction n with
  | zero => rw [List.replicate_zero, List.append_nil]
  | succ n ih =>
      rw [List.replicate_succ', ← List.append_assoc, List.cons_append, List.cons_append,
        removeTrailing_concat_nil, ← List.cons_append, ih]

theorem removeTrailing_removeTrailing (ts : List Bytes) :
    removeTrailing (removeTrailing ts) = removeTrailing ts := by
  cases ts with
  | nil => rfl
  | cons t ts => rw [removeTrailing, removeTrailing, List.rdropWhile_idempotent]

theorem eofTexts_eofTexts (eofLines : EofLines) (hne : ts ≠ []) :
    eofTexts eofLines (eofTexts eofLines ts) = eofTexts eofLines ts := by
  cases eofLines with
  | leave => rfl
  | remove => exact removeTrailing_removeTrailing ts
  | ensure =>
      by_cases hlast : ts.getLast? = some []
      · simp only [eofTexts, if_pos hlast]
      · simp only [eofTexts, if_neg hlast, List.getLast?_concat, if_true]
  | number n =>
      simp only [eofTexts]
      rw [removeTrailing_append_replicate _ _ (removeTrailing_ne_nil hne),
        removeTrailing_removeTrailing]

theorem exists_removeTrailing_append (ts : List Bytes) :
    ∃ n, ts = removeTrailing ts ++ List.replicate n [] := by
  cases ts with
  | nil => exact ⟨0, rfl⟩
  | cons t ts =>
      refine ⟨(ts.rtakeWhile List.isEmpty).length, ?_⟩
      have hempty : ts.rtakeWhile List.isEmpty =
          List.replicate (ts.rtakeWhile List.isEmpty).length [] := by
        apply List.eq_replicate_of_mem
        intro s hs
        exact List.isEmpty_iff.mp (List.mem_rtakeWhile_imp hs)
      rw [← hempty, removeTrailing, List.cons_append, List.rdropWhile_append_rtakeWhile]

/-- What is added or removed is empty. -/
theorem eofTexts_cases (eofLines : EofLines) (ts : List Bytes) :
    ∃ kept n m, ts = kept ++ List.replicate n [] ∧
      eofTexts eofLines ts = kept ++ List.replicate m [] := by
  obtain ⟨n, hn⟩ := exists_removeTrailing_append ts
  cases eofLines with
  | leave => exact ⟨ts, 0, 0, by simp, by simp [eofTexts]⟩
  | remove => exact ⟨removeTrailing ts, n, 0, hn, by simp [eofTexts]⟩
  | number k => exact ⟨removeTrailing ts, n, k.toNat, hn, rfl⟩
  | ensure =>
      by_cases hlast : ts.getLast? = some []
      · exact ⟨ts, 0, 0, by simp, by simp [eofTexts, hlast]⟩
      · exact ⟨ts, 0, 1, by simp, by simp [eofTexts, hlast]⟩

/-! ## Normalizing -/

/-- The texts of a buffer that is normalized. -/
def normalTexts (o : Normalization) (b : Buffer) : List Bytes :=
  eofTexts o.eofLines (b.lines.map fun x => normalText o.convertIndent o.tabsize (contents x))

theorem mem_eofTexts {eofLines : EofLines} (ht : t ∈ eofTexts eofLines ts) : t ∈ ts ∨ t = [] := by
  obtain ⟨kept, n, m, hts, heof⟩ := eofTexts_cases eofLines ts
  rw [heof] at ht
  rcases List.mem_append.mp ht with ht | ht
  · left
    rw [hts]
    exact List.mem_append_left _ ht
  · exact Or.inr (List.eq_of_mem_replicate ht)

variable {o : Normalization}

theorem plain_line_normalText (hsound : Sound b) (h : 1 ≤ o.tabsize) :
    ∀ t ∈ b.lines.map (fun x => normalText o.convertIndent o.tabsize (contents x)), Plain t := by
  intro t ht
  obtain ⟨x, hx, rfl⟩ := List.mem_map.mp ht
  exact plain_normalText h o.convertIndent (plain_contents (hsound.lines.atMostOne hx))

theorem trimmed_line_normalText (h : 1 ≤ o.tabsize) :
    ∀ t ∈ b.lines.map (fun x => normalText o.convertIndent o.tabsize (contents x)),
      Trimmed t := by
  intro t ht
  obtain ⟨x, -, rfl⟩ := List.mem_map.mp ht
  exact (normalText_spec h o.convertIndent (contents x)).2.2

theorem yields_normalize (hsound : Sound b) (heol : o.eolSpaces = .remove) (h : 1 ≤ o.tabsize) :
    Yields (normalize o) b () (joined b.lineTerminator (normalTexts o b)) := by
  have hne : b.lines.map (fun x => normalText o.convertIndent o.tabsize (contents x)) ≠ [] :=
    List.map_eq_nil_iff.not.mpr b.linesNonempty
  rw [normalize, heol, ← bind_assoc, normalTexts]
  refine Yields.bind (yields_normalLines hsound o.convertIndent h) ?_
  intro b' hlines hb'
  have hplain := plain_line_normalText hsound h
  have htrimmed := trimmed_line_normalText (b := b) h
  have hterm : IsTerminator b'.lineTerminator := by rw [hb']; exact hsound.lineTerminator
  rw [← hb'] at hlines ⊢
  generalize b.lines.map (fun x => normalText o.convertIndent o.tabsize (contents x)) = ts at *
  cases o.eofLines with
  | leave =>
      rw [eofTexts, ← hlines]
      exact Yields.pure () b'
  | remove => exact yields_removeEofLines hterm hne hplain htrimmed hlines
  | ensure =>
      obtain ⟨init, y, rfl⟩ := List.eq_nil_or_concat' ts |>.resolve_left hne
      have hlast := hlines
      rw [joined_concat] at hlast
      refine Yields.get_bind (Yields.ok_bind (isempty_last hlast (htrimmed y (by simp))) ?_)
      by_cases hy : y = []
      · rw [if_pos (by rw [hy]; rfl), eofTexts, if_pos (by rw [hy, List.getLast?_concat]),
          ← hlines]
        exact Yields.pure () b'
      · rw [if_neg (by simpa using hy), eofTexts, if_neg (by simpa using hy)]
        exact yields_insertLine_joined hne hlines
  | number n =>
      refine Yields.bind (yields_removeEofLines hterm hne hplain htrimmed hlines) ?_
      intro b'' hlines' hb''
      rw [← hb''] at hlines' ⊢
      exact yields_appendEofLines (removeTrailing_ne_nil hne) n.toNat hlines'

theorem normalTexts_ne_nil (o : Normalization) (b : Buffer) : normalTexts o b ≠ [] := by
  have hne : b.lines.map (fun x => normalText o.convertIndent o.tabsize (contents x)) ≠ [] :=
    List.map_eq_nil_iff.not.mpr b.linesNonempty
  rw [normalTexts]
  cases o.eofLines with
  | leave => exact hne
  | remove => exact removeTrailing_ne_nil hne
  | ensure =>
      rw [eofTexts]
      split_ifs
      · exact hne
      · exact List.append_ne_nil_of_left_ne_nil hne _
  | number n => exact List.append_ne_nil_of_left_ne_nil (removeTrailing_ne_nil hne) _

theorem plain_normalTexts (hsound : Sound b) (h : 1 ≤ o.tabsize) :
    ∀ t ∈ normalTexts o b, Plain t := by
  intro t ht
  rcases mem_eofTexts ht with ht | rfl
  · exact plain_line_normalText hsound h t ht
  · exact plain_nil

/-- Texts that are normal stay as they are. -/
theorem normalText_normalTexts (h : 1 ≤ o.tabsize) (b : Buffer) :
    (normalTexts o b).map (normalText o.convertIndent o.tabsize) = normalTexts o b := by
  conv_rhs => rw [← List.map_id (normalTexts o b)]
  apply List.map_congr_left
  intro t ht
  rcases mem_eofTexts ht with ht | rfl
  · obtain ⟨x, -, rfl⟩ := List.mem_map.mp ht
    exact normalText_normalText h o.convertIndent (contents x)
  · exact normalText_blank h o.convertIndent blank_nil

/-- The text of a line without its terminator; there is none outside the lines. -/
def contentsAt (b : Buffer) (line : Int) : Bytes := ((b.lineAt line).map contents).getD []

theorem map_tableGet {α β : Type} (f : α → β) (l : List α) (i : Int) :
    (tableGet l i).map f = tableGet (l.map f) i := by
  simp only [tableGet]
  split_ifs
  · rw [List.getElem?_map]
  · rfl

theorem getD_tableGet_append (ts : List Bytes) (n : ℕ) (i : Int) :
    (tableGet (ts ++ List.replicate n []) i).getD [] = (tableGet ts i).getD [] := by
  simp only [tableGet]
  split_ifs
  · rw [List.getElem?_append]
    split_ifs with hlt
    · rfl
    · rw [List.getElem?_replicate, List.getElem?_eq_none (not_lt.mp hlt)]
      split_ifs
      · rfl
      · rfl
  · rfl

section Normalized

variable {b' : Buffer}

theorem normalTexts_normalized (hsound : Sound b) (h : 1 ≤ o.tabsize)
    (hlines : b'.lines = joined b.lineTerminator (normalTexts o b)) :
    normalTexts o b' = normalTexts o b := by
  have hmap : b'.lines.map (fun x => normalText o.convertIndent o.tabsize (contents x)) =
      normalTexts o b := by
    calc b'.lines.map (fun x => normalText o.convertIndent o.tabsize (contents x))
        = (b'.lines.map contents).map (normalText o.convertIndent o.tabsize) := by
          rw [List.map_map]
          rfl
      _ = normalTexts o b := by
          rw [hlines, map_contents_joined (plain_normalTexts hsound h) hsound.lineTerminator,
            normalText_normalTexts h]
  rw [normalTexts, hmap]
  exact eofTexts_eofTexts o.eofLines (List.map_eq_nil_iff.not.mpr b.linesNonempty)

theorem contentsAt_normalized (hsound : Sound b) (h : 1 ≤ o.tabsize)
    (hlines : b'.lines = joined b.lineTerminator (normalTexts o b)) (line : Int) :
    b'.contentsAt line = normalText o.convertIndent o.tabsize (b.contentsAt line) := by
  obtain ⟨kept, n, m, hkept, heof⟩ := eofTexts_cases o.eofLines
    (b.lines.map fun x => normalText o.convertIndent o.tabsize (contents x))
  have hafter : b'.contentsAt line = (tableGet kept line).getD [] := by
    rw [contentsAt, lineAt, map_tableGet, hlines,
      map_contents_joined (plain_normalTexts hsound h) hsound.lineTerminator, normalTexts, heof,
      getD_tableGet_append]
  have hbefore := getD_tableGet_append kept n line
  rw [← hkept, ← map_tableGet] at hbefore
  rw [hafter, ← hbefore, contentsAt, lineAt]
  cases tableGet b.lines line with
  | none => exact (normalText_blank h o.convertIndent blank_nil).symm
  | some x => rfl

theorem sound_normalized (hsound : Sound b) (h : 1 ≤ o.tabsize)
    (hlines : b'.lines = joined b.lineTerminator (normalTexts o b))
    (hterm : b'.lineTerminator = b.lineTerminator) : Sound b' where
  lineTerminator := hterm ▸ hsound.lineTerminator
  lines := by
    obtain ⟨init, t, ht⟩ :=
      List.eq_nil_or_concat' (normalTexts o b) |>.resolve_left (normalTexts_ne_nil o b)
    have hplain := plain_normalTexts hsound h
    rw [ht] at hplain
    rw [hlines, ht, joined_concat]
    refine ⟨_, t, rfl, ?_, hplain t (by simp)⟩
    intro x hx
    obtain ⟨s, hs, rfl⟩ := List.mem_map.mp hx
    exact ⟨s, _, rfl, hplain s (List.mem_append_left _ hs), hsound.lineTerminator⟩

end Normalized

/-- Normalizing keeps the text of each line and its visual column, leaves no whitespace at
the end of a line, and does nothing the second time. -/
theorem normalize_text (o : Normalization) (heol : o.eolSpaces = .remove) (h : 1 ≤ o.tabsize)
    (b : Buffer) (hsound : Sound b) :
    ∃ b', normalize o b = .ok () b' ∧
      (∀ line : Int, trim (b'.contentsAt line) = trim (b.contentsAt line) ∧
        firstVisualCol o.tabsize (b'.contentsAt line) =
          firstVisualCol o.tabsize (b.contentsAt line) ∧
        ∀ c ∈ (b'.contentsAt line).getLast?, isWhite c = false) ∧
      (o.eofLines = .leave → b'.lines.length = b.lines.length) ∧
      ∃ b'', normalize o b' = .ok () b'' ∧ b''.lines = b'.lines := by
  obtain ⟨b', hok, hlines, hterm⟩ := yields_normalize hsound heol h
  have hsound' := sound_normalized hsound h hlines hterm
  obtain ⟨b'', hok', hlines', -⟩ := yields_normalize hsound' heol h
  refine ⟨b', hok, ?_, ?_, b'', hok', ?_⟩
  · intro line
    rw [contentsAt_normalized hsound h hlines]
    exact normalText_spec h o.convertIndent (b.contentsAt line)
  · intro hleave
    rw [hlines, length_joined, normalTexts, hleave, eofTexts, List.length_map]
  · rw [hlines', hterm, normalTexts_normalized hsound h hlines, ← hlines]

theorem normalize_text_sample :
    ∃ b', normalize { eofLines := .number 1, convertIndent := .spaces, tabsize := 4 }
        ((Buffer.new [LF]).loadString
          [SPACE, TAB, 97, SPACE, 98, TAB, CR, LF, SPACE, LF, TAB, 99, LF]) = .ok () b' ∧
      trim (b'.contentsAt 1) = [97, SPACE, 98] ∧ firstVisualCol 4 (b'.contentsAt 3) = some 5 := by
  obtain ⟨b', hok, htext, -⟩ := normalize_text
    { eofLines := .number 1, convertIndent := .spaces, tabsize := 4 } rfl (by decide) _
    (sound_loadString [SPACE, TAB, 97, SPACE, 98, TAB, CR, LF, SPACE, LF, TAB, 99, LF]
      (b := Buffer.new [LF]) (Or.inl rfl))
  exact ⟨b', hok, (htext 1).1.trans (by decide), (htext 3).2.1.trans (by decide)⟩

end Buffer

end LuaAttic.Codedit
