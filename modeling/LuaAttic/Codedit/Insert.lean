import LuaAttic.Codedit.WellFormed

/-!
# Inserting a multi-line string

`insert` joins the contents of a line with the new string, cuts the result
into pieces and stores these one by one.  The contents do not include the
terminator of the line, so the last piece gets the terminator of the buffer in
its place; and at the end of the text each piece loses its own terminator and
gets that of the buffer.
-/

namespace LuaAttic.Codedit

open LuaAttic.Support LuaAttic.Lua Str

/-! ## Strings with their terminators replaced -/

/-- The string with each of its terminators replaced by another one. -/
def reterminate (term s : Bytes) : Bytes :=
  ((lineStrings s).dropLast.map fun l => contents l ++ term).flatten ++
    (lineStrings s).getLast (lineStrings_ne_nil s)

/-- Each terminator of the string is the given one. -/
def AllTerminated (term s : Bytes) : Prop :=
  ∀ l ∈ (lineStrings s).dropLast, lineTerm l = term

instance (term s : Bytes) : Decidable (AllTerminated term s) :=
  inferInstanceAs (Decidable (∀ _ ∈ _, _))

theorem reterminate_of_split {s last : Bytes} {init : List Bytes}
    (h : lineStrings s = init ++ [last]) (term : Bytes) :
    reterminate term s =
      (init.map fun l => contents l ++ term).flatten ++ last := by
  simp [reterminate, h]

theorem reterminate_plain {s : Bytes} (h : Plain s) (term : Bytes) :
    reterminate term s = s := by
  simp [reterminate, lineStrings_plain h]

theorem reterminate_line {body t : Bytes} (rest : Bytes) (hbody : Plain body)
    (ht : IsTerminator t) (hcr : t = [CR] → rest.head? ≠ some LF)
    (term : Bytes) :
    reterminate term (body ++ t ++ rest) =
      body ++ term ++ reterminate term rest := by
  obtain ⟨init, last, hsplit⟩ := List.eq_nil_or_concat' (lineStrings rest)
    |>.resolve_left (lineStrings_ne_nil rest)
  have hline := lineStrings_line rest hbody ht hcr
  rw [hsplit, ← List.cons_append] at hline
  rw [reterminate_of_split hline, reterminate_of_split hsplit]
  simp [contents_body_term hbody ht]

/-- Terminators around which nothing else changes. -/
theorem reterminate_append {s1 s2 : Bytes} (h1 : Plain s1) (h2 : Plain s2)
    (term s : Bytes) :
    reterminate term (s1 ++ s ++ s2) = s1 ++ reterminate term s ++ s2 := by
  induction s using lineInduction generalizing s1 with
  | plain s hs =>
      rw [reterminate_plain hs, reterminate_plain]
      simp only [plain_append]
      exact ⟨⟨h1, hs⟩, h2⟩
  | line body t rest hbody ht hcr ih =>
      have hcr' : t = [CR] → (rest ++ s2).head? ≠ some LF :=
        fun heq => head?_append_plain h2 (hcr heq)
      have hjoin : s1 ++ (body ++ t ++ rest) ++ s2 =
          (s1 ++ body) ++ t ++ (rest ++ s2) := by simp
      have hrest := ih plain_nil
      rw [List.nil_append, List.nil_append] at hrest
      rw [hjoin, reterminate_line _ (plain_append.mpr ⟨h1, hbody⟩) ht hcr',
        reterminate_line rest hbody ht hcr, hrest]
      simp

theorem allTerminated_line {body t : Bytes} (rest : Bytes) (hbody : Plain body)
    (ht : IsTerminator t) (hcr : t = [CR] → rest.head? ≠ some LF)
    (term : Bytes) :
    AllTerminated term (body ++ t ++ rest) ↔
      t = term ∧ AllTerminated term rest := by
  unfold AllTerminated
  rw [lineStrings_line rest hbody ht hcr,
    List.dropLast_cons_of_ne_nil (lineStrings_ne_nil rest)]
  simp [lineTerm_body_term hbody ht]

theorem IsTerminator.length {t : Bytes} (h : IsTerminator t) :
    1 ≤ t.length ∧ t.length ≤ 2 := by
  rcases h with rfl | rfl | rfl <;> decide

/-- Short terminators do not make a string longer, long ones not shorter. -/
theorem length_reterminate (term s : Bytes) :
    (term.length ≤ 1 → (reterminate term s).length ≤ s.length) ∧
      (2 ≤ term.length → s.length ≤ (reterminate term s).length) := by
  induction s using lineInduction with
  | plain s h => simp [reterminate_plain h]
  | line body t rest hbody ht hcr ih =>
      have hlen := ht.length
      rw [reterminate_line rest hbody ht hcr]
      simp only [List.length_append]
      omega

/-- Replacing the terminators gives back the string only if there is nothing
to replace. -/
theorem reterminate_eq_self_iff (term s : Bytes) :
    reterminate term s = s ↔ AllTerminated term s := by
  induction s using lineInduction with
  | plain s h => simp [reterminate_plain h, AllTerminated, lineStrings_plain h]
  | line body t rest hbody ht hcr ih =>
      rw [reterminate_line rest hbody ht hcr,
        allTerminated_line rest hbody ht hcr, ← ih, List.append_assoc,
        List.append_assoc, List.append_cancel_left_eq]
      constructor
      · intro h
        have hlen := congrArg List.length h
        have hbounds := length_reterminate term rest
        have hterm := ht.length
        simp only [List.length_append] at hlen
        have hsame : term.length = t.length := by omega
        obtain ⟨h1, h2⟩ := List.append_inj h hsame
        exact ⟨h1.symm, h2⟩
      · rintro ⟨rfl, h⟩
        rw [h]

namespace Buffer

/-! ## Storing the pieces -/

/-- The lines that the last line and the pieces after it become. -/
def appended (term : Bytes) : Bytes → List Bytes → List Bytes
  | x, [] => [x]
  | x, s :: rest => (x ++ term) :: appended term (removeTerm s) rest

/-- The lines that the pieces become in the place of a line. -/
def storedPieces (term first : Bytes) (rest post : List Bytes) : List Bytes :=
  if post = [] then appended term (removeTerm first) rest
  else (first :: rest).map fun s => addTerm s term

variable {b : Buffer} {line : Int} {pre post : List Bytes} {x : Bytes}

/-- Before other lines each piece keeps its terminator, or gets one. -/
theorem yields_insertLines (h : b.lines = pre ++ post) (hpost : post ≠ [])
    (hline : line = pre.length) (rest : List Bytes) :
    Yields (insertLines line rest) b (line + rest.length)
      (pre ++ (rest.map fun s => addTerm s b.lineTerminator) ++ post) := by
  induction rest generalizing b line pre with
  | nil =>
      have hpure := Yields.pure line b
      rw [h] at hpure
      simpa [insertLines] using hpure
  | cons s rest ih =>
      refine Yields.bind (yields_insertLine h hpost (by omega) s) ?_
      intro b' hlines hterm
      have hsplit : b'.lines = pre ++ [addTerm s b.lineTerminator] ++ post := by
        simp [hlines]
      have hnext : line + 1 =
          ((pre ++ [addTerm s b.lineTerminator]).length : Int) := by
        simp [hline]
      have hrest := ih hsplit hnext
      have hvalue : line + 1 + rest.length = line + (s :: rest).length := by
        rw [List.length_cons]
        push_cast
        ring
      rw [hterm, hvalue] at hrest
      simpa using hrest

/-- After the last line the pieces lose their terminators, and each line gets
that of the buffer when the next one is appended. -/
theorem yields_insertLines_last (h : b.lines = pre ++ [x])
    (hline : line = pre.length + 1) (rest : List Bytes) :
    Yields (insertLines line rest) b (line + rest.length)
      (pre ++ appended b.lineTerminator x rest) := by
  induction rest generalizing b line pre x with
  | nil =>
      have hpure := Yields.pure line b
      rw [h] at hpure
      simpa [insertLines, appended] using hpure
  | cons s rest ih =>
      refine Yields.bind (yields_insertLine_last h (by omega) s) ?_
      intro b' hlines hterm
      have hsplit : b'.lines =
          pre ++ [x ++ b.lineTerminator] ++ [removeTerm s] := by
        simp [hlines]
      have hnext : line + 1 =
          ((pre ++ [x ++ b.lineTerminator]).length : Int) + 1 := by
        simp [hline]
      have hrest := ih hsplit hnext
      have hvalue : line + 1 + rest.length = line + (s :: rest).length := by
        rw [List.length_cons]
        push_cast
        ring
      rw [hterm, hvalue] at hrest
      simpa [appended] using hrest

theorem yields_setLines (h : b.lines = pre ++ x :: post)
    (hline : line = pre.length + 1) (first : Bytes) (rest : List Bytes) :
    Yields (setLines line (first :: rest)) b (line + rest.length)
      (pre ++ storedPieces b.lineTerminator first rest post ++ post) := by
  refine Yields.bind (yields_setline h hline first) ?_
  intro b' hlines hterm
  by_cases hpost : post = []
  · subst hpost
    have hrest := yields_insertLines_last hlines hline rest
    rw [hterm] at hrest
    simpa [stored, storedPieces] using hrest
  · have hsplit : b'.lines =
        pre ++ [stored b.lineTerminator first post] ++ post := by
      simp [hlines]
    have hrest := yields_insertLines hsplit hpost
      (hline.trans (by simp)) rest
    rw [hterm] at hrest
    simpa [stored, storedPieces, hpost] using hrest

theorem appended_eq {init : List Bytes} {x last : Bytes} (term : Bytes)
    (hinit : ∀ l ∈ init, TerminatedLine l) (hlast : Plain last) :
    appended term x (init ++ [last]) =
      (x ++ term) :: (init.map fun l => contents l ++ term) ++ [last] := by
  induction init generalizing x with
  | nil => simp [appended, removeTerm_plain hlast]
  | cons l init ih =>
      obtain ⟨body, t, rfl, hbody, ht⟩ := hinit l List.mem_cons_self
      have hrest := ih (x := body) fun l hl => hinit l (List.mem_cons_of_mem _ hl)
      simp [appended, removeTerm_body_term hbody ht,
        contents_body_term hbody ht, hrest]

/-- The stored pieces: at the end of the text the lines of the string with
their terminators replaced, before other lines the lines of the string with a
terminator after the last one. -/
theorem storedPieces_eq {s first last : Bytes} {rest init : List Bytes}
    (h : lineStrings s = first :: rest) (hsplit : lineStrings s = init ++ [last])
    (term : Bytes) (post : List Bytes) :
    storedPieces term first rest post =
      if post = [] then (init.map fun l => contents l ++ term) ++ [last]
      else init ++ [last ++ term] := by
  have hwf := wellFormed_lineStrings s
  rw [hsplit, wellFormed_append (List.cons_ne_nil _ _), wellFormed_singleton]
    at hwf
  obtain ⟨hinit, hlast⟩ := hwf
  rw [h] at hsplit
  by_cases hpost : post = []
  · rw [storedPieces, if_pos hpost, if_pos hpost]
    cases init with
    | nil =>
        obtain ⟨rfl, rfl⟩ := List.cons.inj hsplit
        simp [appended, removeTerm_plain hlast]
    | cons l init =>
        simp only [List.cons_append, List.cons.injEq] at hsplit
        obtain ⟨rfl, rfl⟩ := hsplit
        obtain ⟨body, t, rfl, hbody, ht⟩ := hinit first List.mem_cons_self
        rw [appended_eq term
          (fun l hl => hinit l (List.mem_cons_of_mem _ hl)) hlast]
        simp [removeTerm_body_term hbody ht, contents_body_term hbody ht]
  · have hkeep : init.map (fun l => addTerm l term) = init.map id :=
      List.map_congr_left fun l hl => addTerm_terminated (hinit l hl) term
    rw [storedPieces, if_neg hpost, if_neg hpost, hsplit, List.map_append,
      hkeep, List.map_id, List.map_singleton, addTerm_plain hlast]

/-- The text of the stored pieces. -/
theorem flatten_storedPieces {s first : Bytes} {rest : List Bytes}
    (h : lineStrings s = first :: rest) (term : Bytes) (post : List Bytes) :
    (storedPieces term first rest post).flatten =
      if post = [] then reterminate term s else s ++ term := by
  obtain ⟨init, last, hsplit⟩ := List.eq_nil_or_concat' (lineStrings s)
    |>.resolve_left (lineStrings_ne_nil s)
  have htext := flatten_lineStrings s
  rw [storedPieces_eq h hsplit, reterminate_of_split hsplit]
  rw [hsplit] at htext
  by_cases hpost : post = []
  · simp [hpost]
  · simp [hpost, ← htext]

/-! ## `insert` at a position of the text -/

theorem extend_of_validPos {i : Int} (hpos : ValidPos b line i) :
    extend line i b = .ok () b := by
  obtain ⟨s, hs, hi, hle⟩ := validPos_iff.mp hpos
  have hrange := range_of_lineAt hs
  have hfuel : (line - b.lines.length).toNat = 0 := by omega
  rw [extend, get_bind_apply, if_neg (by omega), hfuel]
  simp only [appendLines, pure_bind, get_bind_apply]
  rw [eol_of_lineAt hs, if_neg (by omega)]
  simp only
  rw [if_neg (by omega), pure_apply]

/-- The text before a position. -/
def textBefore (b : Buffer) (line i : Int) : Bytes :=
  (b.lines.take (line - 1).toNat).flatten ++ sub (b.textAt line) 1 (i - 1)

/-- The text from a position on. -/
def textFrom (b : Buffer) (line i : Int) : Bytes :=
  subFrom (b.textAt line) i ++ (b.lines.drop line.toNat).flatten

/-- A position of a line around which the buffer and the line split. -/
theorem ValidPos.exists_split {b : Buffer} {line i : Int}
    (hpos : ValidPos b line i) :
    ∃ pre x post s1 s2, b.lines = pre ++ x :: post ∧ line = pre.length + 1 ∧
      contents x = s1 ++ s2 ∧ i = s1.length + 1 := by
  obtain ⟨x, hx, hi, hle⟩ := validPos_iff.mp hpos
  obtain ⟨pre, post, hsplit, hline⟩ := tableGet_eq_some_iff.mp hx
  refine ⟨pre, x, post, (contents x).take (i - 1).toNat,
    (contents x).drop (i - 1).toNat, hsplit, hline,
    (List.take_append_drop _ _).symm, ?_⟩
  have hlen : termChar x = (contents x).length + 1 := rfl
  rw [List.length_take]
  omega

section Split

variable {i : Int} {s1 s2 : Bytes}

theorem text_of_split (h : b.lines = pre ++ x :: post)
    (hline : line = pre.length + 1) (hx : contents x = s1 ++ s2)
    (hi : i = s1.length + 1) :
    b.textBefore line i = pre.flatten ++ s1 ∧
      b.textFrom line i = s2 ++ lineTerm x ++ post.flatten := by
  have htext : b.textAt line = s1 ++ (s2 ++ lineTerm x) := by
    rw [hline, textAt_of_lineAt (lineAt_split h), ← List.append_assoc, ← hx,
      contents_append_lineTerm]
  have hbefore : (line - 1).toNat = pre.length := by omega
  have hafter : line.toNat = (pre ++ [x]).length := by
    rw [List.length_append, List.length_singleton]
    omega
  constructor
  · rw [textBefore, htext, sub_append_left s1 _ hi, hbefore, h, List.take_left]
  · have hsplit : b.lines = (pre ++ [x]) ++ post := by simp [h]
    rw [textFrom, htext, subFrom_append_left s1 _ hi, hafter, hsplit, List.drop_left]

/-- `insert` splits the contents of the line and stores the pieces of the
joined string; it returns the position before the part that followed. -/
theorem yields_insert (h : b.lines = pre ++ x :: post)
    (hline : line = pre.length + 1) (hx : contents x = s1 ++ s2)
    (hi : i = s1.length + 1) (hpos : ValidPos b line i) {s first : Bytes}
    {rest : List Bytes} (hpieces : lineStrings (s1 ++ s ++ s2) = first :: rest) :
    ∃ y, tableGet
        (pre ++ storedPieces b.lineTerminator first rest post ++ post)
        (line + rest.length) = some y ∧
      Yields (insert line i s) b (line + rest.length, termChar y - s2.length)
        (pre ++ storedPieces b.lineTerminator first rest post ++ post) := by
  obtain ⟨init, last, hsplit⟩ :=
    List.eq_nil_or_concat' (lineStrings (s1 ++ s ++ s2))
      |>.resolve_left (lineStrings_ne_nil _)
  have hlen : init.length = rest.length := by
    have hcount := congrArg List.length (hpieces.symm.trans hsplit)
    simp only [List.length_cons, List.length_append, List.length_nil] at hcount
    omega
  -- the line of the last piece
  have hlast : ∃ init' y, storedPieces b.lineTerminator first rest post =
      init' ++ [y] ∧ init'.length = rest.length := by
    rw [storedPieces_eq hpieces hsplit]
    by_cases hpost : post = []
    · rw [if_pos hpost]
      exact ⟨_, last, rfl, by simpa using hlen⟩
    · rw [if_neg hpost]
      exact ⟨init, _, rfl, hlen⟩
  obtain ⟨init', y, hstored, hlen'⟩ := hlast
  have hget : tableGet
      (pre ++ storedPieces b.lineTerminator first rest post ++ post)
      (line + rest.length) = some y := by
    have hnumber : line + rest.length = ((pre ++ init').length : Int) + 1 := by
      rw [List.length_append]
      omega
    have hlines : pre ++ storedPieces b.lineTerminator first rest post ++ post =
        (pre ++ init') ++ y :: post := by simp [hstored]
    rw [hnumber, hlines, tableGet_split]
  refine ⟨y, hget, ?_⟩
  have hlineAt : b.lineAt line = some x := hline ▸ lineAt_split h
  have hs0 : b.selectLine line = s1 ++ s2 := by
    rw [selectLine_of_lineAt hlineAt, hx]
  have hs1 : sub (s1 ++ s2) 1 (i - 1) = s1 := sub_append_left s1 s2 hi
  have hs2 : subFrom (s1 ++ s2) i = s2 := subFrom_append_left s1 s2 hi
  refine Yields.ok_bind (extend_of_validPos hpos) (Yields.get_bind ?_)
  simp only [hs0, hs1, hs2, hpieces]
  refine Yields.bind (yields_setLines h hline first rest) ?_
  intro b' hlines _
  have hfinal : b'.lineAt (line + rest.length) = some y := by
    rw [lineAt, hlines, hget]
  refine Yields.get_bind ?_
  rw [eol_of_lineAt hfinal, ← hlines]
  exact Yields.pure _ b'

/-- What `insert` puts between the text before and the text after: at the end
of the text, the string with its terminators replaced. -/
def insertedText (b : Buffer) (line : Int) (s : Bytes) : Bytes :=
  if line = b.lines.length then reterminate b.lineTerminator s else s

/-- The whole text after an `insert`. -/
theorem flatten_insert (hb : WellFormed b.lines)
    (h : b.lines = pre ++ x :: post) (hline : line = pre.length + 1)
    (hx : contents x = s1 ++ s2) (hi : i = s1.length + 1)
    (hpos : ValidPos b line i) (s : Bytes) :
    Returns (insert line i s) b ∧
      (finalState (insert line i s) b).lines.flatten =
        pre.flatten ++ s1 ++
          (if post = [] then reterminate b.lineTerminator s ++ s2
            else s ++ s2 ++ b.lineTerminator ++ post.flatten) := by
  have hplain : Plain (s1 ++ s2) := by
    rw [← hx]
    exact plain_contents (hb.atMostOne (h ▸ List.mem_append_right _
      List.mem_cons_self))
  rw [plain_append] at hplain
  obtain ⟨first, rest, hpieces⟩ := List.exists_cons_of_ne_nil
    (lineStrings_ne_nil (s1 ++ s ++ s2))
  obtain ⟨y, -, hyields⟩ := yields_insert h hline hx hi hpos hpieces
  refine ⟨hyields.returns, ?_⟩
  rw [hyields.lines, List.flatten_append, List.flatten_append,
    flatten_storedPieces hpieces, reterminate_append hplain.1 hplain.2]
  by_cases hpost : post = []
  · simp [hpost]
  · simp [hpost]

end Split

/-- An insertion at a position of a well-formed text leaves the text around
the position unchanged exactly when the line is the last one or has the
terminator of the buffer; and the string itself is stored unchanged when, in
the last line, its terminators are that of the buffer as well. -/
theorem insert_unchanged_iff {b : Buffer} (hb : WellFormed b.lines)
    {line i : Int} (hpos : ValidPos b line i) (s : Bytes) :
    Returns (insert line i s) b ∧
    ((finalState (insert line i s) b).lines.flatten =
        b.textBefore line i ++ b.insertedText line s ++ b.textFrom line i ↔
      line = b.lines.length ∨
        lineTerm (b.textAt line) = b.lineTerminator) ∧
    ((finalState (insert line i s) b).lines.flatten =
        b.textBefore line i ++ s ++ b.textFrom line i ↔
      if line = b.lines.length then AllTerminated b.lineTerminator s
      else lineTerm (b.textAt line) = b.lineTerminator) := by
  obtain ⟨pre, x, post, s1, s2, h, hline, hx, hi⟩ := ValidPos.exists_split hpos
  obtain ⟨hbefore, hfrom⟩ := text_of_split h hline hx hi
  obtain ⟨hreturns, hflatten⟩ := flatten_insert hb h hline hx hi hpos s
  have hlast : line = b.lines.length ↔ post = [] := by
    rw [h, hline, List.length_append, List.length_cons, ← List.length_eq_zero_iff]
    omega
  have htext : b.textAt line = x :=
    textAt_of_lineAt (hline ▸ lineAt_split h)
  refine ⟨hreturns, ?_⟩
  rw [hflatten, hbefore, hfrom, htext]
  by_cases hpost : post = []
  · -- the last line has no terminator
    subst hpost
    have hxplain : lineTerm x = [] := by
      have hlines : WellFormed [x] := by
        rw [h, wellFormed_append (List.cons_ne_nil _ _)] at hb
        exact hb.2
      rw [lineTerm, contents_plain (wellFormed_singleton.mp hlines),
        List.drop_length]
    simp [insertedText, hlast, hxplain, reterminate_eq_self_iff]
  · have heq : ∀ u : Bytes, s2 ++ (b.lineTerminator ++ u) = s2 ++ (lineTerm x ++ u) ↔
        lineTerm x = b.lineTerminator := by
      intro u
      rw [List.append_cancel_left_eq, List.append_cancel_right_eq]
      exact eq_comm
    simp [insertedText, hlast, hpost, heq]

/-- An insertion of two lines in a line of its own terminator. -/
theorem insert_unchanged_iff_mixed :
    let b := (new [LF]).loadString [97, LF, 98, 98, CR, 99]
    Returns (insert 2 2 [120, CR, LF]) b ∧
    ((finalState (insert 2 2 [120, CR, LF]) b).lines.flatten =
        b.textBefore 2 2 ++ b.insertedText 2 [120, CR, LF] ++ b.textFrom 2 2 ↔
      (2 : Int) = b.lines.length ∨
        lineTerm (b.textAt 2) = b.lineTerminator) ∧
    ((finalState (insert 2 2 [120, CR, LF]) b).lines.flatten =
        b.textBefore 2 2 ++ [120, CR, LF] ++ b.textFrom 2 2 ↔
      if (2 : Int) = b.lines.length
      then AllTerminated b.lineTerminator [120, CR, LF]
      else lineTerm (b.textAt 2) = b.lineTerminator) :=
  insert_unchanged_iff
    (sound_loadString [97, LF, 98, 98, CR, 99] (Or.inl rfl)).lines
    (validPos_iff.mpr ⟨[98, 98, CR], by decide, by decide, by decide⟩) _

/-- A character typed in a line that ends in `\r\n` turns its terminator into
`\n`. -/
theorem insert_changes_terminator :
    let b := (new [LF]).loadString [97, CR, LF, 98]
    ValidPos b 1 2 ∧ WellFormed b.lines ∧
      (finalState (insert 1 2 [120]) b).lines = [[97, 120, LF], [98]] ∧
      (finalState (insert 1 2 [120]) b).lines.flatten ≠
        b.textBefore 1 2 ++ [120] ++ b.textFrom 1 2 :=
  ⟨validPos_iff.mpr ⟨[97, CR, LF], by decide, by decide, by decide⟩,
    (sound_loadString [97, CR, LF, 98] (Or.inl rfl)).lines,
    by decide, by decide⟩

end Buffer

/-!
## Edits in the text raise nothing

At a position of a well-formed text the edits that the editor makes return and
leave a well-formed text.  A removal leaves its start a position of the text.
-/

theorem Yields.ends {α : Type} {m : Program Buffer α} {b : Buffer} {a : α}
    {t : List Bytes} {raised : Buffer → Prop} (h : Yields m b a t) :
    Ends m b (fun a' b' => a = a' ∧ t = b'.lines) raised := by
  obtain ⟨b', hok, hlines, -⟩ := h
  exact Ends.of_ok hok ⟨rfl, hlines.symm⟩

/-- A method that returns and keeps the text well formed leaves it so. -/
theorem ends_sound {α : Type} {m : Program Buffer α} {b : Buffer}
    {ok : α → Buffer → Prop} (h : Ends m b ok fun _ => False)
    (hkeeps : Relates (Preserves Sound) m b) (hb : Sound b) :
    Ends m b (fun a t => ok a t ∧ Sound t) fun _ => False := by
  obtain ⟨a, t, hok, ht⟩ := h.exists_ok
  exact Ends.of_ok hok ⟨ht, hkeeps.of_ok hok hb⟩

namespace Buffer

variable {b : Buffer} {line : Int}

/-- The line is replaced, and no line is added or removed. -/
theorem ends_setline (h : 1 ≤ line ∧ line ≤ b.lines.length) (s : Bytes) :
    Ends (setline line s) b (fun _ t =>
      t.lines.length = b.lines.length ∧
        (t.lineAt line = some (removeTerm s) ∨
          t.lineAt line = some (addTerm s b.lineTerminator)))
      fun _ => False := by
  obtain ⟨pre, x, post, hsplit, hline⟩ := exists_split_of_range h
  refine (yields_setline hsplit hline s).ends.mono ?_ fun _ => id
  rintro _ t ⟨-, hlines⟩
  refine ⟨by simp [← hlines, hsplit], ?_⟩
  rw [hline, lineAt_split hlines.symm, stored]
  split_ifs
  · exact Or.inl rfl
  · exact Or.inr rfl

/-- Removing lines from below leaves the lines above. -/
theorem ends_removeLines {n : ℕ} (h : 1 ≤ line ∧ line + n ≤ b.lines.length) :
    Ends (removeLines line n) b (fun _ t =>
      t.lines.length + n = b.lines.length) fun _ => False := by
  induction n generalizing b with
  | zero => exact Ends.pure rfl
  | succ n ih =>
      have hrange : 2 ≤ line + (n + 1) ∧ line + (n + 1) ≤ b.lines.length := by
        push_cast at h
        omega
      have hremove : Ends (removeLine (line + (n + 1))) b (fun _ t =>
          t.lines.length + 1 = b.lines.length) fun _ => False := by
        rcases removeLine_cases hrange with
          ⟨pre, x, post, hsplit, -, hyields⟩ | ⟨pre, y, x, hsplit, hyields⟩
        · refine hyields.ends.mono ?_ fun _ => id
          rintro _ t ⟨-, hlines⟩
          simp only [← hlines, hsplit, List.length_append, List.length_cons]
          omega
        · refine hyields.ends.mono ?_ fun _ => id
          rintro _ t ⟨-, hlines⟩
          simp only [← hlines, hsplit, List.length_append, List.length_cons,
            List.length_nil]
      refine Ends.bind hremove fun _ t ht => ?_
      refine (ih (by omega)).mono ?_ fun _ => id
      intro _ u hu
      omega

/-- A removal leaves a text that still has the position where it starts. -/
theorem ends_remove {i : Int} (hb : Sound b) (hpos : ValidPos b line i)
    (line2 i2 : Int) :
    Ends (remove line i line2 i2) b (fun _ t => ValidPos t line i ∧ Sound t)
      fun _ => False := by
  refine ends_sound ?_ (keeps_remove line i line2 i2 b) hb
  obtain ⟨x, hx, hi, hle⟩ := validPos_iff.mp hpos
  obtain ⟨-, hlast, -⟩ := validPos_clampPos b line2 (some i2)
  have hrange := range_of_lineAt hx
  refine Ends.get_bind ?_
  simp only [clampPos_of_validPos hpos, textAt_of_lineAt hx]
  refine Ends.bind (ends_removeLines (by omega)) fun _ t ht => ?_
  refine (ends_setline (by omega) _).mono ?_ fun _ => id
  rintro _ u ⟨-, hline⟩
  -- what is before the start stays
  have hplain : Plain (sub x 1 (i - 1)) :=
    plain_sub_before (hb.lines.atMostOne (mem_of_lineAt hx)) (le_refl 1) hi hle
  have hlen : ((sub x 1 (i - 1)).length : Int) = i - 1 := by
    have hx := termChar_le x
    rw [sub_take x hi, List.length_take]
    omega
  have hstays : ∀ s, i ≤ termChar (sub x 1 (i - 1) ++ s) := by
    intro s
    have hprefix := (prefix_contents_append hplain s).length_le
    rw [termChar, ← contents]
    omega
  rcases hline with hline | hline
  · refine validPos_iff.mpr ⟨_, hline, hi, ?_⟩
    rw [termChar, ← contents, contents_removeTerm]
    exact hstays _
  · refine validPos_iff.mpr ⟨_, hline, hi, ?_⟩
    rw [addTerm]
    split_ifs
    · exact hstays _
    · rw [List.append_assoc]
      exact hstays _

theorem ends_insert {i : Int} (hb : Sound b) (hpos : ValidPos b line i)
    (s : Bytes) :
    Ends (insert line i s) b (fun _ t => Sound t) fun _ => False := by
  obtain ⟨pre, x, post, s1, s2, hsplit, hline, hx, hi⟩ :=
    ValidPos.exists_split hpos
  obtain ⟨first, rest, hpieces⟩ := List.exists_cons_of_ne_nil
    (lineStrings_ne_nil (s1 ++ s ++ s2))
  obtain ⟨y, -, hyields⟩ := yields_insert hsplit hline hx hi hpos hpieces
  exact (ends_sound hyields.ends (keeps_insert line i s b) hb).mono
    (fun _ _ h => h.2) fun _ => id

theorem ends_moveLine (hb : Sound b) (line1 line2 : Int) :
    Ends (moveLine line1 line2) b (fun _ t => Sound t) fun _ => False := by
  have hreturns : Ends (moveLine line1 line2) b (fun _ _ => True)
      fun _ => False := by
    refine Ends.get_bind ?_
    cases h1 : b.lineAt line1 with
    | none => exact Ends.pure trivial
    | some s1 =>
        cases h2 : b.lineAt line2 with
        | none => exact Ends.pure trivial
        | some s2 =>
            have hrange := range_of_lineAt h2
            refine Ends.bind (ends_setline (range_of_lineAt h1) _) ?_
            rintro _ t ⟨hlen, -⟩
            exact (ends_setline (by omega) _).mono (fun _ _ _ => trivial)
              fun _ => id
  exact (ends_sound hreturns (keeps_moveLine line1 line2 b) hb).mono
    (fun _ _ h => h.2) fun _ => id

end Buffer

end LuaAttic.Codedit
