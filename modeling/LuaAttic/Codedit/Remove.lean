import LuaAttic.Codedit.Insert

/-!
# Removing the text between two positions

`remove` removes the lines after the first one from the last to the first, each
with the line before it as the last line for a while, and then stores what is left
of the first and the last line in the place of the first one.  What is stored has
the terminator of the last line, so it is stored as it is.
-/

namespace LuaAttic.Codedit

open LuaAttic.Support LuaAttic.Lua Str

namespace Buffer

variable {b : Buffer} {line : Int} {pre ds post : List Bytes} {x : Bytes}

/-! ## Removing lines -/

/-- The lines between a line and others. -/
theorem yields_removeLines (h : b.lines = pre ++ x :: (ds ++ post)) (hpost : post ≠ [])
    (hline : line = pre.length + 1) :
    Yields (removeLines line ds.length) b () (pre ++ x :: post) := by
  induction ds using List.reverseRecOn generalizing b with
  | nil =>
      have hpure := Yields.pure () b
      rw [h] at hpure
      exact hpure
  | append_singleton ds d ih =>
      have hsplit : b.lines = (pre ++ x :: ds) ++ d :: post := by simp [h]
      have hnumber : line + (ds.length + 1) = ((pre ++ x :: ds).length : Int) + 1 := by
        simp only [List.length_append, List.length_cons]
        omega
      rw [List.length_append, List.length_singleton]
      refine Yields.bind (yields_removeLine hsplit (by simp) hpost hnumber) ?_
      intro b' hlines _
      exact ih (by simpa using hlines)

/-- The lines after a line up to the end, which takes the terminator of the line. -/
theorem yields_removeLines_last (h : b.lines = pre ++ x :: ds) (hds : ds ≠ [])
    (hline : line = pre.length + 1) :
    Yields (removeLines line ds.length) b () (pre ++ [contents x]) := by
  induction hn : ds.length generalizing b ds with
  | zero => exact absurd (List.eq_nil_of_length_eq_zero hn) hds
  | succ n ih =>
      obtain ⟨ds, d, rfl⟩ := List.eq_nil_or_concat' ds |>.resolve_left hds
      have hlen : ds.length = n := by simpa using hn
      cases hds' : ds using List.reverseRecOn with
      | nil =>
          subst hds'
          obtain rfl : n = 0 := hlen.symm
          have hnumber : line + ((0 : ℕ) + 1) = (pre.length : Int) + 2 := by omega
          refine Yields.bind (yields_removeLine_last h hnumber) ?_
          intro b' hlines _
          rw [← hlines]
          exact Yields.pure () b'
      | append_singleton ds' y =>
          -- the line before the last one becomes the last one
          have hsplit : b.lines = (pre ++ x :: ds') ++ [y, d] := by simp [h, hds']
          have hnumber : line + (n + 1) = ((pre ++ x :: ds').length : Int) + 2 := by
            rw [hds', List.length_append, List.length_singleton] at hlen
            simp only [List.length_append, List.length_cons]
            omega
          refine Yields.bind (yields_removeLine_last hsplit hnumber) ?_
          intro b' hlines _
          have hds'' : (ds' ++ [contents y]).length = n := by
            rw [← hlen, hds', List.length_append, List.length_append, List.length_singleton,
              List.length_singleton]
          exact ih (by simpa using hlines) (by simp) hds''

theorem exists_yields_removeLines (h : b.lines = pre ++ x :: (ds ++ post))
    (hline : line = pre.length + 1) :
    ∃ x', Yields (removeLines line ds.length) b () (pre ++ x' :: post) := by
  by_cases hpost : post = []
  · subst hpost
    rw [List.append_nil] at h
    by_cases hds : ds = []
    · subst hds
      have hpure := Yields.pure () b
      rw [h] at hpure
      exact ⟨x, hpure⟩
    · exact ⟨contents x, yields_removeLines_last h hds hline⟩
  · exact ⟨x, yields_removeLines h hpost hline⟩

/-! ## What is stored -/

/-- Plain text and what is left of a line, in the place of that line. -/
theorem stored_append {s1 : Bytes} {i : Int} (hs1 : Plain s1) (h : WellFormed (x :: post))
    (hi : 1 ≤ i) (hle : i ≤ termChar x) (term : Bytes) :
    stored term (s1 ++ subFrom x i) post = s1 ++ subFrom x i := by
  by_cases hpost : post = []
  · subst hpost
    have hplain := (wellFormed_singleton.mp h).subFrom i
    rw [stored, if_pos rfl, removeTerm_plain (plain_append.mpr ⟨hs1, hplain⟩)]
  · obtain ⟨⟨body, t, rfl, hbody, ht⟩, -⟩ := (wellFormed_cons hpost).mp h
    rw [termChar_body_term hbody ht] at hle
    have hcol : (i - 1).toNat ≤ body.length := by omega
    have hterm : hasterm (s1 ++ subFrom (body ++ t) i) = true := by
      rw [subFrom_drop _ hi, List.drop_append_of_le_length hcol, ← List.append_assoc]
      exact ht.hasterm _
    rw [stored, if_neg hpost, addTerm, if_pos hterm]

section Positions

variable {x1 x2 : Bytes} {line1 i1 line2 i2 j1 j2 : Int}

/-- The text around the last one of some lines. -/
theorem lines_around_last (h : b.lines = pre ++ x1 :: (ds ++ post))
    (hlast : (x1 :: ds).getLast (List.cons_ne_nil x1 ds) = x2) :
    b.lines = (pre ++ (x1 :: ds).dropLast) ++ x2 :: post ∧
      (pre.length : Int) + 1 + ds.length =
        ((pre ++ (x1 :: ds).dropLast).length : Int) + 1 := by
  have hinit := List.dropLast_concat_getLast (List.cons_ne_nil x1 ds)
  rw [hlast] at hinit
  constructor
  · rw [h, ← List.cons_append, ← hinit]
    simp
  · rw [List.length_append, List.length_dropLast, List.length_cons]
    omega

/-- What `remove` leaves, around the lines of its two positions. -/
theorem yields_remove (hb : WellFormed b.lines) (h : b.lines = pre ++ x1 :: (ds ++ post))
    (hlast : (x1 :: ds).getLast (List.cons_ne_nil x1 ds) = x2)
    (hp1 : b.clampPos line1 (some i1) = ((pre.length : Int) + 1, j1))
    (hp2 : b.clampPos line2 (some i2) = ((pre.length : Int) + 1 + ds.length, j2)) :
    Yields (remove line1 i1 line2 i2) b ()
      (pre ++ (sub x1 1 (j1 - 1) ++ subFrom x2 j2) :: post) := by
  have hx1 : b.lineAt (pre.length + 1) = some x1 := lineAt_split h
  obtain ⟨hsplit, hnumber⟩ := lines_around_last h hlast
  have hx2 : b.lineAt (pre.length + 1 + ds.length) = some x2 := hnumber ▸ lineAt_split hsplit
  have hvalid1 := validPos_clampPos b line1 (some i1)
  have hvalid2 := validPos_clampPos b line2 (some i2)
  rw [hp1] at hvalid1
  rw [hp2] at hvalid2
  obtain ⟨-, -, hj1, hle1⟩ := hvalid1
  obtain ⟨-, -, hj2, hle2⟩ := hvalid2
  have hplain : Plain (sub x1 1 (j1 - 1)) :=
    plain_sub_before (hb.atMostOne (mem_of_lineAt hx1)) (le_refl 1) hj1
      (hle1 _ (eol_of_lineAt hx1))
  have hrest : WellFormed (x2 :: post) := by
    rw [hsplit, wellFormed_append (List.cons_ne_nil _ _)] at hb
    exact hb.2
  have hstored := stored_append hplain hrest hj2 (hle2 _ (eol_of_lineAt hx2)) b.lineTerminator
  obtain ⟨x', hremoved⟩ := exists_yields_removeLines h rfl
  have hcount : ((pre.length : Int) + 1 + ds.length - (pre.length + 1)).toNat = ds.length := by
    omega
  refine Yields.get_bind ?_
  simp only [hp1, hp2, textAt_of_lineAt hx1, textAt_of_lineAt hx2, hcount]
  refine Yields.bind hremoved ?_
  intro b' hlines hterm
  have hset := yields_setline hlines rfl (sub x1 1 (j1 - 1) ++ subFrom x2 j2)
  rwa [hterm, hstored] at hset

end Positions

/-! ## The text around two positions -/

section Text

variable {i j : Int} {x1 x2 : Bytes} {line1 line2 j1 j2 : Int}

theorem textBefore_of_lines (h : b.lines = pre ++ x :: post)
    (hline : line = pre.length + 1) (i : Int) :
    b.textBefore line i = pre.flatten ++ sub x 1 (i - 1) := by
  have hcount : (line - 1).toNat = pre.length := by omega
  have htext : b.textAt line = x := textAt_of_lineAt (hline ▸ lineAt_split h)
  rw [textBefore, htext, hcount, h, List.take_left]

theorem textFrom_of_lines (h : b.lines = pre ++ x :: post)
    (hline : line = pre.length + 1) (i : Int) :
    b.textFrom line i = subFrom x i ++ post.flatten := by
  have hcount : line.toNat = (pre ++ [x]).length := by
    rw [List.length_append, List.length_singleton]
    omega
  have htext : b.textAt line = x := textAt_of_lineAt (hline ▸ lineAt_split h)
  have hsplit : b.lines = (pre ++ [x]) ++ post := by simp [h]
  rw [textFrom, htext, hcount, hsplit, List.drop_left]

/-- A line is what is before a column and what is from it on. -/
theorem sub_append_subFrom (s : Bytes) (hi : 1 ≤ i) :
    sub s 1 (i - 1) ++ subFrom s i = s := by
  rw [sub_take s hi, subFrom_drop s hi, List.take_append_drop]

/-- A line is what is before, between and after two columns. -/
theorem sub_append_sub_append_subFrom (s : Bytes) (hi : 1 ≤ i) (hij : i ≤ j) :
    sub s 1 (i - 1) ++ sub s i (j - 1) ++ subFrom s j = s := by
  have hbetween : sub s 1 (j - 1) = sub s 1 (i - 1) ++ sub s i (j - 1) := by
    have hcols : (i - 1).toNat ≤ (j - 1).toNat := by omega
    have htake : s.take (i - 1).toNat = (s.take (j - 1).toNat).take (i - 1).toNat := by
      rw [List.take_take, Nat.min_eq_left hcols]
    rw [sub_take s hi, sub_take s (hi.trans hij), sub_eq_take_drop s hi (by omega), htake,
      List.take_append_drop]
  rw [← hbetween, sub_append_subFrom s (hi.trans hij)]

/-- The lines of two positions and those around them. -/
theorem exists_lines_around (hvalid1 : ValidPos b line1 j1)
    (hvalid2 : ValidPos b line2 j2) (hle : line1 ≤ line2) :
    ∃ pre x1 ds post, b.lines = pre ++ x1 :: (ds ++ post) ∧
      line1 = pre.length + 1 ∧ line2 = pre.length + 1 + ds.length := by
  obtain ⟨x1, hx1, -⟩ := validPos_iff.mp hvalid1
  obtain ⟨pre, rest, hsplit, hline1⟩ := tableGet_eq_some_iff.mp hx1
  obtain ⟨-, hline2, -⟩ := hvalid2
  refine ⟨pre, x1, rest.take (line2 - line1).toNat, rest.drop (line2 - line1).toNat, ?_,
    hline1, ?_⟩
  · rw [List.take_append_drop, hsplit]
  · rw [hsplit, List.length_append, List.length_cons] at hline2
    rw [List.length_take]
    omega

end Text

/-- The position `p` is not after the position `q`. -/
def NotAfter (p q : Int × Int) : Prop := p.1 < q.1 ∨ p.1 = q.1 ∧ p.2 ≤ q.2

/-- The whole text around a selection. -/
theorem text_around_select {line1 i1 line2 i2 : Int}
    (hle : NotAfter (b.clampPos line1 (some i1)) (b.clampPos line2 (some i2)))
    {p q : Int × Int} (hp : b.clampPos line1 (some i1) = p)
    (hq : b.clampPos line2 (some i2) = q) {x1 : Bytes}
    (h : b.lines = pre ++ x1 :: (ds ++ post)) (hline1 : p.1 = pre.length + 1)
    (hline2 : q.1 = pre.length + 1 + ds.length) :
    b.lines.flatten = b.textBefore p.1 p.2 ++ b.select line1 i1 line2 (some i2) ++
      b.textFrom q.1 q.2 := by
  obtain ⟨-, -, hp1, -⟩ := hp ▸ validPos_clampPos b line1 (some i1)
  obtain ⟨-, -, hq1, -⟩ := hq ▸ validPos_clampPos b line2 (some i2)
  rw [hp, hq] at hle
  have htext1 : b.textAt p.1 = x1 := textAt_of_lineAt (hline1 ▸ lineAt_split h)
  rw [select]
  simp only [hp, hq, htext1]
  cases hds : ds using List.reverseRecOn with
  | nil =>
      -- both positions are in one line
      subst hds
      have hsame : p.1 = q.1 := by simpa [hline1] using hline2.symm
      have hcols : p.2 ≤ q.2 := by
        rcases hle with hlt | ⟨-, hcols⟩
        · exact absurd hsame hlt.ne
        · exact hcols
      have hline := sub_append_sub_append_subFrom x1 hp1 hcols
      rw [if_pos hsame, textBefore_of_lines h hline1, ← hsame, textFrom_of_lines h hline1, h]
      calc (pre ++ x1 :: ([] ++ post)).flatten = pre.flatten ++ x1 ++ post.flatten := by simp
        _ = pre.flatten ++ (sub x1 1 (p.2 - 1) ++ sub x1 p.2 (q.2 - 1) ++ subFrom x1 q.2) ++
            post.flatten := by rw [hline]
        _ = _ := by simp
  | append_singleton ds x2 =>
      subst hds
      have hdiff : p.1 ≠ q.1 := by
        rw [hline1, hline2, List.length_append, List.length_singleton]
        omega
      have hsplit : b.lines = (pre ++ x1 :: ds) ++ x2 :: post := by simp [h]
      have hnumber : q.1 = ((pre ++ x1 :: ds).length : Int) + 1 := by
        rw [hline2, List.length_append, List.length_append, List.length_singleton,
          List.length_cons]
        omega
      have htext2 : b.textAt q.1 = x2 := textAt_of_lineAt (hnumber ▸ lineAt_split hsplit)
      have hbetween : (b.lines.take (q.1 - 1).toNat).drop p.1.toNat = ds := by
        have htake : (q.1 - 1).toNat = (pre ++ x1 :: ds).length := by omega
        have hdrop : p.1.toNat = (pre ++ [x1]).length := by
          rw [List.length_append, List.length_singleton]
          omega
        have hlines : pre ++ x1 :: ds = (pre ++ [x1]) ++ ds := by simp
        rw [htake, hdrop, hsplit, List.take_left, hlines, List.drop_left]
      rw [if_neg hdiff, htext2, hbetween, textBefore_of_lines h hline1,
        textFrom_of_lines hsplit hnumber, h]
      calc (pre ++ x1 :: (ds ++ [x2] ++ post)).flatten =
          pre.flatten ++ x1 ++ ds.flatten ++ x2 ++ post.flatten := by simp
        _ = pre.flatten ++ (sub x1 1 (p.2 - 1) ++ subFrom x1 p.2) ++ ds.flatten ++
            (sub x2 1 (q.2 - 1) ++ subFrom x2 q.2) ++ post.flatten := by
          rw [sub_append_subFrom x1 hp1, sub_append_subFrom x2 hq1]
        _ = _ := by simp

/-- What `remove` leaves is the text before the first position and the text from the
second one on. -/
theorem exists_yields_remove (hb : WellFormed b.lines) (line1 i1 line2 i2 : Int)
    (hle : (b.clampPos line1 (some i1)).1 ≤ (b.clampPos line2 (some i2)).1) :
    ∃ t, Yields (remove line1 i1 line2 i2) b () t ∧
      t.flatten =
        b.textBefore (b.clampPos line1 (some i1)).1 (b.clampPos line1 (some i1)).2 ++
          b.textFrom (b.clampPos line2 (some i2)).1 (b.clampPos line2 (some i2)).2 := by
  obtain ⟨pre, x1, ds, post, h, hline1, hline2⟩ :=
    exists_lines_around (validPos_clampPos b line1 (some i1))
      (validPos_clampPos b line2 (some i2)) hle
  obtain ⟨x2, hlast⟩ : ∃ x2, (x1 :: ds).getLast (List.cons_ne_nil x1 ds) = x2 := ⟨_, rfl⟩
  obtain ⟨hsplit, hnumber⟩ := lines_around_last h hlast
  refine ⟨_, yields_remove hb h hlast (Prod.ext hline1 rfl) (Prod.ext hline2 rfl), ?_⟩
  rw [textBefore_of_lines h hline1, textFrom_of_lines hsplit (hline2.trans hnumber)]
  simp

/-- Between two positions, clamped to the text, `remove` deletes what `select`
returns for them and nothing else. -/
theorem remove_exact (hb : WellFormed b.lines) (line1 i1 line2 i2 : Int)
    (hle : NotAfter (b.clampPos line1 (some i1)) (b.clampPos line2 (some i2))) :
    let p1 := b.clampPos line1 (some i1)
    let p2 := b.clampPos line2 (some i2)
    Returns (remove line1 i1 line2 i2) b ∧
      (finalState (remove line1 i1 line2 i2) b).lines.flatten =
        b.textBefore p1.1 p1.2 ++ b.textFrom p2.1 p2.2 ∧
      b.lines.flatten =
        b.textBefore p1.1 p1.2 ++ b.select line1 i1 line2 (some i2) ++
          b.textFrom p2.1 p2.2 := by
  intro p1 p2
  have hlines : p1.1 ≤ p2.1 := by
    rcases hle with hlt | ⟨heq, -⟩
    · exact hlt.le
    · exact heq.le
  obtain ⟨pre, x1, ds, post, h, hline1, hline2⟩ :=
    exists_lines_around (validPos_clampPos b line1 (some i1))
      (validPos_clampPos b line2 (some i2)) hlines
  obtain ⟨t, hyields, htext⟩ := exists_yields_remove hb line1 i1 line2 i2 hlines
  refine ⟨hyields.returns, ?_, text_around_select hle rfl rfl h hline1 hline2⟩
  rw [hyields.lines, htext]

/-- From inside a line to a position past the end of a text with three kinds of
terminators. -/
theorem remove_exact_mixed :
    let b := (new [LF]).loadString [97, 98, CR, LF, 99, CR, LF, 100]
    let p1 := b.clampPos 1 (some 2)
    let p2 := b.clampPos 9 (some 9)
    Returns (remove 1 2 9 9) b ∧
      (finalState (remove 1 2 9 9) b).lines.flatten =
        b.textBefore p1.1 p1.2 ++ b.textFrom p2.1 p2.2 ∧
      b.lines.flatten =
        b.textBefore p1.1 p1.2 ++ b.select 1 2 9 (some 9) ++ b.textFrom p2.1 p2.2 :=
  remove_exact
    (sound_loadString [97, 98, CR, LF, 99, CR, LF, 100] (Or.inl rfl)).lines 1 2 9 9
    (Or.inl (by decide))

end Buffer

end LuaAttic.Codedit
