import LuaAttic.Codedit.Remove

/-!
# Removing what was inserted

In a text whose terminators are all that of the buffer, a string whose
terminators are that of the buffer as well is stored as it is.  The last piece
ends in what followed the position, so that the returned position is the one
after the string, and removing between the two positions joins again what was
split.
-/

namespace LuaAttic.Codedit

open LuaAttic.Support LuaAttic.Lua Str

/-! ## Pieces that keep their terminators -/

/-- Plain text before a string adds no terminator. -/
theorem allTerminated_plain_append {s1 : Bytes} (h : Plain s1) (term s : Bytes) :
    AllTerminated term (s1 ++ s) ↔ AllTerminated term s := by
  have happend := reterminate_append h plain_nil term s
  rw [List.append_nil, List.append_nil] at happend
  rw [← reterminate_eq_self_iff, ← reterminate_eq_self_iff, happend,
    List.append_cancel_left_eq]

theorem contents_append_of_lineTerm {l term : Bytes} (h : lineTerm l = term) :
    contents l ++ term = l := by
  rw [← h, contents_append_lineTerm]

/-- A first line that starts with `s1` still does with more in the last
line. -/
theorem exists_head_append {s1 first last : Bytes} {rest init : List Bytes}
    (h : (s1 ++ first) :: rest = init ++ [last]) (t : Bytes) :
    ∃ first' ds, init ++ [last ++ t] = (s1 ++ first') :: ds ∧ ds.length = init.length := by
  cases init with
  | nil =>
      obtain ⟨rfl, -⟩ := List.cons.inj h
      exact ⟨first ++ t, [], by simp, rfl⟩
  | cons l init =>
      obtain ⟨rfl, -⟩ := List.cons.inj h
      exact ⟨first, init ++ [last ++ t], by simp, by simp⟩

namespace Buffer

/-- Each line but the last one has the terminator of the buffer. -/
def Uniform (b : Buffer) : Prop :=
  ∀ l ∈ b.lines.dropLast, lineTerm l = b.lineTerminator

instance (b : Buffer) : Decidable b.Uniform :=
  inferInstanceAs (Decidable (∀ _ ∈ _, _))

variable {b : Buffer} {line i : Int} {pre post : List Bytes} {x s1 s2 : Bytes}

/-- What follows the contents of a line of a uniform text. -/
theorem Uniform.lineTerm_eq (hu : b.Uniform) (hb : WellFormed b.lines)
    (h : b.lines = pre ++ x :: post) :
    lineTerm x = if post = [] then [] else b.lineTerminator := by
  by_cases hpost : post = []
  · subst hpost
    rw [h, wellFormed_append (List.cons_ne_nil _ _)] at hb
    have hplain := wellFormed_singleton.mp hb.2
    rw [if_pos rfl, lineTerm, contents_plain hplain, List.drop_length]
  · have hmem : x ∈ b.lines.dropLast := by
      rw [h, List.dropLast_append_of_ne_nil (List.cons_ne_nil x post),
        List.dropLast_cons_of_ne_nil hpost]
      exact List.mem_append_right _ List.mem_cons_self
    rw [if_neg hpost, hu x hmem]

/-- The pieces of the joined string, stored as they are but for the terminator
of the line after the last one. -/
theorem storedPieces_uniform {s first last : Bytes} {rest init : List Bytes} {term : Bytes}
    (hs1 : Plain s1) (hs : AllTerminated term s)
    (hpieces : lineStrings (s1 ++ s ++ s2) = first :: rest)
    (hinit : lineStrings (s1 ++ s) = init ++ [last])
    (hsplit : lineStrings (s1 ++ s ++ s2) = init ++ [last ++ s2]) (post : List Bytes) :
    storedPieces term first rest post =
      init ++ [last ++ s2 ++ if post = [] then [] else term] := by
  have hterms : ∀ l ∈ init, contents l ++ term = id l := by
    intro l hl
    apply contents_append_of_lineTerm
    apply (allTerminated_plain_append hs1 term s).mpr hs
    rwa [hinit, List.dropLast_concat]
  rw [storedPieces_eq hpieces hsplit, List.map_congr_left hterms, List.map_id]
  by_cases hpost : post = []
  · simp [hpost]
  · simp [hpost]

/-- The index after what precedes a plain end of the contents. -/
theorem termChar_sub_length {last term : Bytes} (hlast : Plain last) (hs2 : Plain s2)
    (hterm : term = [] ∨ IsTerminator term) :
    termChar (last ++ s2 ++ term) - s2.length = last.length + 1 := by
  have hplain := plain_append.mpr ⟨hlast, hs2⟩
  rcases hterm with rfl | hterm
  · rw [List.append_nil, termChar, rdropWhile_plain hplain, List.length_append]
    omega
  · rw [termChar_body_term hplain hterm, List.length_append]
    omega

/-- What `insert` does in a uniform text: the lines of the string, the first one
after the text before the position and the last one before the text after it. -/
theorem yields_insert_uniform (hb : Sound b) (hu : b.Uniform)
    (h : b.lines = pre ++ x :: post) (hline : line = pre.length + 1)
    (hx : contents x = s1 ++ s2) (hi : i = s1.length + 1) (hpos : ValidPos b line i)
    {s : Bytes} (hs : AllTerminated b.lineTerminator s) :
    ∃ init last first ds,
      init.flatten ++ last = s1 ++ s ∧ Plain last ∧
      init ++ [last ++ s2 ++ lineTerm x] = (s1 ++ first) :: ds ∧
      ds.length = init.length ∧
      Yields (insert line i s) b (line + init.length, (last.length : Int) + 1)
        (pre ++ (init ++ [last ++ s2 ++ lineTerm x]) ++ post) := by
  have hterm := hu.lineTerm_eq hb.lines h
  have hplain : Plain (s1 ++ s2) := by
    rw [← hx]
    exact plain_contents (hb.lines.atMostOne (h ▸ List.mem_append_right _
      List.mem_cons_self))
  obtain ⟨hs1, hs2⟩ := plain_append.mp hplain
  obtain ⟨init, last, hinit, hsplit⟩ := lineStrings_append_plain hs2 (s1 ++ s)
  obtain ⟨first, rest, hpieces⟩ :=
    List.exists_cons_of_ne_nil (lineStrings_ne_nil (s1 ++ s ++ s2))
  obtain ⟨first', rest', -, hfirst⟩ := lineStrings_plain_append hs1 s
  obtain ⟨first'', ds, hhead, hlen⟩ :=
    exists_head_append (hfirst.symm.trans hinit) (s2 ++ lineTerm x)
  have hlast : Plain last := by
    have hwf := wellFormed_lineStrings (s1 ++ s)
    rw [hinit, wellFormed_append (List.cons_ne_nil _ _)] at hwf
    exact wellFormed_singleton.mp hwf.2
  have hflatten := flatten_lineStrings (s1 ++ s)
  rw [hinit] at hflatten
  have hcount : rest.length = init.length := by
    have hlengths := congrArg List.length (hpieces.symm.trans hsplit)
    simpa using hlengths
  have hstored := storedPieces_uniform hs1 hs hpieces hinit hsplit post
  rw [← hterm] at hstored
  obtain ⟨y, hy, hyields⟩ := yields_insert h hline hx hi hpos hpieces
  rw [hstored, hcount] at hy hyields
  -- the line of the returned position is the last piece
  have hy' : y = last ++ s2 ++ lineTerm x := by
    have hnumber : line + init.length = ((pre ++ init).length : Int) + 1 := by
      rw [List.length_append]
      omega
    have hlines : pre ++ (init ++ [last ++ s2 ++ lineTerm x]) ++ post =
        (pre ++ init) ++ (last ++ s2 ++ lineTerm x) :: post := by simp
    rw [hnumber, hlines, tableGet_split] at hy
    exact (Option.some.inj hy).symm
  have hterm' : lineTerm x = [] ∨ IsTerminator (lineTerm x) := by
    rw [hterm]
    by_cases hpost : post = []
    · exact Or.inl (if_pos hpost)
    · exact Or.inr (by rw [if_neg hpost]; exact hb.lineTerminator)
  rw [hy', termChar_sub_length hlast hs2 hterm'] at hyields
  refine ⟨init, last, first'', ds, by simpa using hflatten, hlast, ?_, hlen, hyields⟩
  rw [List.append_assoc, hhead]

/-- The position after plain text at the start of a line. -/
theorem validPos_of_plain {t : Bytes} (h : b.lines = pre ++ (s1 ++ t) :: post) (hs1 : Plain s1)
    (hline : line = pre.length + 1) (hi : i = s1.length + 1) : ValidPos b line i := by
  have hcol : s1.length ≤ (contents (s1 ++ t)).length :=
    (prefix_contents_append hs1 t).length_le
  have hend : termChar (s1 ++ t) = (contents (s1 ++ t)).length + 1 := rfl
  exact validPos_iff.mpr ⟨_, hline ▸ lineAt_split h, by omega, by omega⟩

/-- In a text whose terminators are that of the buffer, a string with no other
terminators is inserted as it is, the position returned is the one after it, and
removing between the two positions gives back the lines. -/
theorem insert_remove (hb : Sound b) (hu : b.Uniform) (hpos : ValidPos b line i)
    {s : Bytes} (hs : AllTerminated b.lineTerminator s) :
    ∃ line2 i2 b', insert line i s b = .ok (line2, i2) b' ∧
      b'.lines.flatten = b.textBefore line i ++ s ++ b.textFrom line i ∧
      ValidPos b' line2 i2 ∧
      b'.textBefore line2 i2 = b.textBefore line i ++ s ∧
      b'.textFrom line2 i2 = b.textFrom line i ∧
      Returns (remove line i line2 i2) b' ∧
      (finalState (remove line i line2 i2) b').lines = b.lines := by
  obtain ⟨pre, x, post, s1, s2, h, hline, hx, hi⟩ := ValidPos.exists_split hpos
  obtain ⟨hbefore, hfrom⟩ := text_of_split h hline hx hi
  obtain ⟨init, last, first, ds, htext, hlast, hhead, hlen, b', hok, hlines, hterm⟩ :=
    yields_insert_uniform hb hu h hline hx hi hpos hs
  have hs1 : Plain s1 := by
    have hplain := plain_contents (hb.lines.atMostOne (h ▸ List.mem_append_right pre
      (List.mem_cons_self (l := post))))
    rw [hx, plain_append] at hplain
    exact hplain.1
  have hb' : Sound b' := (keeps_insert line i s b).of_ok hok hb
  -- the line of the position before and that of the position after the string
  have hlines1 : b'.lines = pre ++ (s1 ++ first) :: (ds ++ post) := by
    rw [hlines, hhead]
    simp
  have hlines2 : b'.lines = (pre ++ init) ++ (last ++ s2 ++ lineTerm x) :: post := by
    rw [hlines]
    simp
  have hnumber : line + init.length = ((pre ++ init).length : Int) + 1 := by
    rw [List.length_append]
    omega
  have hpos1 : ValidPos b' line i := validPos_of_plain hlines1 hs1 hline hi
  have hpos2 : ValidPos b' (line + init.length) (last.length + 1) := by
    rw [List.append_assoc last] at hlines2
    exact validPos_of_plain hlines2 hlast hnumber rfl
  have hcol1 : sub (s1 ++ first) 1 (i - 1) = s1 := sub_append_left s1 first hi
  have hcol2 : sub (last ++ s2 ++ lineTerm x) 1 ((last.length : Int) + 1 - 1) = last := by
    rw [List.append_assoc]
    exact sub_append_left last _ rfl
  have hrest2 : subFrom (last ++ s2 ++ lineTerm x) ((last.length : Int) + 1) =
      s2 ++ lineTerm x := by
    rw [List.append_assoc]
    exact subFrom_append_left last _ rfl
  have hlast' : ((s1 ++ first) :: ds).getLast (List.cons_ne_nil _ _) =
      last ++ s2 ++ lineTerm x := by
    simp only [← hhead, List.getLast_concat]
  have hp1 : b'.clampPos line (some i) = ((pre.length : Int) + 1, i) := by
    rw [clampPos_of_validPos hpos1, hline]
  have hp2 : b'.clampPos (line + init.length) (some ((last.length : Int) + 1)) =
      ((pre.length : Int) + 1 + ds.length, (last.length : Int) + 1) := by
    rw [clampPos_of_validPos hpos2, hline, hlen]
  have hremove := yields_remove hb'.lines hlines1 hlast' hp1 hp2
  rw [hcol1, hrest2] at hremove
  refine ⟨_, _, b', hok, ?_, hpos2, ?_, ?_, hremove.returns, ?_⟩
  · rw [hlines2, hbefore, hfrom, List.append_assoc pre.flatten s1 s, ← htext]
    simp
  · rw [textBefore_of_lines hlines2 hnumber, hcol2, hbefore, List.append_assoc, ← htext]
    simp
  · rw [textFrom_of_lines hlines2 hnumber, hrest2, hfrom]
  · rw [hremove.lines, h, ← List.append_assoc, ← hx, contents_append_lineTerm]

/-- Two lines and a part of one, inside the line before the last. -/
theorem insert_remove_crlf :
    let b := (new [CR, LF]).loadString [97, 98, CR, LF, 99]
    ∃ line2 i2 b', insert 1 2 [120, CR, LF, CR, LF, 121] b = .ok (line2, i2) b' ∧
      b'.lines.flatten =
        b.textBefore 1 2 ++ [120, CR, LF, CR, LF, 121] ++ b.textFrom 1 2 ∧
      ValidPos b' line2 i2 ∧
      b'.textBefore line2 i2 = b.textBefore 1 2 ++ [120, CR, LF, CR, LF, 121] ∧
      b'.textFrom line2 i2 = b.textFrom 1 2 ∧
      Returns (remove 1 2 line2 i2) b' ∧
      (finalState (remove 1 2 line2 i2) b').lines = b.lines :=
  insert_remove (sound_loadString [97, 98, CR, LF, 99] (Or.inr (Or.inr rfl)))
    (by decide)
    (validPos_iff.mpr ⟨[97, 98, CR, LF], by decide, by decide, by decide⟩)
    (by decide)

end Buffer

end LuaAttic.Codedit
