import LuaAttic.Codedit.Validity

/-!
# Moving the selected lines

Switching a line with the one above it stores both texts again, each with the
terminator that its new place asks for, and leaves the other lines alone.  Moving a
block up carries the line above it through the block, and moving it down carries
that line back.
-/

namespace LuaAttic.Codedit

open LuaAttic.Support LuaAttic.Lua Str

/-! ## Switching two lines -/

theorem contents_addTerm {s term : Bytes} (hs : AtMostOneTerminator s)
    (hterm : IsTerminator term) : contents (addTerm s term) = contents s := by
  rcases hs with hplain | hline
  · rw [addTerm_plain hplain, contents_body_term hplain hterm, contents_plain hplain]
  · rw [addTerm_terminated hline]

namespace Buffer

variable {b : Buffer} {line : Int} {pre post block : List Bytes} {x y : Bytes}

theorem contents_stored {s term : Bytes} (hs : AtMostOneTerminator s)
    (hterm : IsTerminator term) (post : List Bytes) :
    contents (stored term s post) = contents s := by
  unfold stored
  split_ifs
  · exact contents_removeTerm s
  · exact contents_addTerm hs hterm

/-- Two neighbouring lines are switched, whichever of them is stored first. -/
theorem exists_moveLine (hb : Sound b) (h : b.lines = pre ++ x :: y :: post) {line1 line2 : Int}
    (hlines : line1 = pre.length + 1 ∧ line2 = pre.length + 2 ∨
      line1 = pre.length + 2 ∧ line2 = pre.length + 1) :
    ∃ b' x' y', moveLine line1 line2 b = .ok () b' ∧ Sound b' ∧
      b'.lines = pre ++ y' :: x' :: post ∧ contents x' = contents x ∧
      contents y' = contents y := by
  have hx : b.lineAt (pre.length + 1) = some x := lineAt_split h
  have hsplit : b.lines = (pre ++ [x]) ++ y :: post := by simp [h]
  have hnumber : (pre.length : Int) + 2 = ((pre ++ [x]).length : Int) + 1 := by
    rw [List.length_append, List.length_singleton]
    omega
  have hy : b.lineAt (pre.length + 2) = some y := hnumber ▸ lineAt_split hsplit
  have hx1 := hb.lines.atMostOne (mem_of_lineAt hx)
  have hy1 := hb.lines.atMostOne (mem_of_lineAt hy)
  have hterm := hb.lineTerminator
  rcases hlines with ⟨rfl, rfl⟩ | ⟨rfl, rfl⟩
  · obtain ⟨b1, hok1, hlines1, hterm1⟩ := yields_setline h rfl y
    have hsplit1 : b1.lines =
        (pre ++ [stored b.lineTerminator y (y :: post)]) ++ y :: post := by simp [hlines1]
    have hnumber1 : (pre.length : Int) + 2 =
        ((pre ++ [stored b.lineTerminator y (y :: post)]).length : Int) + 1 := by
      rw [List.length_append, List.length_singleton]
      omega
    obtain ⟨b2, hok2, hlines2, hterm2⟩ := yields_setline hsplit1 hnumber1 x
    have hmove : moveLine (pre.length + 1) (pre.length + 2) b = .ok () b2 := by
      simp only [moveLine, get_bind_apply, hx, hy]
      rw [bind_of_ok hok1, hok2]
    refine ⟨b2, stored b1.lineTerminator x post, stored b.lineTerminator y (y :: post), hmove,
      (keeps_moveLine _ _ b).of_ok hmove hb, by simp [hlines2], ?_, contents_stored hy1 hterm _⟩
    rw [hterm1]
    exact contents_stored hx1 hterm _
  · obtain ⟨b1, hok1, hlines1, hterm1⟩ := yields_setline hsplit hnumber x
    have hsplit1 : b1.lines = pre ++ x :: stored b.lineTerminator x post :: post := by
      simp [hlines1]
    obtain ⟨b2, hok2, hlines2, hterm2⟩ := yields_setline hsplit1 rfl y
    have hmove : moveLine (pre.length + 2) (pre.length + 1) b = .ok () b2 := by
      simp only [moveLine, get_bind_apply, hx, hy]
      rw [bind_of_ok hok1, hok2]
    refine ⟨b2, _, _, hmove, (keeps_moveLine _ _ b).of_ok hmove hb, hlines2,
      contents_stored hx1 hterm _, ?_⟩
    rw [hterm1]
    exact contents_stored hy1 hterm _

end Buffer

/-! ## Moving a block -/

namespace Editor

open Buffer

variable {b : Buffer} {line : Int} {pre post block : List Bytes} {x : Bytes}

/-- Upwards, the line above the block is carried through it. -/
theorem exists_moveEachUp (hb : Sound b) (h : b.lines = pre ++ x :: (block ++ post))
    (hline : line = pre.length + 2) :
    ∃ b' block' x', moveEachUp line block.length b = .ok () b' ∧ Sound b' ∧
      b'.lines = pre ++ (block' ++ x' :: post) ∧ contents x' = contents x ∧
      block'.map contents = block.map contents := by
  induction block generalizing b line pre x with
  | nil => exact ⟨b, [], x, rfl, hb, by simpa using h, rfl, rfl⟩
  | cons d block ih =>
      have habove : line - 1 = (pre.length : Int) + 1 := by omega
      obtain ⟨b1, x1, d1, hmove, hb1, hlines1, hx1, hd1⟩ :=
        exists_moveLine hb h (Or.inr ⟨hline, habove⟩)
      have hsplit : b1.lines = (pre ++ [d1]) ++ x1 :: (block ++ post) := by simp [hlines1]
      have hnext : line + 1 = ((pre ++ [d1]).length : Int) + 2 := by
        rw [List.length_append, List.length_singleton]
        omega
      obtain ⟨b2, block2, x2, hrest, hb2, hlines2, hx2, hblock2⟩ := ih hb1 hsplit hnext
      refine ⟨b2, d1 :: block2, x2, ?_, hb2, by simp [hlines2], hx2.trans hx1, ?_⟩
      · rw [List.length_cons, moveEachUp, bind_of_ok hmove, hrest]
      · rw [List.map_cons, List.map_cons, hd1, hblock2]

/-- Downwards, the line below the block is. -/
theorem exists_moveEachDown (hb : Sound b) (h : b.lines = pre ++ (block ++ x :: post))
    (hline : line = pre.length + block.length) :
    ∃ b' block' x', moveEachDown line block.length b = .ok () b' ∧ Sound b' ∧
      b'.lines = pre ++ x' :: (block' ++ post) ∧ contents x' = contents x ∧
      block'.map contents = block.map contents := by
  induction block using List.reverseRecOn generalizing b line post x with
  | nil => exact ⟨b, [], x, rfl, hb, by simpa using h, rfl, rfl⟩
  | append_singleton block d ih =>
      rw [List.length_append, List.length_singleton] at hline
      have hsplit0 : b.lines = (pre ++ block) ++ d :: x :: post := by simp [h]
      have hnumber : line = ((pre ++ block).length : Int) + 1 := by
        rw [List.length_append]
        omega
      have hbelow : line + 1 = ((pre ++ block).length : Int) + 2 := by omega
      have habove : line - 1 = (pre.length : Int) + block.length := by omega
      obtain ⟨b1, d1, x1, hmove, hb1, hlines1, hd1, hx1⟩ :=
        exists_moveLine hb hsplit0 (Or.inl ⟨hnumber, hbelow⟩)
      have hsplit : b1.lines = pre ++ (block ++ x1 :: (d1 :: post)) := by simp [hlines1]
      obtain ⟨b2, block2, x2, hrest, hb2, hlines2, hx2, hblock2⟩ := ih hb1 hsplit habove
      refine ⟨b2, block2 ++ [d1], x2, ?_, hb2, by simp [hlines2], hx2.trans hx1, ?_⟩
      · rw [List.length_append, List.length_singleton, moveEachDown, bind_of_ok hmove, hrest]
      · rw [List.map_append, List.map_append, List.map_singleton, List.map_singleton, hd1,
          hblock2]

/-! ## The selected lines -/

/-- The endpoints of a selection that is not empty, in order. -/
theorem exists_endpoints {e : Editor} (hsel : SelectionInText e)
    (hne : e.selection.isempty = false) :
    ∃ line1 i1 line2 i2, e.selection.endpoints = (line1, i1, line2, i2) ∧ 1 ≤ line1 ∧
      1 ≤ i1 ∧ line2 ≤ e.buffer.lines.length ∧ (line1 < line2 ∨ line1 = line2 ∧ i1 < i2) := by
  obtain ⟨ha1, ha2, ha3, -⟩ := hsel.anchor
  obtain ⟨hf1, hf2, hf3, -⟩ := hsel.free
  simp only [Selection.isempty, decide_eq_false_iff_not] at hne
  by_cases hforward : e.selection.isforward = true
  · refine ⟨_, _, _, _, if_pos hforward, ha1, ha3, hf2, ?_⟩
    simp only [Selection.isforward, decide_eq_true_eq] at hforward
    omega
  · refine ⟨_, _, _, _, if_neg hforward, hf1, hf3, ha2, ?_⟩
    simp only [Selection.isforward, decide_eq_true_eq] at hforward
    omega

/-- The lines of a selection that is not empty. -/
theorem lineRange_bounds {e : Editor} (hsel : SelectionInText e)
    (hne : e.selection.isempty = false) {line1 line2 : Int}
    (hrange : e.selection.lineRange = (line1, line2)) :
    1 ≤ line1 ∧ line1 ≤ line2 ∧ line2 ≤ e.buffer.lines.length := by
  obtain ⟨l1, i1, l2, i2, hends, h1, hi1, h2, horder⟩ := exists_endpoints hsel hne
  simp only [Selection.lineRange, hends, hne, Bool.not_false, true_and] at hrange
  split_ifs at hrange
  · cases hrange
    omega
  · cases hrange
    omega

/-- A selection from the start of a line to the start of a later one covers the lines
between. -/
theorem lineRange_set (sel : Selection) {b : Buffer} {line1 line2 : Int}
    (h1 : ValidPos b line1 1) (h2 : ValidPos b line2 1) (hlt : line1 < line2)
    (forward : Option Bool) :
    (sel.set b line1 1 line2 1 forward).lineRange = (line1, line2 - 1) := by
  have hset : sel.set b line1 1 line2 1 forward = ⟨line1, 1, line2, 1⟩ ∨
      sel.set b line1 1 line2 1 forward = ⟨line2, 1, line1, 1⟩ := by
    simp only [Selection.set, Selection.reset, Selection.extend, clampPos_of_validPos h1,
      clampPos_of_validPos h2, Selection.reverse]
    split_ifs
    · exact Or.inr rfl
    · exact Or.inl rfl
  rcases hset with hset | hset
  · rw [hset]
    simp [Selection.lineRange, Selection.endpoints, Selection.isforward, Selection.isempty, hlt,
      hlt.ne']
  · rw [hset]
    simp [Selection.lineRange, Selection.endpoints, Selection.isforward, Selection.isempty,
      hlt.ne', not_lt_of_gt hlt, hlt.ne]

/-- The texts of the lines, terminators aside. -/
def texts (e : Editor) : List Bytes := e.buffer.lines.map contents

theorem onBuffer_of_ok {α : Type} {m : Program Buffer α} {e : Editor} {a : α} {b : Buffer}
    (h : m e.buffer = .ok a b) : onBuffer m e = .ok a { e with buffer := b } := by
  simp only [onBuffer, h]

/-- A selection of lines that does not start on the first line. -/
theorem exists_block {e : Editor} (hsel : SelectionInText e)
    (hne : e.selection.isempty = false) {line1 line2 : Int}
    (hrange : e.selection.lineRange = (line1, line2)) (hfirst : line1 ≠ 1) :
    ∃ pre x block post, e.buffer.lines = pre ++ x :: (block ++ post) ∧
      line1 = pre.length + 2 ∧ line2 = pre.length + 1 + block.length ∧ block ≠ [] := by
  obtain ⟨h1, hle, h2⟩ := lineRange_bounds hsel hne hrange
  obtain ⟨x, hx⟩ : ∃ x, e.buffer.lineAt (line1 - 1) = some x := lineAt_of_range (by omega)
  obtain ⟨pre, rest, hsplit, hnumber⟩ := tableGet_eq_some_iff.mp hx
  have hlen : e.buffer.lines.length = pre.length + (rest.length + 1) := by
    rw [hsplit, List.length_append, List.length_cons]
  refine ⟨pre, x, rest.take (line2 - line1 + 1).toNat, rest.drop (line2 - line1 + 1).toNat, ?_,
    by omega, ?_, ?_⟩
  · rw [List.take_append_drop, hsplit]
  · rw [List.length_take]
    omega
  · apply List.ne_nil_of_length_pos
    rw [List.length_take]
    omega

theorem validPos_first_col {b : Buffer} {line : Int} (h : 1 ≤ line ∧ line ≤ b.lines.length) :
    ValidPos b line 1 := by
  obtain ⟨s, hs⟩ := lineAt_of_range h
  exact validPos_iff.mpr ⟨s, hs, le_refl 1, termChar_pos s⟩

/-- The selected block is moved up with its selection. -/
theorem exists_selectionMoveUp {e : Editor} (hb : Sound e.buffer)
    (h : e.buffer.lines = pre ++ x :: (block ++ post)) (hblock : block ≠ []) {line1 line2 : Int}
    (hrange : e.selection.lineRange = (line1, line2)) (h1 : line1 = pre.length + 2)
    (h2 : line2 = pre.length + 1 + block.length) :
    ∃ t block' x', selectionMoveUp e = .ok () t ∧ Sound t.buffer ∧
      t.buffer.lines = pre ++ (block' ++ x' :: post) ∧ contents x' = contents x ∧
      block'.map contents = block.map contents ∧
      t.selection.lineRange = (line1 - 1, line2 - 1) := by
  have hfirst : line1 ≠ 1 := by omega
  have hcount : (line2 - line1 + 1).toNat = block.length := by omega
  have hpos := List.length_pos_of_ne_nil hblock
  obtain ⟨b', block', x', hup, hb', hlines, hx, hmap⟩ := exists_moveEachUp hb h h1
  have hlen : block'.length = block.length := by simpa using congrArg List.length hmap
  have htotal : b'.lines.length = pre.length + (block.length + (post.length + 1)) := by
    rw [hlines, List.length_append, List.length_append, List.length_cons, hlen]
  have hpos1 : ValidPos b' (line1 - 1) 1 := validPos_first_col (by omega)
  have hpos2 : ValidPos b' (line2 - 1 + 1) 1 := validPos_first_col (by omega)
  have hset := lineRange_set e.selection hpos1 hpos2 (by omega) none
  refine ⟨{ e with
      buffer := b'
      selection := e.selection.set b' (line1 - 1) 1 (line2 - 1 + 1) 1 none },
    block', x', ?_, hb', hlines, hx, hmap, ?_⟩
  · rw [← hcount] at hup
    simp only [selectionMoveUp, get_bind_apply, hrange, if_neg hfirst]
    rw [bind_of_ok (onBuffer_of_ok hup)]
    rfl
  · rw [hset, add_sub_cancel_right]

/-- The selected block is moved down. -/
theorem exists_selectionMoveDown {e : Editor} (hb : Sound e.buffer)
    (h : e.buffer.lines = pre ++ (block ++ x :: post)) {line1 line2 : Int}
    (hrange : e.selection.lineRange = (line1, line2)) (h1 : line1 = pre.length + 1)
    (h2 : line2 = pre.length + block.length) :
    ∃ t block' x', selectionMoveDown e = .ok () t ∧
      t.buffer.lines = pre ++ x' :: (block' ++ post) ∧ contents x' = contents x ∧
      block'.map contents = block.map contents := by
  have hcount : (line2 - line1 + 1).toNat = block.length := by omega
  have hlast : ¬ line2 = e.buffer.lines.length := by
    rw [h, List.length_append, List.length_append, List.length_cons]
    omega
  obtain ⟨b', block', x', hdown, hb', hlines, hx, hmap⟩ := exists_moveEachDown hb h h2
  refine ⟨{ e with
      buffer := b'
      selection := e.selection.set b' (line1 + 1) 1 (line2 + 1 + 1) 1 none },
    block', x', ?_, hlines, hx, hmap⟩
  rw [← hcount] at hdown
  simp only [selectionMoveDown, get_bind_apply, hrange, if_neg hlast]
  rw [bind_of_ok (onBuffer_of_ok hdown)]
  rfl

/-- Moving the selected lines up rotates their texts with that of the line above and
selects them where they are then; moving them down right afterwards gives back the
texts. -/
theorem selectionMoveUp_rotates {e : Editor} (hb : Sound e.buffer) (hsel : SelectionInText e)
    (hne : e.selection.isempty = false) {line1 line2 : Int}
    (hrange : e.selection.lineRange = (line1, line2)) (hfirst : line1 ≠ 1) :
    ∃ pre x block post, e.buffer.lines = pre ++ x :: (block ++ post) ∧
      line1 = pre.length + 2 ∧ line2 = pre.length + 1 + block.length ∧
      ∃ t, selectionMoveUp e = .ok () t ∧
        texts t = pre.map contents ++
          (block.map contents ++ contents x :: post.map contents) ∧
        WellFormed t.buffer.lines ∧ t.selection.lineRange = (line1 - 1, line2 - 1) ∧
        ∃ u, selectionMoveDown t = .ok () u ∧ texts u = texts e := by
  obtain ⟨pre, x, block, post, h, h1, h2, hblock⟩ := exists_block hsel hne hrange hfirst
  obtain ⟨t, block1, x1, hup, hb1, hlines1, hx1, hblock1, hrange1⟩ :=
    exists_selectionMoveUp hb h hblock hrange h1 h2
  have hlen1 : block1.length = block.length := by simpa using congrArg List.length hblock1
  have habove : line1 - 1 = (pre.length : Int) + 1 := by omega
  have hbelow : line2 - 1 = (pre.length : Int) + block1.length := by omega
  obtain ⟨u, block2, x2, hdown, hlines2, hx2, hblock2⟩ :=
    exists_selectionMoveDown hb1 hlines1 hrange1 habove hbelow
  refine ⟨pre, x, block, post, h, h1, h2, t, hup, ?_, hb1.lines, hrange1, u, hdown, ?_⟩
  · simp [texts, hlines1, hx1, hblock1]
  · simp [texts, hlines2, h, hx2, hx1, hblock2, hblock1]

/-- The last two lines of a text with two kinds of terminators, the last one of them
in part, with the selection made from below. -/
theorem selectionMoveUp_rotates_last :
    let e := { new [LF] [97, CR, LF, 98, LF, 99, 100] View.new [] with
      selection := ⟨3, 2, 2, 1⟩ }
    ∃ pre x block post, e.buffer.lines = pre ++ x :: (block ++ post) ∧
      (2 : Int) = pre.length + 2 ∧ (3 : Int) = pre.length + 1 + block.length ∧
      ∃ t, selectionMoveUp e = .ok () t ∧
        texts t = pre.map contents ++
          (block.map contents ++ contents x :: post.map contents) ∧
        WellFormed t.buffer.lines ∧ t.selection.lineRange = (2 - 1, 3 - 1) ∧
        ∃ u, selectionMoveDown t = .ok () u ∧ texts u = texts e :=
  selectionMoveUp_rotates (sound_loadString [97, CR, LF, 98, LF, 99, 100] (Or.inl rfl))
    ⟨validPos_iff.mpr ⟨[99, 100], by decide, by decide, by decide⟩,
      validPos_iff.mpr ⟨[98, LF], by decide, by decide, by decide⟩⟩
    (by decide) (by decide) (by decide)

end Editor

end LuaAttic.Codedit
