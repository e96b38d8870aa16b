import LuaAttic.Codedit.LineEdits
import LuaAttic.Support.Run

/-!
# Edits keep the lines well formed

The convention for storing lines is an invariant of every public edit, also
when the edit raises half-way: no method leaves a missing or a second
terminator behind, whichever line was, is or becomes the last one.
-/

namespace LuaAttic.Codedit

open LuaAttic.Support LuaAttic.Lua Str

/-- The invariant: the lines follow the storage convention, and the terminator
that edits use is one of the three. -/
structure Sound (b : Buffer) : Prop where
  lineTerminator : IsTerminator b.lineTerminator
  lines : WellFormed b.lines

theorem Yields.sound {α : Type} {m : Program Buffer α} {b : Buffer} {a : α}
    {t : List Bytes} (h : Yields m b a t) (hb : Sound b)
    (ht : WellFormed t) : Sound (finalState m b) where
  lineTerminator := h.lineTerminator.symm ▸ hb.lineTerminator
  lines := h.lines.symm ▸ ht

/-! ## Replacing, adding and removing a line of a well-formed list -/

theorem wellFormed_stored {pre post : List Bytes} {x s term : Bytes}
    (h : WellFormed (pre ++ x :: post)) (hs : AtMostOneTerminator s)
    (hterm : IsTerminator term) :
    WellFormed (pre ++ Buffer.stored term s post :: post) := by
  rw [wellFormed_append (List.cons_ne_nil _ _)] at h ⊢
  refine ⟨h.1, ?_⟩
  unfold Buffer.stored
  by_cases hpost : post = []
  · subst hpost
    rw [if_pos rfl, wellFormed_singleton]
    exact plain_removeTerm hs
  · rw [if_neg hpost, wellFormed_cons hpost]
    exact ⟨terminated_addTerm hs hterm, ((wellFormed_cons hpost).mp h.2).2⟩

theorem wellFormed_inserted {pre post : List Bytes} {s term : Bytes}
    (hpost : post ≠ []) (h : WellFormed (pre ++ post))
    (hs : AtMostOneTerminator s) (hterm : IsTerminator term) :
    WellFormed (pre ++ addTerm s term :: post) := by
  rw [wellFormed_append hpost] at h
  rw [wellFormed_append (List.cons_ne_nil _ _), wellFormed_cons hpost]
  exact ⟨h.1, terminated_addTerm hs hterm, h.2⟩

theorem wellFormed_appended {pre : List Bytes} {x s term : Bytes}
    (h : WellFormed (pre ++ [x])) (hs : AtMostOneTerminator s)
    (hterm : IsTerminator term) :
    WellFormed (pre ++ [x ++ term, removeTerm s]) := by
  rw [wellFormed_append (List.cons_ne_nil _ _), wellFormed_singleton] at h
  rw [wellFormed_append (List.cons_ne_nil _ _),
    wellFormed_cons (List.cons_ne_nil _ _), wellFormed_singleton]
  exact ⟨h.1, ⟨x, term, rfl, h.2, hterm⟩, plain_removeTerm hs⟩

theorem wellFormed_removed {pre post : List Bytes} {x : Bytes}
    (hpost : post ≠ []) (h : WellFormed (pre ++ x :: post)) :
    WellFormed (pre ++ post) := by
  rw [wellFormed_append (List.cons_ne_nil _ _), wellFormed_cons hpost] at h
  rw [wellFormed_append hpost]
  exact ⟨h.1, h.2.2⟩

theorem wellFormed_removed_last {pre : List Bytes} {y x : Bytes}
    (h : WellFormed (pre ++ [y, x])) : WellFormed (pre ++ [contents y]) := by
  rw [wellFormed_append (List.cons_ne_nil _ _),
    wellFormed_cons (List.cons_ne_nil _ _)] at h
  rw [wellFormed_append (List.cons_ne_nil _ _), wellFormed_singleton]
  exact ⟨h.1, plain_contents (Or.inr h.2.1)⟩

namespace Buffer

/-! ## Line-level editing -/

theorem keeps_setline (line : Int) {s : Bytes} (hs : AtMostOneTerminator s)
    (b : Buffer) : Relates (Preserves Sound) (setline line s) b := by
  by_cases hrange : 1 ≤ line ∧ line ≤ b.lines.length
  · obtain ⟨pre, x, post, hsplit, hline⟩ := exists_split_of_range hrange
    intro hb
    apply (yields_setline hsplit hline s).sound hb
    exact wellFormed_stored (hsplit ▸ hb.lines) hs hb.lineTerminator
  · rw [Relates, finalState_of_error (setline_out hrange s)]
    exact id

theorem keeps_insertLine (line : Int) {s : Bytes} (hs : AtMostOneTerminator s)
    (b : Buffer) : Relates (Preserves Sound) (insertLine line s) b := by
  by_cases hrange : 1 ≤ line ∧ line ≤ b.lines.length + 1
  · intro hb
    rcases insertLine_cases hrange s with
      ⟨pre, post, hsplit, hpost, hyields⟩ | ⟨pre, x, hsplit, hyields⟩
    · apply hyields.sound hb
      exact wellFormed_inserted hpost (hsplit ▸ hb.lines) hs hb.lineTerminator
    · apply hyields.sound hb
      exact wellFormed_appended (hsplit ▸ hb.lines) hs hb.lineTerminator
  · obtain ⟨e, herr⟩ := insertLine_out hrange s
    rw [Relates, finalState_of_error herr]
    exact id

theorem keeps_removeLine (line : Int) (b : Buffer) :
    Relates (Preserves Sound) (removeLine line) b := by
  by_cases hrange : 2 ≤ line ∧ line ≤ b.lines.length
  · intro hb
    rcases removeLine_cases hrange with
      ⟨pre, x, post, hsplit, hpost, hyields⟩ | ⟨pre, y, x, hsplit, hyields⟩
    · apply hyields.sound hb
      exact wellFormed_removed hpost (hsplit ▸ hb.lines)
    · apply hyields.sound hb
      exact wellFormed_removed_last (hsplit ▸ hb.lines)
  · rw [Relates, finalState_of_error (removeLine_out hrange)]
    exact id

theorem keeps_moveLine (line1 line2 : Int) (b : Buffer) :
    Relates (Preserves Sound) (moveLine line1 line2) b := by
  apply Relates.of_inv
  intro hb
  refine Relates.get_bind ?_
  cases h1 : b.lineAt line1 with
  | none => exact Relates.pure _ b
  | some s1 =>
      cases h2 : b.lineAt line2 with
      | none => exact Relates.pure _ b
      | some s2 =>
          refine Relates.bind ?_ fun _ t _ => ?_
          · exact keeps_setline line1 (hb.lines.atMostOne (mem_of_lineAt h2)) b
          · exact keeps_setline line2 (hb.lines.atMostOne (mem_of_lineAt h1)) t

/-! ## Character-level editing -/

theorem keeps_appendLines (line : Int) (fuel : ℕ) (b : Buffer) :
    Relates (Preserves Sound) (appendLines line fuel) b := by
  induction fuel generalizing b with
  | zero => exact Relates.pure _ b
  | succ fuel ih =>
      refine Relates.get_bind ?_
      by_cases hline : line > b.lines.length
      · rw [if_pos hline]
        exact Relates.bind (keeps_insertLine _ (Or.inl plain_nil) b)
          fun _ t _ => ih t
      · rw [if_neg hline]
        exact Relates.pure _ b

theorem keeps_extend (line i : Int) (b : Buffer) :
    Relates (Preserves Sound) (extend line i) b := by
  refine Relates.get_bind ?_
  refine Relates.bind (keeps_appendLines _ _ b) fun _ t _ => ?_
  apply Relates.of_inv
  intro ht
  refine Relates.get_bind ?_
  cases t.eol (if line < 1 then 1 else line) with
  | none => exact Relates.throw _ t
  | some eol =>
      by_cases hi : (if i < 1 then 1 else i) > eol
      · simp only [if_pos hi]
        have hspaces : Plain [SPACE] := by decide
        exact keeps_setline _ (Or.inl (plain_append.mpr
          ⟨plain_selectLine ht.lines _, plain_rep hspaces _⟩)) t
      · simp only [if_neg hi]
        exact Relates.pure _ t

theorem keeps_insertLines (line : Int) {rest : List Bytes}
    (hrest : ∀ s ∈ rest, AtMostOneTerminator s) (b : Buffer) :
    Relates (Preserves Sound) (insertLines line rest) b := by
  induction rest generalizing line b with
  | nil => exact Relates.pure _ b
  | cons s rest ih =>
      refine Relates.bind ?_ fun _ t _ => ?_
      · exact keeps_insertLine _ (hrest s List.mem_cons_self) b
      · exact ih _ (fun s' hs' => hrest s' (List.mem_cons_of_mem s hs')) t

/-- The loop of `insert` is given pieces with at most one terminator, which
is what `str.lines` cuts any string into. -/
theorem keeps_setLines (line : Int) {pieces : List Bytes}
    (hpieces : ∀ s ∈ pieces, AtMostOneTerminator s) (b : Buffer) :
    Relates (Preserves Sound) (setLines line pieces) b := by
  cases pieces with
  | nil => exact Relates.pure _ b
  | cons first rest =>
      refine Relates.bind ?_ fun _ t _ => ?_
      · exact keeps_setline _ (hpieces first List.mem_cons_self) b
      · exact keeps_insertLines _
          (fun s hs => hpieces s (List.mem_cons_of_mem first hs)) t

theorem keeps_insert (line i : Int) (s : Bytes) (b : Buffer) :
    Relates (Preserves Sound) (insert line i s) b := by
  refine Relates.bind (keeps_extend line i b) fun _ t _ => ?_
  refine Relates.get_bind ?_
  refine Relates.bind ?_ fun line' u _ => ?_
  · exact keeps_setLines _
      (fun _ hs => (wellFormed_lineStrings _).atMostOne hs) t
  · refine Relates.get_bind ?_
    cases u.eol line' with
    | none => exact Relates.throw _ u
    | some eol => exact Relates.pure _ u

theorem keeps_removeLines (line : Int) (n : ℕ) (b : Buffer) :
    Relates (Preserves Sound) (removeLines line n) b := by
  induction n generalizing b with
  | zero => exact Relates.pure _ b
  | succ n ih =>
      exact Relates.bind (keeps_removeLine _ b) fun _ t _ => ih t

/-- What `remove` puts on its first line is a plain prefix and a suffix that
has the terminator of its own line. -/
theorem keeps_remove (line1 i1 line2 i2 : Int) (b : Buffer) :
    Relates (Preserves Sound) (remove line1 i1 line2 i2) b := by
  apply Relates.of_inv
  intro hb
  refine Relates.get_bind ?_
  refine Relates.bind (keeps_removeLines _ _ b) fun _ t _ => ?_
  apply keeps_setline
  obtain ⟨x1, h1, hi1, hle1⟩ :=
    validPos_iff.mp (validPos_clampPos b line1 (some i1))
  obtain ⟨x2, h2, hi2, hle2⟩ :=
    validPos_iff.mp (validPos_clampPos b line2 (some i2))
  rw [textAt_of_lineAt h1, textAt_of_lineAt h2]
  apply atMostOne_append
  · have hx1 := hb.lines.atMostOne (mem_of_lineAt h1)
    exact plain_sub_before hx1 (le_refl 1) hi1 hle1
  · exact atMostOne_subFrom (hb.lines.atMostOne (mem_of_lineAt h2)) hi2 hle2

end Buffer

/-! ## Runs of edits -/

/-- The buffer after an edit, which may have raised. -/
def Buffer.edit (b : Buffer) (e : Edit) : Buffer := finalState e.call b

/-- A string given to `insert_line` or `setline` holds at most one terminator,
at its end. -/
def Edit.LineArgument : Edit → Prop
  | .insertLine _ s => AtMostOneTerminator s
  | .setline _ s => AtMostOneTerminator s
  | _ => True

theorem Edit.keeps_call {e : Edit} (he : e.LineArgument) (b : Buffer) :
    Relates (Preserves Sound) e.call b := by
  cases e with
  | insertLine line s => exact Buffer.keeps_insertLine line he b
  | removeLine line => exact Buffer.keeps_removeLine line b
  | setline line s => exact Buffer.keeps_setline line he b
  | moveLine line1 line2 => exact Buffer.keeps_moveLine line1 line2 b
  | extend line i => exact Buffer.keeps_extend line i b
  | insert line i s =>
      exact Relates.bind (Buffer.keeps_insert line i s b)
        fun _ t _ => Relates.pure _ t
  | remove line1 i1 line2 i2 => exact Buffer.keeps_remove line1 i1 line2 i2 b

theorem lines_loadString (s : Bytes) (b : Buffer) :
    (b.loadString s).lines = lineStrings s :=
  if_neg (lineStrings_ne_nil s)

theorem sound_loadString (s : Bytes) {b : Buffer}
    (hterm : IsTerminator b.lineTerminator) : Sound (b.loadString s) where
  lineTerminator := hterm
  lines := by
    rw [lines_loadString]
    exact wellFormed_lineStrings s

theorem sound_run {edits : List Edit} (hedits : ∀ e ∈ edits, e.LineArgument)
    {b : Buffer} (hb : Sound b) : Sound (run Buffer.edit edits b) := by
  induction edits generalizing b with
  | nil => exact hb
  | cons e edits ih =>
      apply ih fun d hd => hedits d (List.mem_cons_of_mem e hd)
      exact e.keeps_call (hedits e List.mem_cons_self) b hb

/-- From any loaded text, every run of public edits leaves well-formed
lines. -/
theorem wellFormed_run_loadString (text : Bytes) {term : Bytes}
    (hterm : IsTerminator term) {edits : List Edit}
    (hedits : ∀ e ∈ edits, e.LineArgument) :
    WellFormed
      (run Buffer.edit edits ((Buffer.new term).loadString text)).lines :=
  (sound_run hedits (sound_loadString text hterm)).lines

/-- A text with three kinds of terminators under edits of its last line. -/
theorem wellFormed_run_loadString_mixed :
    WellFormed (run Buffer.edit
      [.insertLine 4 [98], .insert 9 1 [97, CR], .remove 1 1 3 1, .removeLine 2]
      ((Buffer.new [CR, LF]).loadString [97, LF, 98, CR, 99, CR, LF])).lines :=
  wellFormed_run_loadString _ (Or.inr (Or.inr rfl)) (by
    intro e he
    simp only [List.mem_cons, List.not_mem_nil, or_false] at he
    rcases he with rfl | rfl | rfl | rfl
    · exact Or.inl (by decide)
    · trivial
    · trivial
    · trivial)

/-!
## Splitting a string into lines

The iteration over the lines of a string ends, and its pieces are the string cut
after each terminator, a `\r` with a `\n` after it being one terminator.  What a
buffer saves is thus what was loaded.
-/

/-! ### The iteration -/

/-- A whole iteration of `next_line` from an index: the values it returns up to
the nil at the end. -/
inductive Iterates (s : Bytes) : Int → List (Int × Int) → Prop
  | done {i : Int} (h : nextLine s i = none) : Iterates s i []
  | step {i j i' : Int} {rest : List (Int × Int)} (h : nextLine s i = some (j, i'))
      (hrest : Iterates s j rest) : Iterates s i ((j, i') :: rest)

theorem iterates_linesFrom (s : Bytes) {fuel : ℕ} {i : Int} (hi : 1 ≤ i)
    (hfuel : s.length + 2 - i ≤ fuel) : Iterates s i (linesFrom s fuel i) := by
  induction fuel generalizing i with
  | zero => exact Iterates.done (if_pos (by omega))
  | succ fuel ih =>
      cases h : nextLine s i with
      | none =>
          rw [linesFrom_of_none h]
          exact Iterates.done h
      | some p =>
          have hlt := (lt_of_nextLine hi h).1
          rw [linesFrom_of_some h]
          exact Iterates.step h (ih (by omega) (by omega))

/-- The iteration over the lines of a string ends. -/
theorem iterates_lines (s : Bytes) : Iterates s 1 (lines s) := by
  refine iterates_linesFrom s (le_refl 1) ?_
  push_cast
  omega

/-! ### The pieces -/

/-- A `\r` at the end of a piece and a `\n` at the start of the next one. -/
def SplitsPair (l l' : Bytes) : Prop := l.getLast? = some CR ∧ l'.head? = some LF

theorem head?_lineStrings {s first : Bytes} {rest : List Bytes}
    (h : lineStrings s = first :: rest) {c : UInt8} (hc : first.head? = some c) :
    s.head? = some c := by
  rw [← flatten_lineStrings s, h, List.flatten_cons, List.head?_append, hc, Option.some_or]

theorem IsTerminator.eq_of_getLast? {t : Bytes} (ht : IsTerminator t) {body : Bytes}
    (h : (body ++ t).getLast? = some CR) : t = [CR] := by
  rcases ht with rfl | rfl | rfl
  · simp [LF, CR] at h
  · rfl
  · simp [LF, CR] at h

/-- No pair of a `\r` and a `\n` is cut in two. -/
theorem not_splitsPair_lineStrings (s : Bytes) :
    (lineStrings s).IsChain fun l l' => ¬ SplitsPair l l' := by
  induction s using lineInduction with
  | plain s h =>
      rw [lineStrings_plain h]
      exact List.IsChain.singleton s
  | line body t rest hbody ht hcr ih =>
      obtain ⟨first, rest', hrest⟩ := List.exists_cons_of_ne_nil (lineStrings_ne_nil rest)
      rw [hrest] at ih
      rw [lineStrings_line rest hbody ht hcr, hrest, List.isChain_cons_cons]
      refine ⟨?_, ih⟩
      rintro ⟨hlast, hhead⟩
      exact hcr (ht.eq_of_getLast? hlast) (head?_lineStrings hrest hhead)

/-- What is saved: the empty lines that are not written add nothing. -/
theorem flatten_save (b : Buffer) : b.save.flatten = b.lines.flatten := by
  rw [Buffer.save]
  induction b.lines with
  | nil => rfl
  | cons l lines ih =>
      by_cases hl : l = []
      · simpa [hl] using ih
      · simpa [hl] using ih

/-- The iterated pieces partition the string at its terminators, and saving a
buffer loaded from the string writes the string back. -/
theorem lines_partition (s : Bytes) (b : Buffer) :
    Iterates s 1 (lines s) ∧
      (lineStrings s).flatten = s ∧
      (∃ init last, lineStrings s = init ++ [last] ∧
        (∀ l ∈ init, TerminatedLine l) ∧ Plain last) ∧
      ((lineStrings s).IsChain fun l l' => ¬ SplitsPair l l') ∧
      (b.loadString s).save.flatten = s := by
  refine ⟨iterates_lines s, flatten_lineStrings s, ?_, not_splitsPair_lineStrings s, ?_⟩
  · obtain ⟨init, last, hsplit⟩ := List.eq_nil_or_concat' (lineStrings s)
      |>.resolve_left (lineStrings_ne_nil s)
    have hwf := wellFormed_lineStrings s
    rw [hsplit, wellFormed_append (List.cons_ne_nil _ _)] at hwf
    exact ⟨init, last, hsplit, hwf.1, wellFormed_singleton.mp hwf.2⟩
  · rw [flatten_save, lines_loadString, flatten_lineStrings]

/-!
## Loading a text in chunks

`_load_stream` is meant to stitch the first line of a chunk to the last line
of the chunk before it.  It stores the stitched line in a table that does not
exist, and it does not stitch at all when the chunk before ends in a
terminator, which leaves an empty line in the middle of the text.
-/

namespace Buffer

/-- The lines of a chunk are appended when there is no line to stitch them
to. -/
theorem loadChunk_append {s0 : Option Bytes} (h : s0 = none ∨ s0 = some [])
    (pieces lines : List Bytes) :
    loadChunk s0 pieces lines = .ok (lines ++ pieces) := by
  induction pieces generalizing lines with
  | nil => simp [loadChunk]
  | cons s rest ih =>
      have hrest := ih (lines ++ [s])
      rcases h with rfl | rfl
      · simpa [loadChunk] using hrest
      · simpa [loadChunk] using hrest

/-- The first line of a chunk cannot be stitched to a line. -/
theorem loadChunk_stitch {s0 : Bytes} (h : s0 ≠ []) {pieces : List Bytes}
    (hpieces : pieces ≠ []) (lines : List Bytes) :
    loadChunk (some s0) pieces lines = .error .nilIndex := by
  obtain ⟨c, s, rfl⟩ := List.exists_cons_of_ne_nil h
  obtain ⟨first, rest, rfl⟩ := List.exists_cons_of_ne_nil hpieces
  rfl

/-- What is loaded stays in front of what is loaded later. -/
theorem append_of_loadChunk {s0 : Option Bytes} {pieces lines result : List Bytes}
    (h : loadChunk s0 pieces lines = .ok result) :
    ∃ added, result = lines ++ added := by
  induction pieces generalizing lines with
  | nil =>
      cases h
      exact ⟨[], by simp⟩
  | cons s rest ih =>
      simp only [loadChunk] at h
      split at h
      · cases h
      · obtain ⟨added, hadded⟩ := ih h
        exact ⟨s :: added, by simp [hadded]⟩

theorem append_of_loadChunks {chunks lines result : List Bytes}
    (h : loadChunks chunks lines = .ok result) :
    ∃ added, result = lines ++ added := by
  induction chunks generalizing lines with
  | nil =>
      cases h
      exact ⟨[], by simp⟩
  | cons s chunks ih =>
      cases hchunk : loadChunk lines.getLast? (lineStrings s) lines with
      | error e => simp [loadChunks, hchunk, bind, Except.bind] at h
      | ok next =>
          simp only [loadChunks, hchunk, bind, Except.bind] at h
          obtain ⟨added, hadded⟩ := append_of_loadChunk hchunk
          obtain ⟨added', hadded'⟩ := ih h
          exact ⟨added ++ added', by rw [hadded', hadded, List.append_assoc]⟩

theorem loadChunks_single (s : Bytes) :
    loadChunks [s] [] = .ok (lineStrings s) := by
  simp [loadChunks, loadChunk_append (Or.inl rfl), bind, Except.bind]

/-- A second chunk makes loading fail, or it leaves lines that are not well
formed. -/
theorem not_wellFormed_of_loadChunks {s s' : Bytes} {chunks result : List Bytes}
    (h : loadChunks (s :: s' :: chunks) [] = .ok result) :
    result ≠ [] ∧ ¬ WellFormed result := by
  simp only [loadChunks, List.getLast?_nil, loadChunk_append (Or.inl rfl),
    List.nil_append, bind, Except.bind] at h
  obtain ⟨init, last, hsplit⟩ := List.eq_nil_or_concat' (lineStrings s)
    |>.resolve_left (lineStrings_ne_nil s)
  rw [hsplit, List.getLast?_concat] at h
  by_cases hlast : last = []
  · subst hlast
    rw [loadChunk_append (Or.inr rfl)] at h
    obtain ⟨added, hadded⟩ := append_of_loadChunks h
    have hresult : result = (init ++ [[]]) ++ (lineStrings s' ++ added) := by
      rw [hadded, List.append_assoc]
    rw [hresult]
    refine ⟨by simp, ?_⟩
    intro hwf
    apply hwf.nil_notMem_of_append
    · simp [lineStrings_ne_nil]
    · simp
  · rw [loadChunk_stitch hlast (lineStrings_ne_nil s')] at h
    cases h

theorem loadStream_of_ok {chunks lines : List Bytes}
    (h : loadChunks chunks [] = .ok lines) (b : Buffer) :
    loadStream chunks b = .ok () (init lines b) := by
  rw [loadStream, h]
  rfl

theorem loadStream_of_error {chunks : List Bytes} {e : Error}
    (h : loadChunks chunks [] = .error e) (b : Buffer) :
    loadStream chunks b = .error e b := by
  rw [loadStream, h]
  rfl

/-- Loading a text from a stream gives the lines of the text exactly when the
stream delivers it in at most one chunk. -/
theorem loadStream_iff (b : Buffer) (chunks : List Bytes) :
    Returns (loadStream chunks) b ∧
        (finalState (loadStream chunks) b).lines =
          (b.loadString chunks.flatten).lines ↔
      chunks.length ≤ 1 := by
  rw [lines_loadString]
  match chunks with
  | [] =>
      have hok : loadStream [] b = _ := loadStream_of_ok rfl b
      rw [finalState_of_ok hok]
      simp only [returns_of_ok hok, true_and, List.length_nil, Nat.zero_le,
        iff_true]
      rfl
  | [s] =>
      have hok := loadStream_of_ok (loadChunks_single s) b
      rw [finalState_of_ok hok]
      simp only [returns_of_ok hok, true_and, List.length_singleton, le_refl,
        iff_true, List.flatten_cons, List.flatten_nil, List.append_nil]
      exact lines_loadString s b
  | s :: s' :: rest =>
      have hlen : ¬ (s :: s' :: rest).length ≤ 1 := by simp
      simp only [hlen, iff_false, not_and]
      intro hreturns hlines
      cases hload : loadChunks (s :: s' :: rest) [] with
      | error e =>
          exact not_returns_of_error (loadStream_of_error hload b) hreturns
      | ok lines =>
          obtain ⟨hne, hbad⟩ := not_wellFormed_of_loadChunks hload
          have hinit : (init lines b).lines = lines := if_neg hne
          rw [finalState_of_ok (loadStream_of_ok hload b), hinit] at hlines
          rw [hlines] at hbad
          exact hbad (wellFormed_lineStrings _)

/-- The chunk ends inside a line, and the chunk ends in a terminator. -/
theorem loadStream_two_chunks :
    let b := new [LF]
    ¬ Returns (loadStream [[97], [98]]) b ∧
      Returns (loadStream [[97, LF], [98]]) b ∧
      (finalState (loadStream [[97, LF], [98]]) b).lines =
        [[97, LF], [], [98]] ∧
      (b.loadString [97, LF, 98]).lines = [[97, LF], [98]] := by
  simp only [← returnsCheck_eq_true_iff]
  decide

end Buffer

end LuaAttic.Codedit
