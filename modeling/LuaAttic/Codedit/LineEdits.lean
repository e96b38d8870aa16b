import LuaAttic.Codedit.Commands
import LuaAttic.Codedit.Positions

/-!
# What the line-level edits do to the lines

Each of the low-level commands and of the methods `insert_line`, `remove_line`
and `setline` is described around the line it is about: the lines before it,
the line, the lines after it.  Outside the range that a method accepts it
raises and leaves the buffer as it was.
-/

namespace LuaAttic.Codedit

open LuaAttic.Support LuaAttic.Lua Str

/-- The method returns `a` and leaves the lines `t`, with the line terminator
of the buffer unchanged. -/
def Yields {α : Type} (m : Program Buffer α) (b : Buffer) (a : α)
    (t : List Bytes) : Prop :=
  ∃ b', m b = .ok a b' ∧ b'.lines = t ∧ b'.lineTerminator = b.lineTerminator

section Yields

variable {α β : Type} {m : Program Buffer α} {b : Buffer} {a : α}
  {t : List Bytes}

theorem Yields.of_ok {b' : Buffer} (h : m b = .ok a b') (hlines : b'.lines = t)
    (hterm : b'.lineTerminator = b.lineTerminator) : Yields m b a t :=
  ⟨b', h, hlines, hterm⟩

theorem Yields.pure (a : α) (b : Buffer) :
    Yields (Pure.pure a) b a b.lines :=
  ⟨b, rfl, rfl, rfl⟩

theorem Yields.returns (h : Yields m b a t) : Returns m b := by
  obtain ⟨b', hok, -, -⟩ := h
  exact returns_of_ok hok

theorem Yields.lines (h : Yields m b a t) : (finalState m b).lines = t := by
  obtain ⟨b', hok, hlines, -⟩ := h
  rw [finalState_of_ok hok, hlines]

theorem Yields.lineTerminator (h : Yields m b a t) :
    (finalState m b).lineTerminator = b.lineTerminator := by
  obtain ⟨b', hok, -, hterm⟩ := h
  rw [finalState_of_ok hok, hterm]

theorem Yields.bind {f : α → Program Buffer β} {a' : β} {t' : List Bytes}
    (h : Yields m b a t)
    (hf : ∀ b', b'.lines = t → b'.lineTerminator = b.lineTerminator →
      Yields (f a) b' a' t') :
    Yields (m >>= f) b a' t' := by
  obtain ⟨b', hok, hlines, hterm⟩ := h
  obtain ⟨b'', hok', hlines', hterm'⟩ := hf b' hlines hterm
  exact ⟨b'', by rw [bind_of_ok hok, hok'], hlines', hterm'.trans hterm⟩

/-- A method that returns and does nothing. -/
theorem Yields.ok_bind {f : α → Program Buffer β} {a' : β} {t' : List Bytes}
    (h : m b = .ok a b) (hf : Yields (f a) b a' t') :
    Yields (m >>= f) b a' t' := by
  obtain ⟨b', hok, hrest⟩ := hf
  exact ⟨b', by rw [bind_of_ok h, hok], hrest⟩

theorem Yields.get_bind {f : Buffer → Program Buffer α}
    (h : Yields (f b) b a t) : Yields (get >>= f) b a t := h

end Yields

namespace Buffer

variable {b : Buffer} {line : Int} {pre post : List Bytes} {x y : Bytes}

theorem yields_invalidate (b : Buffer) :
    Yields (modify invalidate : Program Buffer Unit) b () b.lines :=
  ⟨_, rfl, rfl, rfl⟩

theorem yields_call {c : Cmd} {t : List Bytes} (h : Cmd.exec c b.lines = some t) :
    Yields (call c) b () t := by
  obtain ⟨ht, hcall⟩ := call_of_exec h
  exact ⟨_, hcall, rfl, rfl⟩

/-! ## The low-level commands -/

theorem yields_ins (h : b.lines = pre ++ post) (hline : line = pre.length + 1)
    (s : Bytes) : Yields (ins line s) b () (pre ++ s :: post) := by
  subst hline
  apply yields_call (c := .ins (pre.length + 1) s)
  rw [h, Cmd.exec_ins s (by simp only [List.length_append]; omega),
    tableInsert_split]

theorem yields_rem (h : b.lines = pre ++ x :: post)
    (hline : line = pre.length + 1) (hpre : pre ≠ []) :
    Yields (rem line) b () (pre ++ post) := by
  subst hline
  apply yields_call (c := .rem (pre.length + 1))
  have hpos := List.length_pos_of_ne_nil hpre
  rw [h, Cmd.exec_rem (by
    simp only [List.length_append, List.length_cons]
    omega), tableRemove_split]

theorem yields_upd (h : b.lines = pre ++ x :: post)
    (hline : line = pre.length + 1) (s : Bytes) :
    Yields (upd line s) b () (pre ++ s :: post) := by
  subst hline
  apply yields_call (c := .upd (pre.length + 1) s)
  rw [h, Cmd.exec_upd s (range_split pre x post), tableSet_split]

theorem upd_out (h : ¬ (1 ≤ line ∧ line ≤ b.lines.length)) (s : Bytes) :
    upd line s b = .error .assertionFailed b :=
  call_of_fail (c := .upd line s) (if_neg h)

theorem rem_out (h : ¬ (2 ≤ line ∧ line ≤ b.lines.length)) :
    rem line b = .error .assertionFailed b :=
  call_of_fail (c := .rem line) (if_neg h)

theorem ins_out (h : ¬ (1 ≤ line ∧ line ≤ b.lines.length + 1)) (s : Bytes) :
    ins line s b = .error .assertionFailed b :=
  call_of_fail (c := .ins line s) (if_neg h)

/-! ## `setline` -/

/-- The text that a line gets from `setline`, which depends on whether there
are lines after it. -/
def stored (lineTerminator s : Bytes) (post : List Bytes) : Bytes :=
  if post = [] then removeTerm s else addTerm s lineTerminator

theorem yields_setline (h : b.lines = pre ++ x :: post)
    (hline : line = pre.length + 1) (s : Bytes) :
    Yields (setline line s) b ()
      (pre ++ stored b.lineTerminator s post :: post) := by
  have hlast : line = b.lines.length ↔ post = [] := by
    rw [h, hline, List.length_append, List.length_cons, ← List.length_eq_zero_iff]
    omega
  refine Yields.get_bind (Yields.bind (yields_upd h hline _) ?_)
  intro b' hlines _
  have htext : (if line = b.lines.length then removeTerm s
      else addTerm s b.lineTerminator) = stored b.lineTerminator s post := by
    simp only [stored, hlast]
  rw [htext] at hlines
  rw [← hlines]
  exact yields_invalidate b'

theorem setline_out (h : ¬ (1 ≤ line ∧ line ≤ b.lines.length)) (s : Bytes) :
    setline line s b = .error .assertionFailed b := by
  rw [setline, get_bind_apply, bind_of_error (upd_out h _)]

/-! ## `insert_line` -/

/-- Before a line the new line gets a terminator. -/
theorem yields_insertLine (h : b.lines = pre ++ post) (hpost : post ≠ [])
    (hline : line = pre.length + 1) (s : Bytes) :
    Yields (insertLine line s) b ()
      (pre ++ addTerm s b.lineTerminator :: post) := by
  have hpos := List.length_pos_of_ne_nil hpost
  have hle : line ≤ b.lines.length := by
    rw [h, List.length_append]
    omega
  refine Yields.get_bind ?_
  rw [if_pos hle]
  refine Yields.bind (yields_ins h hline _) ?_
  intro b' hlines _
  rw [← hlines]
  exact yields_invalidate b'

/-- After the last line, that line gets the terminator. -/
theorem yields_insertLine_last (h : b.lines = pre ++ [x])
    (hline : line = pre.length + 2) (s : Bytes) :
    Yields (insertLine line s) b ()
      (pre ++ [x ++ b.lineTerminator, removeTerm s]) := by
  have hprev : line - 1 = pre.length + 1 := by omega
  have hlt : ¬ line ≤ b.lines.length := by
    rw [h, List.length_append, List.length_singleton]
    omega
  have hget : b.lineAt (line - 1) = some x := by
    rw [hprev]
    exact lineAt_split h
  have hterm : Yields (terminateLine (line - 1)) b ()
      (pre ++ [x ++ b.lineTerminator]) := by
    refine Yields.get_bind ?_
    rw [hget]
    exact yields_upd h hprev _
  refine Yields.get_bind ?_
  rw [if_neg hlt, if_pos (by omega)]
  refine Yields.bind (Yields.bind hterm ?_) (a := ()) (t :=
    pre ++ [x ++ b.lineTerminator, removeTerm s]) ?_
  · intro b' hlines _
    have hsplit : b'.lines = pre ++ [x ++ b.lineTerminator] ++ [] := by
      rw [hlines, List.append_nil]
    have hafter : line =
        ((pre ++ [x ++ b.lineTerminator]).length : Int) + 1 := by
      simp only [List.length_append, List.length_singleton]
      omega
    have hins := yields_ins hsplit hafter (removeTerm s)
    simpa using hins
  · intro b' hlines _
    rw [← hlines]
    exact yields_invalidate b'

/-- An accepted line number is that of a line, or the one after the last. -/
theorem insertLine_cases (h : 1 ≤ line ∧ line ≤ b.lines.length + 1)
    (s : Bytes) :
    (∃ pre post, b.lines = pre ++ post ∧ post ≠ [] ∧
      Yields (insertLine line s) b ()
        (pre ++ addTerm s b.lineTerminator :: post)) ∨
    (∃ pre x, b.lines = pre ++ [x] ∧
      Yields (insertLine line s) b ()
        (pre ++ [x ++ b.lineTerminator, removeTerm s])) := by
  by_cases hle : line ≤ b.lines.length
  · left
    obtain ⟨pre, x, post, hsplit, hline⟩ :=
      exists_split_of_range (And.intro h.1 hle)
    have hne := List.cons_ne_nil x post
    exact ⟨pre, _, hsplit, hne, yields_insertLine hsplit hne hline s⟩
  · right
    obtain ⟨pre, x, hsplit⟩ :=
      List.eq_nil_or_concat' b.lines |>.resolve_left b.linesNonempty
    have hline : line = pre.length + 2 := by
      rw [hsplit, List.length_append, List.length_singleton] at hle h
      omega
    exact ⟨pre, x, hsplit, yields_insertLine_last hsplit hline s⟩

theorem insertLine_out (h : ¬ (1 ≤ line ∧ line ≤ b.lines.length + 1))
    (s : Bytes) : ∃ e, insertLine line s b = .error e b := by
  rw [insertLine, get_bind_apply]
  by_cases hle : line ≤ b.lines.length
  · rw [if_pos hle]
    exact ⟨_, bind_of_error (ins_out h _)⟩
  · have hpos := List.length_pos_of_ne_nil b.linesNonempty
    have hnone : b.lineAt (line - 1) = none :=
      (tableGet_eq_none_iff _ _).mpr (by omega)
    have hterm : terminateLine (line - 1) b = .error .nilConcat b := by
      rw [terminateLine, get_bind_apply, hnone]
      rfl
    rw [if_neg hle, if_pos (by omega)]
    exact ⟨_, bind_of_error (bind_of_error hterm)⟩

/-! ## `remove_line` -/

theorem yields_removeLine (h : b.lines = pre ++ x :: post) (hpre : pre ≠ [])
    (hpost : post ≠ []) (hline : line = pre.length + 1) :
    Yields (removeLine line) b () (pre ++ post) := by
  refine Yields.bind (yields_rem h hline hpre) ?_
  intro b' hlines _
  have hpos := List.length_pos_of_ne_nil hpost
  have hlast : ¬ (b'.lines.length : Int) = line - 1 := by
    rw [hlines, List.length_append]
    omega
  refine Yields.get_bind ?_
  rw [if_neg hlast]
  refine Yields.bind (Yields.pure () b') ?_
  intro b'' hlines' _
  rw [← hlines, ← hlines']
  exact yields_invalidate b''

/-- When the last line is removed the line before it loses its terminator. -/
theorem yields_removeLine_last (h : b.lines = pre ++ [y, x])
    (hline : line = pre.length + 2) :
    Yields (removeLine line) b () (pre ++ [contents y]) := by
  have hsplit : b.lines = (pre ++ [y]) ++ x :: [] := by simp [h]
  refine Yields.bind (yields_rem hsplit (by
    simp only [List.length_append, List.length_singleton]
    omega) (by simp)) ?_
  intro b' hlines _
  rw [List.append_nil] at hlines
  have hprev : line - 1 = pre.length + 1 := by omega
  have hlast : (b'.lines.length : Int) = line - 1 := by
    rw [hlines, List.length_append, List.length_singleton]
    omega
  have hget : b'.lineAt (line - 1) = some y := by
    rw [hprev]
    exact lineAt_split hlines
  refine Yields.get_bind ?_
  rw [if_pos hlast, selectLine_of_lineAt hget]
  refine Yields.bind (yields_upd hlines hprev _) ?_
  intro b'' hlines' _
  rw [← hlines']
  exact yields_invalidate b''

/-- An accepted line number is that of the last line, or of a line between
two others. -/
theorem removeLine_cases (h : 2 ≤ line ∧ line ≤ b.lines.length) :
    (∃ pre x post, b.lines = pre ++ x :: post ∧ post ≠ [] ∧
      Yields (removeLine line) b () (pre ++ post)) ∨
    (∃ pre y x, b.lines = pre ++ [y, x] ∧
      Yields (removeLine line) b () (pre ++ [contents y])) := by
  obtain ⟨pre, x, post, hsplit, hline⟩ :=
    exists_split_of_range (t := b.lines) (i := line) (by omega)
  have hpre : pre ≠ [] := by
    rintro rfl
    simp only [List.length_nil] at hline
    omega
  by_cases hpost : post = []
  · right
    subst hpost
    obtain ⟨init, y, rfl⟩ := List.eq_nil_or_concat' pre |>.resolve_left hpre
    rw [List.append_assoc, List.singleton_append] at hsplit
    rw [List.length_append, List.length_singleton] at hline
    exact ⟨init, y, x, hsplit, yields_removeLine_last hsplit (by omega)⟩
  · left
    exact ⟨pre, x, post, hsplit, hpost,
      yields_removeLine hsplit hpre hpost hline⟩

theorem removeLine_out (h : ¬ (2 ≤ line ∧ line ≤ b.lines.length)) :
    removeLine line b = .error .assertionFailed b := by
  rw [removeLine, bind_of_error (rem_out h)]

end Buffer

end LuaAttic.Codedit
