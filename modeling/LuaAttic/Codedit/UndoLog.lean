import LuaAttic.Codedit.Commands

/-!
# Edits in an open undo group

Every public edit is made of the three low-level commands, so whatever one
command keeps of the undo log an edit keeps as well, also when it raises
half-way.  The one thing that an edit does not always keep is that the log can
be replayed: an insertion at the first line records a command that asserts.
-/

namespace LuaAttic.Codedit

open LuaAttic.Support LuaAttic.Lua Cmd

/-- The stacks are untouched, an open group keeps its log, and under the
condition `p` a log that can be replayed remains so. -/
structure Logged (p : Prop) (b b' : Buffer) : Prop where
  undoStack : b'.undoStack = b.undoStack
  redoStack : b'.redoStack = b.redoStack
  noGroup : b.undoGroup = none → b'.undoGroup = none
  group : ∀ g, b.undoGroup = some g →
    ∃ log, b'.undoGroup = some { g with cmds := log } ∧
      recorder.LogStep (b.lines, g.cmds) (b'.lines, log) ∧
      (p → (∀ d ∈ g.cmds, Replayable d) → ∀ d ∈ log, Replayable d)

instance (p : Prop) : IsPreorder Buffer (Logged p) where
  refl b := by
    refine ⟨rfl, rfl, id, fun g hg => ⟨g.cmds, hg, ?_, fun _ => id⟩⟩
    exact refl_of recorder.LogStep _
  trans a b c h k := by
    refine ⟨k.undoStack.trans h.undoStack, k.redoStack.trans h.redoStack,
      k.noGroup ∘ h.noGroup, ?_⟩
    intro g hg
    obtain ⟨log, hlog, hstep, hkeep⟩ := h.group g hg
    obtain ⟨log', hlog', hstep', hkeep'⟩ := k.group _ hlog
    exact ⟨log', hlog', trans_of recorder.LogStep hstep hstep',
      fun hp => hkeep' hp ∘ hkeep hp⟩

namespace Buffer

variable {p : Prop}

/-- A method that changes neither the lines nor the history keeps the log. -/
theorem logged_of_same {b b' : Buffer} (hlines : b'.lines = b.lines)
    (hundo : b'.undoStack = b.undoStack) (hredo : b'.redoStack = b.redoStack)
    (hgroup : b'.undoGroup = b.undoGroup) : Logged p b b' := by
  refine ⟨hundo, hredo, fun h => hgroup.trans h, ?_⟩
  intro g hg
  refine ⟨g.cmds, hgroup.trans hg, ?_, fun _ => id⟩
  rw [hlines]
  exact refl_of recorder.LogStep _

theorem relates_invalidate (b : Buffer) :
    Relates (Logged p) (modify invalidate : Program Buffer Unit) b :=
  logged_of_same rfl rfl rfl rfl

theorem relates_call {c : Cmd} (hc : p → Invertible c) (b : Buffer) :
    Relates (Logged p) (call c) b := by
  cases h : exec c b.lines with
  | none =>
      rw [Relates, finalState_of_error (call_of_fail h)]
      exact refl_of (Logged p) b
  | some t =>
      obtain ⟨ht, hcall⟩ := call_of_exec h
      rw [Relates, finalState_of_ok hcall]
      refine ⟨rfl, rfl, fun hg => by simp [advance, hg], ?_⟩
      intro g hg
      exact ⟨record c b.lines g.cmds, by simp [advance, hg],
        recorder.logStep_of_exec h g.cmds, fun hp => replayable_record (hc hp)⟩

theorem relates_ins {line : Int} (h : p → 2 ≤ line) (s : Bytes) (b : Buffer) :
    Relates (Logged p) (ins line s) b :=
  relates_call (c := .ins line s) h b

theorem relates_rem (line : Int) (b : Buffer) : Relates (Logged p) (rem line) b :=
  relates_call (c := .rem line) (fun _ => trivial) b

theorem relates_upd (line : Int) (s : Bytes) (b : Buffer) :
    Relates (Logged p) (upd line s) b :=
  relates_call (c := .upd line s) (fun _ => trivial) b

theorem relates_terminateLine (line : Int) (b : Buffer) :
    Relates (Logged p) (terminateLine line) b := by
  refine Relates.get_bind ?_
  cases b.lineAt line with
  | none => exact Relates.throw _ b
  | some s => exact relates_upd line _ b

theorem relates_insertLine {line : Int} (h : p → 2 ≤ line) (s : Bytes)
    (b : Buffer) : Relates (Logged p) (insertLine line s) b := by
  refine Relates.get_bind (Relates.bind ?_ fun _ t _ => relates_invalidate t)
  by_cases hline : line ≤ b.lines.length
  · rw [if_pos hline]
    exact relates_ins h _ b
  · rw [if_neg hline]
    refine Relates.bind ?_ fun _ t _ => relates_ins h _ t
    by_cases hfirst : 1 < line
    · rw [if_pos hfirst]
      exact relates_terminateLine _ b
    · rw [if_neg hfirst]
      exact Relates.pure _ b

theorem relates_removeLine (line : Int) (b : Buffer) :
    Relates (Logged p) (removeLine line) b := by
  refine Relates.bind (relates_rem line b) fun _ t _ => ?_
  refine Relates.get_bind (Relates.bind ?_ fun _ u _ => relates_invalidate u)
  by_cases hlast : (t.lines.length : Int) = line - 1
  · rw [if_pos hlast]
    exact relates_upd _ _ t
  · rw [if_neg hlast]
    exact Relates.pure _ t

theorem relates_setline (line : Int) (s : Bytes) (b : Buffer) :
    Relates (Logged p) (setline line s) b := by
  refine Relates.get_bind ?_
  exact Relates.bind (relates_upd line _ b) fun _ t _ => relates_invalidate t

theorem relates_moveLine (line1 line2 : Int) (b : Buffer) :
    Relates (Logged p) (moveLine line1 line2) b := by
  refine Relates.get_bind ?_
  cases b.lineAt line1 with
  | none => exact Relates.pure _ b
  | some s1 =>
      cases b.lineAt line2 with
      | none => exact Relates.pure _ b
      | some s2 =>
          exact Relates.bind (relates_setline line1 s2 b)
            fun _ t _ => relates_setline line2 s1 t

theorem two_le_length_succ (b : Buffer) : 2 ≤ (b.lines.length : Int) + 1 := by
  have hpos := List.length_pos_of_ne_nil b.linesNonempty
  omega

theorem relates_appendLines (line : Int) (fuel : ℕ) (b : Buffer) :
    Relates (Logged p) (appendLines line fuel) b := by
  induction fuel generalizing b with
  | zero => exact Relates.pure _ b
  | succ fuel ih =>
      refine Relates.get_bind ?_
      by_cases hline : line > b.lines.length
      · rw [if_pos hline]
        exact Relates.bind
          (relates_insertLine (fun _ => two_le_length_succ b) _ b)
          fun _ t _ => ih t
      · rw [if_neg hline]
        exact Relates.pure _ b

theorem relates_extend (line i : Int) (b : Buffer) :
    Relates (Logged p) (extend line i) b := by
  refine Relates.get_bind ?_
  refine Relates.bind (relates_appendLines _ _ b) fun _ t _ => ?_
  refine Relates.get_bind ?_
  cases t.eol (if line < 1 then 1 else line) with
  | none => exact Relates.throw _ t
  | some eol =>
      by_cases hi : (if i < 1 then 1 else i) > eol
      · simp only [if_pos hi]
        exact relates_setline _ _ t
      · simp only [if_neg hi]
        exact Relates.pure _ t

theorem relates_insertLines {line : Int} (h : 1 ≤ line) (rest : List Bytes)
    (b : Buffer) : Relates (Logged p) (insertLines line rest) b := by
  induction rest generalizing line b with
  | nil => exact Relates.pure _ b
  | cons s rest ih =>
      exact Relates.bind (relates_insertLine (fun _ => by omega) s b)
        fun _ t _ => ih (by omega) t

/-- A line number that `setline` accepts is that of a line. -/
theorem range_of_setline_ok {line : Int} {s : Bytes} {b b' : Buffer}
    (h : setline line s b = .ok () b') :
    1 ≤ line ∧ line ≤ b.lines.length := by
  by_contra hnot
  have hfail : upd line (if line = b.lines.length then Str.removeTerm s
      else Str.addTerm s b.lineTerminator) b = .error .assertionFailed b :=
    call_of_fail (c := .upd line _) (if_neg hnot)
  rw [setline, get_bind_apply, bind_of_error hfail] at h
  cases h

theorem relates_setLines (line : Int) (pieces : List Bytes) (b : Buffer) :
    Relates (Logged p) (setLines line pieces) b := by
  cases pieces with
  | nil => exact Relates.pure _ b
  | cons first rest =>
      refine Relates.bind (relates_setline line first b) fun _ t hok => ?_
      exact relates_insertLines (range_of_setline_ok hok).1 rest t

theorem relates_insert (line i : Int) (s : Bytes) (b : Buffer) :
    Relates (Logged p) (insert line i s) b := by
  refine Relates.bind (relates_extend line i b) fun _ t _ => ?_
  refine Relates.get_bind ?_
  refine Relates.bind (relates_setLines line _ t) fun line' u _ => ?_
  refine Relates.get_bind ?_
  cases u.eol line' with
  | none => exact Relates.throw _ u
  | some eol => exact Relates.pure _ u

theorem relates_removeLines (line : Int) (n : ℕ) (b : Buffer) :
    Relates (Logged p) (removeLines line n) b := by
  induction n generalizing b with
  | zero => exact Relates.pure _ b
  | succ n ih =>
      exact Relates.bind (relates_removeLine _ b) fun _ t _ => ih t

theorem relates_remove (line1 i1 line2 i2 : Int) (b : Buffer) :
    Relates (Logged p) (remove line1 i1 line2 i2) b := by
  refine Relates.get_bind ?_
  exact Relates.bind (relates_removeLines _ _ b)
    fun _ t _ => relates_setline _ _ t

end Buffer

/-- The edit is not an insertion at the first line. -/
def Edit.Invertible : Edit → Prop
  | .insertLine line _ => 2 ≤ line
  | _ => True

/-- Every public edit keeps the log of the open group, whether it returns or
raises, and every edit but an insertion at the first line keeps it
replayable. -/
theorem Edit.relates_call {p : Prop} {e : Edit} (he : p → e.Invertible)
    (b : Buffer) : Relates (Logged p) e.call b := by
  cases e with
  | insertLine line s => exact Buffer.relates_insertLine he s b
  | removeLine line => exact Buffer.relates_removeLine line b
  | setline line s => exact Buffer.relates_setline line s b
  | moveLine line1 line2 => exact Buffer.relates_moveLine line1 line2 b
  | extend line i => exact Buffer.relates_extend line i b
  | insert line i s =>
      exact Relates.bind (Buffer.relates_insert line i s b)
        fun _ t _ => Relates.pure _ t
  | remove line1 i1 line2 i2 =>
      exact Buffer.relates_remove line1 i1 line2 i2 b

/-- Nothing has changed, or edits that can all be undone were made after a
group had been started. -/
def OneGroup (b b' : Buffer) : Prop :=
  b' = b ∨ ∃ type, Logged True (b.startUndoGroup type) b'

end LuaAttic.Codedit
