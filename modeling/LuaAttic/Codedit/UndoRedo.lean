import LuaAttic.Codedit.Session

/-!
# What undo and redo guarantee

The results of this module are about whole sessions.  Undo and redo walk
through the noted texts as long as no undo replays a group that takes back an
insertion at the first line, which asserts, or a group whose commands all find
their text in place, which records no inverse.  Redo is another matter once an
edit has been recorded after an undo: the redo stack still holds the groups of
the abandoned branch.
-/

namespace LuaAttic.Codedit

open LuaAttic.Support LuaAttic.Lua Cmd

/-- A fresh buffer with a text loaded into it. -/
def loaded (lineTerminator text : Bytes) : Buffer :=
  (Buffer.new lineTerminator).loadString text

namespace Session

theorem consistent_loaded (lineTerminator text : Bytes) :
    (start (loaded lineTerminator text)).Consistent :=
  consistent_start rfl rfl rfl

/-! ## Undoing and redoing several groups -/

/-- Edits are made inside undo groups, and undo replays neither a command that
removes the first line nor a group that finds its text in place. -/
def Reversible (s : Session) : Request → Prop
  | .edit _ => s.buffer.undoGroup ≠ none
  | .undo => s.buffer.UndoReplayable ∧ ¬ s.buffer.UndoInPlace
  | _ => True

instance (s : Session) (r : Request) : Decidable (s.Reversible r) :=
  match r with
  | .edit _ => inferInstanceAs (Decidable (¬ _))
  | .undo => inferInstanceAs (Decidable (_ ∧ _))
  | .startUndoGroup _ | .endUndoGroup | .redo => .isTrue trivial

theorem Reversible.served {s : Session} {r : Request} (h : s.Reversible r) :
    s.Served r := by
  cases r with
  | edit e => exact h
  | undo => exact ⟨h.1, fun hskip => h.2 hskip.2⟩
  | startUndoGroup type => trivial
  | endUndoGroup => trivial
  | redo => trivial

theorem close_history_of_openLog {s : Session} (h : s.buffer.openLog = []) :
    s.close.history = s.history := by
  simp [history, close, h]

theorem openLog_undo {s : Session} (h : s.Consistent)
    (hplay : s.buffer.UndoReplayable) :
    (s.step .undo).buffer.openLog = [] := by
  apply Buffer.openLog_of_none
  cases hstack : s.buffer.endUndoGroup.undoStack with
  | nil =>
      rw [step_undo_of_nil h hstack]
      exact s.buffer.endUndoGroup_undoGroup
  | cons g rest =>
      obtain ⟨p, ps, -, -, hreplay, -⟩ := h.latest hplay hstack
      obtain ⟨ht, hok⟩ := Buffer.undo_of_replay hstack hreplay
      rw [step_undo_of_ok hok]
      unfold Buffer.moveToRedo
      split <;> rfl

/-- Undoing `k` times is `k` steps back in the history. -/
theorem history_undos {s : Session} (h : s.Consistent) {k : ℕ}
    (hall : AllAllowed step Reversible (List.replicate k .undo) s) :
    (run step (List.replicate k .undo) s).close.history =
      History.undo^[k] s.close.history := by
  induction k generalizing s with
  | zero => rfl
  | succ k ih =>
      rw [List.replicate_succ, allAllowed_cons] at hall
      have hnext := consistent_step s .undo h hall.1.served
      rw [List.replicate_succ, run_cons, ih hnext hall.2,
        close_history_of_openLog (openLog_undo h hall.1.1),
        history_undo h hall.1.1 hall.1.2,
        Function.iterate_succ_apply]

/-- Redoing `k` times is `k` steps forward, as long as there is a future. -/
theorem sameAhead_redos {s : Session} (h : s.Consistent) {k : ℕ}
    (hk : k ≤ s.future.length) :
    History.SameAhead (run step (List.replicate k .redo) s).history
      (History.redo^[k] s.history) := by
  induction k generalizing s with
  | zero => exact ⟨rfl, rfl⟩
  | succ k ih =>
      have hfuture : s.future ≠ [] := by
        apply List.ne_nil_of_length_pos
        omega
      have hredo := sameAhead_redo h hfuture
      have hlength : k ≤ (s.step .redo).future.length := by
        simp only [step, List.length_tail]
        omega
      rw [List.replicate_succ, run_cons, Function.iterate_succ_apply]
      exact (ih (consistent_redo h) hlength).trans (hredo.iterate_redo k)

/-- The edits of one group keep the log that leads back to its start. -/
theorem logged_run {edits : List Edit} (hedits : ∀ e ∈ edits, e.Invertible)
    (b : Buffer) : Logged True b (run Buffer.edit edits b) := by
  induction edits generalizing b with
  | nil => exact refl_of (Logged True) b
  | cons e edits ih =>
      have hfirst : Logged True b (b.edit e) :=
        e.relates_call (fun _ => hedits e List.mem_cons_self) b
      have hrest := ih (fun d hd => hedits d (List.mem_cons_of_mem e hd))
        (b.edit e)
      exact trans_of (Logged True) hfirst hrest

/-- Replaying what the edits of a group have recorded gives back the text
before them, and replaying what that replay records gives back the text after
them. -/
theorem replay_restores {b : Buffer} {type : String}
    (hopen : b.undoGroup = some ⟨type, []⟩) {edits : List Edit}
    (hedits : ∀ e ∈ edits, e.Invertible) :
    ∃ log back b1 b2,
      (run Buffer.edit edits b).undoGroup = some ⟨type, log⟩ ∧
      Buffer.callAll log (Buffer.openGroup type (run Buffer.edit edits b)) =
        .ok () b1 ∧
      b1.lines = b.lines ∧ b1.undoGroup = some ⟨type, back⟩ ∧
      Buffer.callAll back (Buffer.openGroup type b1) = .ok () b2 ∧
      b2.lines = (run Buffer.edit edits b).lines := by
  obtain ⟨log, hlog, hstep, hkeep⟩ := (logged_run hedits b).group _ hopen
  generalize run Buffer.edit edits b = b' at *
  have hinv : ∀ c ∈ log, Invertible c := hstep.invertible (by simp)
  have hreplayable : ∀ c ∈ log, Replayable c := hkeep trivial (by simp)
  have hreplay : recorder.replay log b'.lines = some b.lines :=
    hstep.replay hreplayable
  have hback := recorder.replay_reach_of_replay hinv hreplay
  obtain ⟨ht, hfirst⟩ := Buffer.callAll_of_replay
    (b := Buffer.openGroup type b') hreplay
  obtain ⟨ht', hsecond⟩ := Buffer.callAll_of_replay
    (b := Buffer.openGroup type ((Buffer.openGroup type b').advance b.lines ht
      fun log' => (recorder.reach log b'.lines log').2)) hback
  exact ⟨log, _, _, _, hlog, hfirst, rfl, rfl, hsecond, rfl⟩

instance (e : Edit) : Decidable e.Invertible :=
  match e with
  | .insertLine line _ => inferInstanceAs (Decidable (2 ≤ line))
  | .removeLine _ | .setline _ _ | .moveLine _ _ | .extend _ _
  | .insert _ _ _ | .remove _ _ _ _ => .isTrue trivial

/-- Two updates of one line, of which the second is not recorded, among
edits that change the number of lines. -/
theorem replay_restores_coalesced :
    let b := Buffer.openGroup "type" (loaded [Str.LF] [97, Str.CR, 98])
    let b' := run Buffer.edit
      [.setline 1 [99], .setline 1 [100], .insert 3 2 [97, Str.LF],
        .removeLine 2, .moveLine 1 2] b
    ∃ log back b1 b2,
      b'.undoGroup = some ⟨"type", log⟩ ∧
      Buffer.callAll log (Buffer.openGroup "type" b') = .ok () b1 ∧
      b1.lines = b.lines ∧ b1.undoGroup = some ⟨"type", back⟩ ∧
      Buffer.callAll back (Buffer.openGroup "type" b1) = .ok () b2 ∧
      b2.lines = b'.lines :=
  replay_restores rfl (by decide)

/-! ## Undo and redo that raise -/

/-- Edits are made inside undo groups, undo neither replays a command that
removes the first line nor skips a group, and redo is called when the redo
stack is empty or when something has been undone since an edit was last
recorded. -/
def Safe (s : Session) : Request → Prop
  | .edit _ => s.buffer.undoGroup ≠ none
  | .undo => s.buffer.UndoReplayable ∧ ¬ s.buffer.UndoSkips
  | .redo => s.buffer.redoStack = [] ∨ s.future ≠ []
  | _ => True

instance (s : Session) (r : Request) : Decidable (s.Safe r) :=
  match r with
  | .edit _ => inferInstanceAs (Decidable (¬ _))
  | .undo => inferInstanceAs (Decidable (_ ∧ _))
  | .redo => inferInstanceAs (Decidable (_ ∨ _))
  | .startUndoGroup _ | .endUndoGroup => .isTrue trivial

theorem Safe.served {s : Session} {r : Request} (h : s.Safe r) :
    s.Served r := by
  cases r with
  | edit e => exact h
  | undo => exact h
  | startUndoGroup type => trivial
  | endUndoGroup => trivial
  | redo => trivial

/-- An undo or a redo executes all the commands of its group. -/
def Completes (s : Session) : Request → Prop
  | .undo => Returns Buffer.undo s.buffer
  | .redo => Returns Buffer.redo s.buffer
  | _ => True

theorem completes_of_safe {s : Session} {r : Request} (h : s.Consistent)
    (hr : s.Safe r) : s.Completes r := by
  cases r with
  | undo => exact returns_undo h hr.1
  | redo => exact returns_redo h hr
  | startUndoGroup type => trivial
  | endUndoGroup => trivial
  | edit e => trivial

/-- In every safe session every undo and every redo completes. -/
theorem undo_redo_complete (lineTerminator text : Bytes)
    {requests : List Request}
    (hall : AllAllowed step Safe requests
      (start (loaded lineTerminator text))) :
    AllAllowed step Completes requests (start (loaded lineTerminator text)) :=
  AllAllowed.of_invariant
    (fun s r h hr => consistent_step s r h hr.served)
    (fun _ _ h hr => completes_of_safe h hr)
    (consistent_loaded lineTerminator text) hall

theorem undo_redo_complete_mixed :
    AllAllowed step Completes
      [.startUndoGroup "type", .edit (.insert 1 2 [98, Str.LF]),
        .edit (.insertLine 3 [99]), .undo, .redo, .undo,
        .startUndoGroup "type", .edit (.removeLine 2), .undo, .redo]
      (start (loaded [Str.CR] [97, Str.LF])) :=
  undo_redo_complete [Str.CR] [97, Str.LF] (by decide +kernel)

/-- An insertion at the first line is accepted and recorded, but undoing it
raises when the group has been popped. -/
theorem undo_insertLine_first_raises :
    let s := run step [.startUndoGroup "type"] (start (loaded [Str.LF] [97]))
    let s' := s.step (.edit (.insertLine 1 [98]))
    Returns (Edit.insertLine 1 [98]).call s.buffer ∧
      ¬ Returns Buffer.undo s'.buffer ∧
      (finalState Buffer.undo s'.buffer).undoStack = [] ∧
      (finalState Buffer.undo s'.buffer).lines = s'.buffer.lines := by
  simp only [← returnsCheck_eq_true_iff]
  decide

/-! ## Redo after a diverging edit -/

/-- The text after the first commands of a group have been replayed. -/
def textAfter (s : Session) (g : Group) (cs : List Cmd) : List Bytes :=
  (finalState (Buffer.callAll cs)
    (Buffer.openGroup g.type s.buffer.endUndoGroup)).lines

/-- Redo completes, leaves well-formed lines, and changes them with no command
of a group of the abandoned branch.  The groups of the redo stack are all of
that branch when nothing has been undone since an edit was last recorded. -/
structure RedoSpares (s : Session) : Prop where
  completes : Returns Buffer.redo s.buffer
  wellFormed : WellFormed (finalState Buffer.redo s.buffer).lines
  spares : s.future = [] → ∀ g ∈ s.buffer.redoStack.head?, ∀ cs c,
    cs ++ [c] <+: g.cmds → s.textAfter g (cs ++ [c]) = s.textAfter g cs

/-- Each command of the group that redo would replay finds its text in
place, if there is such a group. -/
def RedoInPlace (s : Session) : Prop :=
  ∀ g ∈ s.buffer.redoStack.head?, ∀ c ∈ g.cmds, InPlace s.buffer.lines c

theorem textAfter_eq (s : Session) (g : Group) (cs : List Cmd) :
    s.textAfter g cs = (recorder.reach cs s.buffer.lines []).1 := by
  rw [textAfter, Buffer.lines_callAll]
  simp [Buffer.openGroup]

theorem redoSpares_of_inPlace {s : Session} (hlines : WellFormed s.buffer.lines)
    (hplace : s.RedoInPlace) : s.RedoSpares := by
  cases hstack : s.buffer.redoStack with
  | nil =>
      have hredo := Buffer.redo_of_nil hstack
      refine ⟨returns_of_ok hredo, ?_, ?_⟩
      · rwa [finalState_of_ok hredo, Buffer.endUndoGroup_lines]
      · intro _ g hg
        rw [hstack] at hg
        cases hg
  | cons g rest =>
      have hall : ∀ c ∈ g.cmds, InPlace s.buffer.lines c :=
        hplace g (by simp [hstack])
      obtain ⟨ht, hredo⟩ := Buffer.redo_of_replay hstack (replay_of_inPlace hall)
      refine ⟨returns_of_ok hredo, ?_, ?_⟩
      · rwa [finalState_of_ok hredo]
      · intro _ g' hg' cs c hprefix
        have hg : g' = g := by simpa [hstack] using hg'.symm
        subst hg
        have hsame : ∀ ds, ds <+: g'.cmds → s.textAfter g' ds = s.buffer.lines := by
          intro ds hds
          rw [textAfter_eq]
          exact recorder.reach_fst_of_replay
            (replay_of_inPlace fun d hd => hall d (hds.subset hd)) []
        rw [hsame _ hprefix, hsame _ ((List.prefix_append cs [c]).trans hprefix)]

theorem RedoSpares.inPlace {s : Session} (h : s.RedoSpares)
    (hfuture : s.future = []) : s.RedoInPlace := by
  intro g hg
  obtain ⟨rest, hstack⟩ := List.head?_eq_some_iff.mp hg
  have hspares := h.spares hfuture g hg
  simp only [textAfter_eq] at hspares
  cases hreplay : recorder.replay g.cmds s.buffer.lines with
  | some t => exact inPlace_of_spares hreplay hspares
  | none =>
      obtain ⟨e, b, -, herr⟩ := Buffer.redo_of_fail hstack hreplay
      exact absurd h.completes (not_returns_of_error herr)

theorem RedoSpares.wellFormed_lines {s : Session} (h : s.RedoSpares)
    (hplace : s.RedoInPlace) : WellFormed s.buffer.lines := by
  have hlines := h.wellFormed
  cases hstack : s.buffer.redoStack with
  | nil =>
      rwa [finalState_of_ok (Buffer.redo_of_nil hstack),
        Buffer.endUndoGroup_lines] at hlines
  | cons g rest =>
      obtain ⟨ht, hredo⟩ := Buffer.redo_of_replay hstack
        (replay_of_inPlace (hplace g (by simp [hstack])))
      rwa [finalState_of_ok hredo] at hlines

/-- When an edit has been recorded since the last undo, redo spares the text
exactly when the lines are well formed and the top group of the redo stack, if
any, finds its text in place. -/
theorem redoSpares_iff (lineTerminator text : Bytes) {requests : List Request}
    (hfuture : (run step requests
      (start (loaded lineTerminator text))).future = []) :
    let s := run step requests (start (loaded lineTerminator text))
    s.RedoSpares ↔ WellFormed s.buffer.lines ∧ s.RedoInPlace := by
  intro s
  constructor
  · intro h
    exact ⟨h.wellFormed_lines (h.inPlace hfuture), h.inPlace hfuture⟩
  · rintro ⟨hlines, hplace⟩
    exact redoSpares_of_inPlace hlines hplace

theorem redoSpares_iff_diverged :
    let s := run step
      [.startUndoGroup "type", .edit (.setline 1 [98]), .undo,
        .startUndoGroup "type", .edit (.insert 1 2 [98, Str.LF])]
      (start (loaded [Str.LF] [97]))
    s.RedoSpares ↔ WellFormed s.buffer.lines ∧ s.RedoInPlace :=
  redoSpares_iff [Str.LF] [97] (by decide)

/-- The last line is removed after the insertion of a line before it was
undone: redo puts a terminated line after the unterminated one. -/
theorem redo_diverged_not_wellFormed :
    let s := run step
      [.startUndoGroup "type", .edit (.insertLine 2 [120]), .undo,
        .startUndoGroup "type", .edit (.removeLine 2)]
      (start (loaded [Str.LF] [97, Str.LF, 98]))
    s.future = [] ∧ WellFormed s.buffer.lines ∧
      Returns Buffer.redo s.buffer ∧
      ¬ WellFormed (finalState Buffer.redo s.buffer).lines := by
  intro s
  have hbefore : s.buffer.lines = [[97]] := by decide
  have hafter : (finalState Buffer.redo s.buffer).lines =
      [[97], [120, Str.LF]] := by decide
  have hreturns : returnsCheck Buffer.redo s.buffer = true := by
    decide
  refine ⟨by decide, ?_, ?_, ?_⟩
  · rw [hbefore, wellFormed_singleton]
    decide
  · exact (returnsCheck_eq_true_iff _ _).mp hreturns
  · rw [hafter, wellFormed_cons (List.cons_ne_nil _ _), wellFormed_singleton]
    rintro ⟨-, hplain⟩
    exact absurd hplain (by decide)

end Session

end LuaAttic.Codedit
