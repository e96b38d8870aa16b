import LuaAttic.Codedit.UndoLog

/-!
# Undo and redo

Undo and redo close the open group, pop a group and replay it in a new group.
When the replay succeeds the buffer afterwards is known in full: the text that
the group leads to, and the commands recorded on the way as the new group, if
there are any.
-/

namespace LuaAttic.Codedit

open LuaAttic.Support LuaAttic.Lua Cmd

namespace Buffer

/-- The commands of the open group. -/
def openLog (b : Buffer) : List Cmd := (b.undoGroup.map Group.cmds).getD []

/-- The buffer with a new open group, and no other. -/
def openGroup (type : String) (b : Buffer) : Buffer :=
  { b with undoGroup := some ⟨type, []⟩ }

theorem openLog_of_none {b : Buffer} (h : b.undoGroup = none) :
    b.openLog = [] := by
  simp [openLog, h]

theorem openLog_of_some {b : Buffer} {g : Group} (h : b.undoGroup = some g) :
    b.openLog = g.cmds := by
  simp [openLog, h]

/-! ## Closing the open group -/

@[simp] theorem endUndoGroup_lines (b : Buffer) :
    (endUndoGroup b).lines = b.lines := by
  unfold endUndoGroup
  split <;> rfl

@[simp] theorem endUndoGroup_redoStack (b : Buffer) :
    (endUndoGroup b).redoStack = b.redoStack := by
  unfold endUndoGroup
  split <;> rfl

@[simp] theorem endUndoGroup_undoGroup (b : Buffer) :
    (endUndoGroup b).undoGroup = none := by
  unfold endUndoGroup
  split
  next h => exact h
  · rfl

@[simp] theorem endUndoGroup_lineTerminator (b : Buffer) :
    (endUndoGroup b).lineTerminator = b.lineTerminator := by
  unfold endUndoGroup
  split <;> rfl

theorem endUndoGroup_of_none {b : Buffer} (h : b.undoGroup = none) :
    endUndoGroup b = b := by
  simp [endUndoGroup, h]

theorem endUndoGroup_idem (b : Buffer) :
    endUndoGroup (endUndoGroup b) = endUndoGroup b :=
  endUndoGroup_of_none (endUndoGroup_undoGroup b)

/-- The logs of the undo stack once the open group is closed. -/
theorem map_cmds_endUndoGroup (b : Buffer) :
    (endUndoGroup b).undoStack.map Group.cmds =
      if b.openLog = [] then b.undoStack.map Group.cmds
      else b.openLog :: b.undoStack.map Group.cmds := by
  cases h : b.undoGroup with
  | none => simp [endUndoGroup, h, openLog]
  | some g =>
      by_cases hg : g.cmds = []
      · simp [endUndoGroup, h, openLog, hg]
      · simp [endUndoGroup, h, openLog, hg]

@[simp] theorem startUndoGroup_lines (type : String) (b : Buffer) :
    (startUndoGroup type b).lines = b.lines := by
  unfold startUndoGroup
  split
  · rfl
  · exact endUndoGroup_lines b

@[simp] theorem startUndoGroup_lineTerminator (type : String) (b : Buffer) :
    (startUndoGroup type b).lineTerminator = b.lineTerminator := by
  unfold startUndoGroup
  split
  · rfl
  · exact endUndoGroup_lineTerminator b

theorem startUndoGroup_of_none {b : Buffer} (h : b.undoGroup = none)
    (type : String) : startUndoGroup type b = openGroup type b := by
  simp [startUndoGroup, openGroup, h, endUndoGroup_of_none h]

/-! ## Replaying recorded commands -/

/-- A replay that does not fail gives the buffer the text it leads to, and
records its own inverse in the open group. -/
theorem callAll_of_replay {cs : List Cmd} {b : Buffer} {t : List Bytes}
    (h : recorder.replay cs b.lines = some t) :
    ∃ ht, callAll cs b = .ok ()
      (b.advance t ht fun log => (recorder.reach cs b.lines log).2) := by
  induction cs generalizing b with
  | nil =>
      cases Option.some.inj h
      exact ⟨b.linesNonempty, congrArg _ b.advance_self.symm⟩
  | cons c cs ih =>
      rw [Recorder.replay_cons, Option.bind_eq_some_iff] at h
      obtain ⟨u, hu, hcs⟩ := h
      obtain ⟨hne, hcall⟩ := call_of_exec hu
      obtain ⟨ht, hrest⟩ := ih (b := b.advance u hne (record c b.lines)) hcs
      refine ⟨ht, ?_⟩
      rw [callAll, bind_of_ok hcall, hrest]
      have hreach : ∀ log, recorder.reach (c :: cs) b.lines log =
          recorder.reach cs u (record c b.lines log) :=
        recorder.reach_cons_of_exec hu cs
      cases hg : b.undoGroup <;> simp [advance, hg, hreach]

/-- A replay that fails raises. -/
theorem callAll_of_fail {cs : List Cmd} {b : Buffer}
    (h : recorder.replay cs b.lines = none) :
    ∃ e b', callAll cs b = .error e b' := by
  induction cs generalizing b with
  | nil => cases h
  | cons c cs ih =>
      cases hexec : exec c b.lines with
      | none => exact ⟨_, _, bind_of_error (call_of_fail hexec)⟩
      | some u =>
          obtain ⟨hne, hcall⟩ := call_of_exec hexec
          have hrest : recorder.replay cs u = none := by
            rw [Recorder.replay_cons] at h
            have hu : recorder.exec c b.lines = some u := hexec
            rwa [hu, Option.bind_some] at h
          obtain ⟨e, b', herr⟩ :=
            ih (b := b.advance u hne (record c b.lines)) hrest
          exact ⟨e, b', by rw [callAll, bind_of_ok hcall, herr]⟩

/-- A replay, complete or not, reaches the text that its commands lead to. -/
theorem lines_callAll (cs : List Cmd) (b : Buffer) :
    (finalState (callAll cs) b).lines = (recorder.reach cs b.lines []).1 := by
  induction cs generalizing b with
  | nil => rfl
  | cons c cs ih =>
      cases hexec : exec c b.lines with
      | none =>
          have hfail : recorder.exec c b.lines = none := hexec
          have herr : callAll (c :: cs) b = .error .assertionFailed b :=
            bind_of_error (call_of_fail hexec)
          rw [finalState_of_error herr, recorder.reach_cons_of_fail hfail]
      | some u =>
          have hu : recorder.exec c b.lines = some u := hexec
          obtain ⟨hne, hcall⟩ := call_of_exec hexec
          have hrest := ih (b.advance u hne (record c b.lines))
          rw [advance_lines] at hrest
          rw [recorder.reach_cons_of_exec hu, recorder.reach_fst_log _ _ _ [],
            ← hrest, callAll, finalState_bind_of_ok hcall]

theorem relates_callAll (cs : List Cmd) (b : Buffer) :
    Relates (Logged False) (callAll cs) b := by
  induction cs generalizing b with
  | nil => exact Relates.pure _ b
  | cons c cs ih =>
      exact Relates.bind (relates_call False.elim b) fun _ t _ => ih t

/-- The lines are those that the commands lead to, and the terminator that
edits use is the same. -/
structure Leads (cs : List Cmd) (b b' : Buffer) : Prop where
  lines : b'.lines = (recorder.reach cs b.lines []).1
  lineTerminator : b'.lineTerminator = b.lineTerminator

theorem leads_callAll (cs : List Cmd) (b : Buffer) :
    Leads cs b (finalState (callAll cs) b) where
  lines := lines_callAll cs b
  lineTerminator := by
    induction cs generalizing b with
    | nil => rfl
    | cons c cs ih =>
        cases hexec : exec c b.lines with
        | none =>
            have herr : callAll (c :: cs) b = .error .assertionFailed b :=
              bind_of_error (call_of_fail hexec)
            rw [finalState_of_error herr]
        | some u =>
            obtain ⟨hne, hcall⟩ := call_of_exec hexec
            rw [callAll, finalState_bind_of_ok hcall, ih]
            rfl

/-! ## `undo_from` -/

section UndoFrom

variable {pop : Buffer → Option (Group × Buffer)} {b b1 : Buffer} {g : Group}

theorem undoFrom_none (hpop : pop (endUndoGroup b) = none) :
    undoFrom pop b = .ok () (endUndoGroup b) := by
  simp [undoFrom, hpop]

theorem undoFrom_some (hpop : pop (endUndoGroup b) = some (g, b1))
    (hnone : b1.undoGroup = none) :
    undoFrom pop b = (do
      callAll g.cmds
      modify endUndoGroup : Program Buffer Unit) (openGroup g.type b1) := by
  simp [undoFrom, hpop, startUndoGroup_of_none hnone]

/-- The buffer after a group has been replayed: its new text, and the group of
the inverse commands on top of the undo stack. -/
def replayed (g : Group) (t : List Bytes) (ht : t ≠ []) (b1 : Buffer) :
    Buffer :=
  let log := (recorder.reach g.cmds b1.lines []).2
  { b1 with
    lines := t
    linesNonempty := ht
    undoStack := if log = [] then b1.undoStack else ⟨g.type, log⟩ :: b1.undoStack
    undoGroup := none }

theorem undoFrom_of_replay (hpop : pop (endUndoGroup b) = some (g, b1))
    (hnone : b1.undoGroup = none) {t : List Bytes}
    (h : recorder.replay g.cmds b1.lines = some t) :
    ∃ ht, undoFrom pop b = .ok () (b1.replayed g t ht) := by
  obtain ⟨ht, hcall⟩ := callAll_of_replay (b := openGroup g.type b1) h
  refine ⟨ht, ?_⟩
  rw [undoFrom_some hpop hnone, bind_of_ok hcall, modify_apply]
  rfl

theorem undoFrom_of_fail (hpop : pop (endUndoGroup b) = some (g, b1))
    (hnone : b1.undoGroup = none)
    (h : recorder.replay g.cmds b1.lines = none) :
    ∃ e b', callAll g.cmds (openGroup g.type b1) = .error e b' ∧
      undoFrom pop b = .error e b' := by
  obtain ⟨e, b', herr⟩ := callAll_of_fail (b := openGroup g.type b1) h
  refine ⟨e, b', herr, ?_⟩
  rw [undoFrom_some hpop hnone, bind_of_error herr]

/-- Whether it completes or not, a replay leaves the text that its commands
lead to. -/
theorem leads_undoFrom (hpop : pop (endUndoGroup b) = some (g, b1))
    (hnone : b1.undoGroup = none) :
    Leads g.cmds b1 (finalState (undoFrom pop) b) := by
  have hcall := leads_callAll g.cmds (openGroup g.type b1)
  rw [finalState, undoFrom_some hpop hnone]
  refine Ends.final (I := Leads g.cmds b1) ?_
  refine Ends.bind (Ends.of_final ⟨hcall.lines, hcall.lineTerminator⟩)
    fun _ t ht => ?_
  refine Ends.modify ⟨?_, ?_⟩
  · rw [endUndoGroup_lines]
    exact ht.lines
  · rw [endUndoGroup_lineTerminator]
    exact ht.lineTerminator

end UndoFrom

/-! ## `undo` and `redo` -/

@[simp] theorem moveToRedo_lines (b : Buffer) :
    (moveToRedo b).lines = b.lines := by
  unfold moveToRedo
  split <;> rfl

@[simp] theorem moveToRedo_lineTerminator (b : Buffer) :
    (moveToRedo b).lineTerminator = b.lineTerminator := by
  unfold moveToRedo
  split <;> rfl

theorem undo_of_nil {b : Buffer} (h : (endUndoGroup b).undoStack = []) :
    undo b = .ok () (endUndoGroup b) := by
  have hpop : popUndo (endUndoGroup b) = none := by simp [popUndo, h]
  rw [undo, bind_of_ok (undoFrom_none hpop), modify_apply, moveToRedo, h]

theorem undo_of_replay {b : Buffer} {g : Group} {rest : List Group}
    (hstack : (endUndoGroup b).undoStack = g :: rest) {t : List Bytes}
    (h : recorder.replay g.cmds b.lines = some t) :
    ∃ ht, undo b = .ok () (moveToRedo
      (({ endUndoGroup b with undoStack := rest } : Buffer).replayed g t ht)) := by
  have hpop : popUndo (endUndoGroup b) =
      some (g, { endUndoGroup b with undoStack := rest }) := by
    simp [popUndo, hstack]
  obtain ⟨ht, hundo⟩ := undoFrom_of_replay hpop
    (endUndoGroup_undoGroup b) (by simpa using h)
  exact ⟨ht, by rw [undo, bind_of_ok hundo, modify_apply]⟩

/-- A replay that records something: the group of the inverse commands goes to
the redo stack. -/
theorem undo_recorded {b : Buffer} {g : Group} {rest : List Group}
    (hstack : (endUndoGroup b).undoStack = g :: rest) {t : List Bytes}
    (h : recorder.replay g.cmds b.lines = some t)
    (hlog : (recorder.reach g.cmds b.lines []).2 ≠ []) :
    ∃ ht, undo b = .ok () { endUndoGroup b with
      lines := t
      linesNonempty := ht
      undoStack := rest
      redoStack :=
        ⟨g.type, (recorder.reach g.cmds b.lines []).2⟩ :: b.redoStack
      undoGroup := none } := by
  obtain ⟨ht, hok⟩ := undo_of_replay hstack h
  exact ⟨ht, by simp [hok, replayed, moveToRedo, hlog]⟩

/-- A replay that records nothing: the next group of the undo stack goes to
the redo stack without having been replayed. -/
theorem undo_unrecorded {b : Buffer} {g : Group} {rest : List Group}
    (hstack : (endUndoGroup b).undoStack = g :: rest) {t : List Bytes}
    (h : recorder.replay g.cmds b.lines = some t)
    (hlog : (recorder.reach g.cmds b.lines []).2 = []) :
    ∃ ht, undo b = .ok () (moveToRedo { endUndoGroup b with
      lines := t
      linesNonempty := ht
      undoStack := rest
      undoGroup := none }) := by
  obtain ⟨ht, hok⟩ := undo_of_replay hstack h
  exact ⟨ht, by simp [hok, replayed, hlog]⟩

theorem undo_of_fail {b : Buffer} {g : Group} {rest : List Group}
    (hstack : (endUndoGroup b).undoStack = g :: rest)
    (h : recorder.replay g.cmds b.lines = none) : ¬ Returns undo b := by
  have hpop : popUndo (endUndoGroup b) =
      some (g, { endUndoGroup b with undoStack := rest }) := by
    simp [popUndo, hstack]
  obtain ⟨e, b', -, herr⟩ := undoFrom_of_fail hpop
    (endUndoGroup_undoGroup b) (by simpa using h)
  exact not_returns_of_error (bind_of_error herr)

theorem redo_of_nil {b : Buffer} (h : b.redoStack = []) :
    redo b = .ok () (endUndoGroup b) := by
  apply undoFrom_none
  simp [popRedo, h]

theorem popRedo_endUndoGroup {b : Buffer} {g : Group} {rest : List Group}
    (h : b.redoStack = g :: rest) :
    popRedo (endUndoGroup b) =
      some (g, { endUndoGroup b with redoStack := rest }) := by
  simp [popRedo, h]

theorem redo_of_replay {b : Buffer} {g : Group} {rest : List Group}
    (hstack : b.redoStack = g :: rest) {t : List Bytes}
    (h : recorder.replay g.cmds b.lines = some t) :
    ∃ ht, redo b = .ok ()
      (({ endUndoGroup b with redoStack := rest } : Buffer).replayed g t ht) :=
  undoFrom_of_replay (popRedo_endUndoGroup hstack) (endUndoGroup_undoGroup b)
    (by simpa using h)

theorem redo_of_fail {b : Buffer} {g : Group} {rest : List Group}
    (hstack : b.redoStack = g :: rest)
    (h : recorder.replay g.cmds b.lines = none) :
    ∃ e b', callAll g.cmds (openGroup g.type
        { endUndoGroup b with redoStack := rest }) = .error e b' ∧
      redo b = .error e b' :=
  undoFrom_of_fail (popRedo_endUndoGroup hstack) (endUndoGroup_undoGroup b)
    (by simpa using h)

/-- What undo leaves: the text that the latest recorded group leads to, if
there is one. -/
theorem leads_undo (b : Buffer) :
    Leads (((endUndoGroup b).undoStack.head?.map Group.cmds).getD []) b
      (finalState undo b) := by
  cases hstack : (endUndoGroup b).undoStack with
  | nil =>
      rw [finalState_of_ok (undo_of_nil hstack)]
      exact ⟨endUndoGroup_lines b, endUndoGroup_lineTerminator b⟩
  | cons g rest =>
      have hpop : popUndo (endUndoGroup b) =
          some (g, { endUndoGroup b with undoStack := rest }) := by
        simp [popUndo, hstack]
      have hleads := leads_undoFrom hpop (endUndoGroup_undoGroup b)
      refine Ends.final (I := Leads g.cmds b) ?_
      refine Ends.bind (Ends.of_final ⟨?_, ?_⟩) fun _ t ht =>
        Ends.modify ⟨?_, ?_⟩
      · simpa using hleads.lines
      · simpa using hleads.lineTerminator
      · rw [moveToRedo_lines]
        exact ht.lines
      · rw [moveToRedo_lineTerminator]
        exact ht.lineTerminator

theorem leads_redo (b : Buffer) :
    Leads ((b.redoStack.head?.map Group.cmds).getD []) b
      (finalState redo b) := by
  cases hstack : b.redoStack with
  | nil =>
      rw [finalState_of_ok (redo_of_nil hstack)]
      exact ⟨endUndoGroup_lines b, endUndoGroup_lineTerminator b⟩
  | cons g rest =>
      have hleads := leads_undoFrom (popRedo_endUndoGroup hstack)
        (endUndoGroup_undoGroup b)
      rw [redo]
      exact ⟨by simpa using hleads.lines, by simpa using hleads.lineTerminator⟩

/-- Undo and redo close the open group before anything else. -/
theorem undo_endUndoGroup (b : Buffer) : undo (endUndoGroup b) = undo b := by
  simp only [undo, undoFrom, bind_assoc, modify_bind_apply,
    endUndoGroup_idem]

end Buffer

/-! ## Groups that change nothing -/

/-- A replay records nothing exactly when each of its commands finds its text
in place. -/
theorem reach_eq_nil_iff {cs : List Cmd} {s t : List Bytes}
    (h : recorder.replay cs s = some t) :
    (recorder.reach cs s []).2 = [] ↔ ∀ c ∈ cs, InPlace s c := by
  induction cs generalizing t with
  | nil => simp
  | cons c cs ih =>
      rw [Recorder.replay_cons, Option.bind_eq_some_iff] at h
      obtain ⟨u, hu, hcs⟩ := h
      rw [recorder.reach_cons_of_exec hu]
      by_cases hplace : InPlace s c
      · have hus : u = s := by
          have hexec : exec c s = some u := hu
          rw [hplace.exec] at hexec
          exact (Option.some.inj hexec).symm
        subst hus
        have hrec : recorder.record c u [] = [] := record_inPlace hplace []
        rw [hrec, ih hcs]
        simp [hplace]
      · have hne : recorder.record c s [] ≠ [] :=
          record_ne_nil_of_not_inPlace hplace hu []
        constructor
        · intro hnil
          exact absurd hnil (recorder.reach_ne_nil hne cs u)
        · intro hall
          exact absurd (hall c List.mem_cons_self) hplace

theorem replay_of_inPlace {cs : List Cmd} {s : List Bytes}
    (h : ∀ c ∈ cs, InPlace s c) : recorder.replay cs s = some s := by
  induction cs with
  | nil => rfl
  | cons c cs ih =>
      have hexec : recorder.exec c s = some s :=
        (h c List.mem_cons_self).exec
      rw [Recorder.replay_cons, hexec, Option.bind_some]
      exact ih fun d hd => h d (List.mem_cons_of_mem c hd)

/-- If no command of a replay changes the text, each finds its text in
place. -/
theorem inPlace_of_spares {cs : List Cmd} {s t : List Bytes}
    (h : recorder.replay cs s = some t)
    (hspares : ∀ ds c, ds ++ [c] <+: cs →
      (recorder.reach (ds ++ [c]) s []).1 = (recorder.reach ds s []).1) :
    ∀ c ∈ cs, InPlace s c := by
  induction cs generalizing t with
  | nil => simp
  | cons c cs ih =>
      rw [Recorder.replay_cons, Option.bind_eq_some_iff] at h
      obtain ⟨u, hu, hcs⟩ := h
      have hus : u = s := by
        have hfirst := hspares [] c (by simp)
        simpa [recorder.reach_cons_of_exec hu] using hfirst
      subst hus
      have hplace : InPlace u c := by
        by_contra hnot
        exact exec_ne_of_not_inPlace hnot hu rfl
      have hrest : ∀ d ∈ cs, InPlace u d := by
        apply ih hcs
        intro ds d hprefix
        have hnext := hspares (c :: ds) d
          (List.cons_prefix_cons.mpr ⟨rfl, hprefix⟩)
        rw [List.cons_append, recorder.reach_cons_of_exec hu,
          recorder.reach_cons_of_exec hu] at hnext
        rwa [recorder.reach_fst_log (ds ++ [d]) u _ [],
          recorder.reach_fst_log ds u _ []] at hnext
      intro d hd
      rcases List.mem_cons.mp hd with rfl | hd
      · exact hplace
      · exact hrest d hd

end LuaAttic.Codedit
