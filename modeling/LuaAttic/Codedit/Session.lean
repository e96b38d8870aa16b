import LuaAttic.Codedit.Undo
import LuaAttic.Codedit.WellFormed
import LuaAttic.Support.History

/-!
# Editing sessions

A session is a buffer together with the texts that its undo history stands
for: the text before each recorded group was opened, and the texts that undo
took back.  The texts are noted down while the requests are served; the buffer
does not have them.  The invariant says that replaying the recorded groups
leads through exactly these texts.
-/

namespace LuaAttic.Codedit

open LuaAttic.Support LuaAttic.Lua Cmd

/-- A buffer and the texts that its stacks stand for. -/
structure Session where
  buffer : Buffer
  /-- the texts before the groups of the undo stack were opened -/
  past : List (List Bytes)
  /-- the text before the open group was opened, or the current text -/
  opened : List Bytes
  /-- the texts taken back by undo since an edit was last recorded, the
  latest to be taken back first -/
  future : List (List Bytes)
  deriving DecidableEq

/-- The requests that a session serves. -/
inductive Request
  | startUndoGroup (type : String)
  | endUndoGroup
  | edit (e : Edit)
  | undo
  | redo
  deriving DecidableEq

namespace Session

/-- A session of a buffer without history. -/
def start (b : Buffer) : Session := ⟨b, [], b.lines, []⟩

/-- Close the open group, if any; it is recorded when it is not empty. -/
def close (s : Session) : Session where
  buffer := s.buffer.endUndoGroup
  past := if s.buffer.openLog = [] then s.past else s.opened :: s.past
  opened := s.buffer.lines
  future := s.future

def step (s : Session) : Request → Session
  | .startUndoGroup type =>
      if s.buffer.undoGroup.map Group.type = some type then s
      else { s.close with buffer := s.buffer.startUndoGroup type }
  | .endUndoGroup => s.close
  | .edit e =>
      let b := s.buffer.edit e
      { s with
        buffer := b
        -- a recorded edit gives up what was undone before
        future := if b.openLog = [] then s.future else [] }
  | .undo =>
      let b := finalState Buffer.undo s.buffer
      { buffer := b
        past := s.close.past.tail
        opened := b.lines
        future :=
          if s.buffer.redoStack.length < b.redoStack.length then
            s.buffer.lines :: s.future
          else s.future }
  | .redo =>
      let b := finalState Buffer.redo s.buffer
      { buffer := b
        past :=
          if s.close.buffer.undoStack.length < b.undoStack.length then
            s.buffer.lines :: s.close.past
          else s.close.past
        -- a redo that raises leaves its group open
        opened := if b.undoGroup = none then b.lines else s.buffer.lines
        future := s.future.tail }

/-- The document's past, present and future. -/
def history (s : Session) : History (List Bytes) :=
  ⟨s.past, s.buffer.lines, s.future⟩

/-! ## The invariant -/

/-- The logs of the undo stack, latest first. -/
def undoLogs (s : Session) : List (List Cmd) :=
  s.buffer.undoStack.map Group.cmds

/-- The recorded groups lead through the noted texts. -/
structure Consistent (s : Session) : Prop where
  undoable : recorder.Chain s.buffer.lines (s.buffer.openLog :: s.undoLogs)
    (s.opened :: s.past)
  /-- Below the groups that can be redone there may be abandoned ones. -/
  redoable : ∃ fresh stale,
    s.buffer.redoStack.map Group.cmds = fresh ++ stale ∧
      recorder.Chain s.buffer.lines fresh s.future
  redoSound : ∀ g ∈ s.buffer.redoStack, ∀ c ∈ g.cmds,
    Invertible c ∧ Replayable c
  diverged : s.buffer.openLog ≠ [] → s.future = []

theorem consistent_start {b : Buffer} (hundo : b.undoStack = [])
    (hredo : b.redoStack = []) (hgroup : b.undoGroup = none) :
    (start b).Consistent where
  undoable := by
    simp [start, undoLogs, hundo, Buffer.openLog_of_none hgroup]
  redoable := ⟨[], [], by simp [start, hredo], recorder.chain_nil _⟩
  redoSound := by simp [start, hredo]
  diverged := fun _ => rfl

/-! ## Closing and opening a group -/

@[simp] theorem close_lines (s : Session) :
    s.close.buffer.lines = s.buffer.lines :=
  s.buffer.endUndoGroup_lines

@[simp] theorem close_openLog (s : Session) : s.close.buffer.openLog = [] :=
  Buffer.openLog_of_none s.buffer.endUndoGroup_undoGroup

/-- Closing the open group makes it the latest of the recorded ones. -/
theorem Consistent.chain_close {s : Session} (h : s.Consistent) :
    recorder.Chain s.buffer.lines s.close.undoLogs s.close.past := by
  have hchain := h.undoable
  unfold undoLogs close
  rw [Buffer.map_cmds_endUndoGroup]
  by_cases hlog : s.buffer.openLog = []
  · rw [if_pos hlog, if_pos hlog]
    rw [hlog, Recorder.chain_cons, Recorder.replay_nil] at hchain
    obtain ⟨-, hopened, hrest⟩ := hchain
    rwa [← Option.some.inj (hopened (by simp))] at hrest
  · rw [if_neg hlog, if_neg hlog]
    exact hchain

/-- A session without an open group, given the chain of its recorded
groups. -/
theorem consistent_of_closed {s : Session} (hlog : s.buffer.openLog = [])
    (hopened : s.opened = s.buffer.lines)
    (hundo : recorder.Chain s.buffer.lines s.undoLogs s.past)
    (hredo : ∃ fresh stale,
      s.buffer.redoStack.map Group.cmds = fresh ++ stale ∧
        recorder.Chain s.buffer.lines fresh s.future)
    (hsound : ∀ g ∈ s.buffer.redoStack, ∀ c ∈ g.cmds,
      Invertible c ∧ Replayable c) :
    s.Consistent where
  undoable := by
    rw [hlog, hopened]
    exact ⟨by simp, fun _ => rfl, hundo⟩
  redoable := hredo
  redoSound := hsound
  diverged := fun hne => absurd hlog hne

theorem consistent_close {s : Session} (h : s.Consistent) :
    s.close.Consistent := by
  refine consistent_of_closed s.close_openLog (close_lines s).symm ?_ ?_ ?_
  · rw [close_lines]
    exact h.chain_close
  · simpa [close] using h.redoable
  · simpa [close] using h.redoSound

theorem consistent_startUndoGroup {s : Session} (h : s.Consistent)
    (type : String) : (s.step (.startUndoGroup type)).Consistent := by
  unfold step
  by_cases hsame : s.buffer.undoGroup.map Group.type = some type
  · simp only [if_pos hsame]
    exact h
  · simp only [if_neg hsame]
    have hclose := consistent_close h
    have hstart : s.buffer.startUndoGroup type =
        { s.buffer.endUndoGroup with undoGroup := some ⟨type, []⟩ } :=
      if_neg hsame
    rw [hstart]
    exact consistent_of_closed rfl (close_lines s).symm
      ((close_lines s).symm ▸ h.chain_close) hclose.redoable
      hclose.redoSound

/-! ## Edits -/

/-- Recording in an open group keeps the invariant. -/
theorem consistent_logged {s : Session} (h : s.Consistent)
    (hopen : s.buffer.undoGroup ≠ none) {b : Buffer}
    (hlogged : Logged False s.buffer b) :
    Consistent { s with
      buffer := b
      future := if b.openLog = [] then s.future else [] } := by
  obtain ⟨g, hg⟩ := Option.ne_none_iff_exists'.mp hopen
  obtain ⟨log, hlog, hstep, -⟩ := hlogged.group g hg
  have hold : s.buffer.openLog = g.cmds := Buffer.openLog_of_some hg
  have hnew : b.openLog = log := Buffer.openLog_of_some hlog
  obtain ⟨hinv, hreplay, hrest⟩ := h.undoable
  rw [hold] at hinv hreplay
  refine ⟨?_, ?_, ?_, ?_⟩
  · rw [hnew]
    refine ⟨hstep.invertible hinv, ?_, ?_⟩
    · intro hlogReplayable
      rw [hstep.replay hlogReplayable]
      exact hreplay fun d hd => hlogReplayable d (hstep.mem d hd)
    · simpa [undoLogs, hlogged.undoStack] using hrest
  · rw [hlogged.redoStack]
    by_cases hnil : b.openLog = []
    · simp only [if_pos hnil]
      have hlines : b.lines = s.buffer.lines :=
        hstep.eq_of_nil (hnew ▸ hnil)
      rw [hlines]
      exact h.redoable
    · simp only [if_neg hnil]
      exact ⟨[], _, rfl, recorder.chain_nil _⟩
  · rw [hlogged.redoStack]
    exact h.redoSound
  · intro hne
    exact if_neg hne

theorem consistent_edit {s : Session} (h : s.Consistent)
    (hopen : s.buffer.undoGroup ≠ none) (e : Edit) :
    (s.step (.edit e)).Consistent :=
  consistent_logged h hopen (e.relates_call False.elim s.buffer)

end Session

/-! ## Undo -/

namespace Buffer

/-- The group that undo would replay finds the text of each of its commands in
place. -/
def UndoInPlace (b : Buffer) : Prop :=
  ∃ g ∈ (endUndoGroup b).undoStack.head?, ∀ c ∈ g.cmds, InPlace b.lines c

/-- The same, and there is another group below it on the undo stack. -/
def UndoSkips (b : Buffer) : Prop :=
  2 ≤ (endUndoGroup b).undoStack.length ∧ b.UndoInPlace

/-- No command of the group that undo would replay removes the first line. -/
def UndoReplayable (b : Buffer) : Prop :=
  ∀ g ∈ (endUndoGroup b).undoStack.head?, ∀ c ∈ g.cmds, Replayable c

instance (b : Buffer) : Decidable b.UndoReplayable :=
  inferInstanceAs (Decidable (∀ _ ∈ _, _))

instance (b : Buffer) : Decidable b.UndoInPlace :=
  inferInstanceAs (Decidable (∃ _ ∈ _, _))

instance (b : Buffer) : Decidable b.UndoSkips :=
  inferInstanceAs (Decidable (_ ∧ _))

theorem undoInPlace_iff {b : Buffer} {g : Group} {rest : List Group}
    (hstack : (endUndoGroup b).undoStack = g :: rest) {t : List Bytes}
    (h : recorder.replay g.cmds b.lines = some t) :
    b.UndoInPlace ↔ (recorder.reach g.cmds b.lines []).2 = [] := by
  rw [reach_eq_nil_iff h]
  simp [UndoInPlace, hstack]

end Buffer

namespace Session

/-- The latest recorded group leads back to the latest of the noted texts. -/
theorem Consistent.latest {s : Session} (h : s.Consistent)
    (hplay : s.buffer.UndoReplayable) {g : Group} {rest : List Group}
    (hstack : s.buffer.endUndoGroup.undoStack = g :: rest) :
    ∃ p ps, s.close.past = p :: ps ∧ (∀ c ∈ g.cmds, Invertible c) ∧
      recorder.replay g.cmds s.buffer.lines = some p ∧
      recorder.Chain p (rest.map Group.cmds) ps := by
  have hchain := h.chain_close
  have hlogs : s.close.undoLogs = g.cmds :: rest.map Group.cmds := by
    simp [undoLogs, close, hstack]
  rw [hlogs] at hchain
  obtain ⟨p, ps, hpast, hinv, hreplay, hrest⟩ := hchain.of_cons_logs
  have hcmds : ∀ c ∈ g.cmds, Replayable c := hplay g (by simp [hstack])
  exact ⟨p, ps, hpast, hinv, hreplay hcmds, hrest⟩

theorem Consistent.past_eq_nil {s : Session} (h : s.Consistent)
    (hstack : s.buffer.endUndoGroup.undoStack = []) : s.close.past = [] := by
  have hlen := h.chain_close.length_eq
  rw [undoLogs, close, hstack] at hlen
  exact List.eq_nil_of_length_eq_zero hlen.symm

theorem step_undo_of_ok {s : Session} {b : Buffer}
    (h : Buffer.undo s.buffer = .ok () b) :
    s.step .undo =
      { buffer := b
        past := s.close.past.tail
        opened := b.lines
        future :=
          if s.buffer.redoStack.length < b.redoStack.length then
            s.buffer.lines :: s.future
          else s.future } := by
  simp [step, finalState_of_ok h]

/-- With nothing to undo, undo closes the open group. -/
theorem step_undo_of_nil {s : Session} (h : s.Consistent)
    (hstack : s.buffer.endUndoGroup.undoStack = []) :
    s.step .undo = s.close := by
  have htail : s.close.past.tail = s.close.past := by
    rw [h.past_eq_nil hstack]
    rfl
  rw [step_undo_of_ok (Buffer.undo_of_nil hstack), htail]
  simp [close]

theorem consistent_undo {s : Session} (h : s.Consistent)
    (hplay : s.buffer.UndoReplayable) (hskip : ¬ s.buffer.UndoSkips) :
    (s.step .undo).Consistent := by
  cases hstack : s.buffer.endUndoGroup.undoStack with
  | nil =>
      rw [step_undo_of_nil h hstack]
      exact consistent_close h
  | cons g rest =>
      obtain ⟨p, ps, hpast, hinv, hreplay, hrest⟩ := h.latest hplay hstack
      have hlogStep := recorder.logStep_reach g.cmds s.buffer.lines []
      have hlogSound := recorder.replayable_reach hinv
        (List.forall_mem_nil _) s.buffer.lines
      by_cases hlog : (recorder.reach g.cmds s.buffer.lines []).2 = []
      · -- nothing is recorded, so this was the only group
        have hnil : rest = [] := by
          by_contra hne
          apply hskip
          refine ⟨?_, (Buffer.undoInPlace_iff hstack hreplay).mpr hlog⟩
          have hpos := List.length_pos_of_ne_nil hne
          rw [hstack, List.length_cons]
          omega
        subst hnil
        have hp : p = s.buffer.lines := by
          have hsame := hlogStep.eq_of_nil hlog
          rwa [recorder.reach_fst_of_replay hreplay []] at hsame
        obtain ⟨ht, hok⟩ := Buffer.undo_unrecorded hstack hreplay hlog
        rw [step_undo_of_ok hok, hpast]
        refine consistent_of_closed rfl rfl ?_ ?_ ?_
        · exact hrest
        · simpa [Buffer.moveToRedo, hp] using h.redoable
        · simpa [Buffer.moveToRedo] using h.redoSound
      · obtain ⟨ht, hok⟩ := Buffer.undo_recorded hstack hreplay hlog
        rw [step_undo_of_ok hok, hpast]
        refine consistent_of_closed rfl rfl hrest ?_ ?_
        · obtain ⟨fresh, stale, hsplit, hchain⟩ := h.redoable
          refine ⟨(recorder.reach g.cmds s.buffer.lines []).2 :: fresh, stale,
            by simp [hsplit], ?_⟩
          simp only [List.length_cons, Nat.lt_add_one, if_true]
          exact ⟨hlogStep.invertible (by simp),
            fun _ => recorder.replay_reach_of_replay hinv hreplay, hchain⟩
        · intro g' hg' c hc
          rcases List.mem_cons.mp hg' with rfl | hg'
          · exact ⟨hlogStep.invertible (by simp) c hc, hlogSound c hc⟩
          · exact h.redoSound g' hg' c hc

/-- An undo whose group is not in place takes the document one step back. -/
theorem history_undo {s : Session} (h : s.Consistent)
    (hplay : s.buffer.UndoReplayable) (hplace : ¬ s.buffer.UndoInPlace) :
    (s.step .undo).history = s.close.history.undo := by
  cases hstack : s.buffer.endUndoGroup.undoStack with
  | nil =>
      rw [step_undo_of_nil h hstack]
      simp [History.undo, history, h.past_eq_nil hstack]
  | cons g rest =>
      obtain ⟨p, ps, hpast, -, hreplay, -⟩ := h.latest hplay hstack
      have hlog := mt (Buffer.undoInPlace_iff hstack hreplay).mpr hplace
      obtain ⟨ht, hok⟩ := Buffer.undo_recorded hstack hreplay hlog
      rw [step_undo_of_ok hok, hpast,
        History.undo_of_past (h := s.close.history) hpast]
      simp [history, close]

theorem returns_undo {s : Session} (h : s.Consistent)
    (hplay : s.buffer.UndoReplayable) : Returns Buffer.undo s.buffer := by
  cases hstack : s.buffer.endUndoGroup.undoStack with
  | nil => exact returns_of_ok (Buffer.undo_of_nil hstack)
  | cons g rest =>
      obtain ⟨p, ps, -, -, hreplay, -⟩ := h.latest hplay hstack
      obtain ⟨ht, hok⟩ := Buffer.undo_of_replay hstack hreplay
      exact returns_of_ok hok

/-! ## Redo -/

/-- The first text of the future is what the top group of the redo stack leads
to. -/
theorem Consistent.next {s : Session} (h : s.Consistent) {f : List Bytes}
    {fs : List (List Bytes)} (hfuture : s.future = f :: fs) :
    ∃ g rest, s.buffer.redoStack = g :: rest ∧
      recorder.replay g.cmds s.buffer.lines = some f ∧
      ∃ fresh stale, rest.map Group.cmds = fresh ++ stale ∧
        recorder.Chain f fresh fs := by
  obtain ⟨fresh, stale, hsplit, hchain⟩ := h.redoable
  rw [hfuture] at hchain
  obtain ⟨log, fresh', rfl, hreplay, hrest⟩ := hchain.of_cons_states
  rw [List.cons_append] at hsplit
  obtain ⟨g, rest, hstack, rfl, hrest'⟩ := List.map_eq_cons_iff.mp hsplit
  have hcmds : ∀ c ∈ g.cmds, Replayable c := fun c hc =>
    (h.redoSound g (hstack ▸ List.mem_cons_self) c hc).2
  exact ⟨g, rest, hstack, hreplay hcmds, fresh', stale, hrest', hrest⟩

/-- What is left to redo after the top group has been replayed. -/
theorem Consistent.redoable_tail {s : Session} (h : s.Consistent) {g : Group}
    {rest : List Group} (hstack : s.buffer.redoStack = g :: rest)
    {t : List Bytes} (hreplay : recorder.replay g.cmds s.buffer.lines = some t) :
    ∃ fresh stale, rest.map Group.cmds = fresh ++ stale ∧
      recorder.Chain t fresh s.future.tail := by
  cases hfuture : s.future with
  | nil => exact ⟨[], _, rfl, recorder.chain_nil t⟩
  | cons f fs =>
      obtain ⟨g', rest', hstack', hreplay', hnext⟩ := h.next hfuture
      rw [hstack, List.cons.injEq] at hstack'
      obtain ⟨rfl, rfl⟩ := hstack'
      rw [hreplay, Option.some.injEq] at hreplay'
      subst hreplay'
      exact hnext

theorem step_redo_of_final {s : Session} {b : Buffer}
    (h : finalState Buffer.redo s.buffer = b) :
    s.step .redo =
      { buffer := b
        past :=
          if s.close.buffer.undoStack.length < b.undoStack.length then
            s.buffer.lines :: s.close.past
          else s.close.past
        opened := if b.undoGroup = none then b.lines else s.buffer.lines
        future := s.future.tail } := by
  simp only [step, h]

theorem Consistent.future_eq_nil {s : Session} (h : s.Consistent)
    (hstack : s.buffer.redoStack = []) : s.future = [] := by
  by_contra hne
  obtain ⟨f, fs, hfuture⟩ := List.exists_cons_of_ne_nil hne
  obtain ⟨g, rest, hcons, -⟩ := h.next hfuture
  rw [hstack] at hcons
  cases hcons

/-- With nothing to redo, redo closes the open group. -/
theorem step_redo_of_nil {s : Session} (h : s.Consistent)
    (hstack : s.buffer.redoStack = []) : s.step .redo = s.close := by
  rw [step_redo_of_final (finalState_of_ok (Buffer.redo_of_nil hstack)),
    h.future_eq_nil hstack]
  simp [close, h.future_eq_nil hstack]

/-- A redo keeps the invariant, also when it replays an abandoned group. -/
theorem consistent_redo {s : Session} (h : s.Consistent) :
    (s.step .redo).Consistent := by
  cases hstack : s.buffer.redoStack with
  | nil =>
      rw [step_redo_of_nil h hstack]
      exact consistent_close h
  | cons g rest =>
      have hinv : ∀ c ∈ g.cmds, Invertible c := fun c hc =>
        (h.redoSound g (hstack ▸ List.mem_cons_self) c hc).1
      have hrestSound : ∀ g' ∈ rest, ∀ c ∈ g'.cmds,
          Invertible c ∧ Replayable c :=
        fun g' hg' => h.redoSound g' (hstack ▸ List.mem_cons_of_mem g hg')
      have hundo := h.chain_close
      cases hreplay : recorder.replay g.cmds s.buffer.lines with
      | some t =>
          obtain ⟨ht, hok⟩ := Buffer.redo_of_replay hstack hreplay
          have htail := h.redoable_tail hstack hreplay
          have hlogStep := recorder.logStep_reach g.cmds s.buffer.lines []
          rw [step_redo_of_final (finalState_of_ok hok)]
          refine consistent_of_closed rfl rfl ?_ htail hrestSound
          by_cases hlog : (recorder.reach g.cmds s.buffer.lines []).2 = []
          · have ht' : t = s.buffer.lines := by
              have hsame := hlogStep.eq_of_nil hlog
              rwa [recorder.reach_fst_of_replay hreplay []] at hsame
            simpa [Buffer.replayed, undoLogs, close, hlog, ht'] using hundo
          · have hback := recorder.replay_reach_of_replay hinv hreplay
            simpa [Buffer.replayed, undoLogs, close, hlog] using
              And.intro (hlogStep.invertible (by simp))
                ⟨fun _ => hback, hundo⟩
      | none =>
          have hfuture : s.future = [] := by
            by_contra hne
            obtain ⟨f, fs, hcons⟩ := List.exists_cons_of_ne_nil hne
            obtain ⟨g', rest', hstack', hreplay', -⟩ := h.next hcons
            rw [hstack, List.cons.injEq] at hstack'
            rw [← hstack'.1, hreplay] at hreplay'
            cases hreplay'
          obtain ⟨e, b, hcall, herr⟩ := Buffer.redo_of_fail hstack hreplay
          -- the group that the replay has opened stays open
          have hopened : Consistent
              { buffer := Buffer.openGroup g.type
                  { s.buffer.endUndoGroup with redoStack := rest }
                past := s.close.past
                opened := s.buffer.lines
                future := [] } := by
            refine consistent_of_closed rfl ?_ ?_ ?_ hrestSound
            · simp [Buffer.openGroup]
            · simpa [Buffer.openGroup, undoLogs, close] using hundo
            · exact ⟨[], _, rfl, recorder.chain_nil _⟩
          have hlogged := Buffer.relates_callAll g.cmds
            (Buffer.openGroup g.type
              { s.buffer.endUndoGroup with redoStack := rest })
          rw [Relates, finalState_of_error hcall] at hlogged
          have hnext := consistent_logged hopened (by simp [Buffer.openGroup])
            hlogged
          obtain ⟨log, hlog, -⟩ := hlogged.group _ rfl
          have hstackSame : b.undoStack = s.close.buffer.undoStack :=
            hlogged.undoStack
          rw [step_redo_of_final (finalState_of_error herr), hfuture,
            hstackSame, hlog]
          simpa using hnext

/-- A redo of what was undone takes the document one step forward. -/
theorem sameAhead_redo {s : Session} (h : s.Consistent)
    (hfuture : s.future ≠ []) :
    History.SameAhead (s.step .redo).history s.history.redo := by
  obtain ⟨f, fs, hcons⟩ := List.exists_cons_of_ne_nil hfuture
  obtain ⟨g, rest, hstack, hreplay, -⟩ := h.next hcons
  obtain ⟨ht, hok⟩ := Buffer.redo_of_replay hstack hreplay
  rw [step_redo_of_final (finalState_of_ok hok),
    History.redo_of_future (h := s.history) hcons]
  exact ⟨rfl, by simp [history, hcons]⟩

theorem returns_redo {s : Session} (h : s.Consistent)
    (hfresh : s.buffer.redoStack = [] ∨ s.future ≠ []) :
    Returns Buffer.redo s.buffer := by
  rcases hfresh with hstack | hfuture
  · exact returns_of_ok (Buffer.redo_of_nil hstack)
  · obtain ⟨f, fs, hcons⟩ := List.exists_cons_of_ne_nil hfuture
    obtain ⟨g, rest, hstack, hreplay, -⟩ := h.next hcons
    obtain ⟨ht, hok⟩ := Buffer.redo_of_replay hstack hreplay
    exact returns_of_ok hok

/-! ## Runs -/

/-- Edits are made inside undo groups, and undo neither replays a command that
removes the first line nor skips a group. -/
def Served (s : Session) : Request → Prop
  | .edit _ => s.buffer.undoGroup ≠ none
  | .undo => s.buffer.UndoReplayable ∧ ¬ s.buffer.UndoSkips
  | _ => True

theorem consistent_step (s : Session) (r : Request) (h : s.Consistent)
    (hr : s.Served r) : (s.step r).Consistent := by
  cases r with
  | startUndoGroup type => exact consistent_startUndoGroup h type
  | endUndoGroup => exact consistent_close h
  | edit e => exact consistent_edit h hr e
  | undo => exact consistent_undo h hr.1 hr.2
  | redo => exact consistent_redo h

theorem consistent_run {requests : List Request} {s : Session}
    (h : s.Consistent) (hall : AllAllowed step Served requests s) :
    (run step requests s).Consistent :=
  run_invariant consistent_step h hall

end Session

end LuaAttic.Codedit
