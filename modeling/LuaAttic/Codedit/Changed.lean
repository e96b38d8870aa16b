import LuaAttic.Codedit.Session

/-!
# Change tracking

Every public edit ends by setting the changed flags, so an edit that changes
the lines leaves all of them set, wherever it stopped.  The low-level commands
do not set them, and undo and redo execute nothing else: they leave the flags
as they were.
-/

namespace LuaAttic.Codedit

open LuaAttic.Support LuaAttic.Lua Str

namespace Buffer

/-- A flag is set, if it is registered. -/
def FlagSet (flag : String) (b : Buffer) : Prop :=
  ∀ p ∈ b.changed, p.1 = flag → p.2 = true

/-- Every registered flag is set. -/
def AllFlagsSet (b : Buffer) : Prop := ∀ p ∈ b.changed, p.2 = true

instance (flag : String) (b : Buffer) : Decidable (b.FlagSet flag) :=
  inferInstanceAs (Decidable (∀ _ ∈ _, _))

instance (b : Buffer) : Decidable b.AllFlagsSet :=
  inferInstanceAs (Decidable (∀ _ ∈ _, _))

theorem allFlagsSet_iff (b : Buffer) :
    b.AllFlagsSet ↔ ∀ flag, b.FlagSet flag := by
  constructor
  · intro h flag p hp _
    exact h p hp
  · intro h p hp
    exact h p.1 p hp rfl

theorem allFlagsSet_invalidate (b : Buffer) : (invalidate b).AllFlagsSet := by
  intro p hp
  obtain ⟨q, -, rfl⟩ := List.mem_map.mp hp
  rfl

/-! ## Public edits -/

/-- A flag that is set stays set, and it is set if the lines have changed. -/
structure Tracks (flag : String) (b b' : Buffer) : Prop where
  stays : b.FlagSet flag → b'.FlagSet flag
  tracked : b'.lines = b.lines ∨ b'.FlagSet flag

instance (flag : String) : IsPreorder Buffer (Tracks flag) where
  refl _ := ⟨id, Or.inl rfl⟩
  trans a b c h k := by
    refine ⟨k.stays ∘ h.stays, ?_⟩
    rcases k.tracked with hlines | hset
    · rcases h.tracked with hlines' | hset'
      · exact Or.inl (hlines.trans hlines')
      · exact Or.inr (k.stays hset')
    · exact Or.inr hset

variable {flag : String}

/-- A method that invalidates last leaves the flags set when it returns. -/
theorem tracks_of_invalidate {m : Program Buffer Unit} {b : Buffer}
    (herr : ∀ e b', m b = .error e b' → b' = b) :
    Relates (Tracks flag) (do m; modify invalidate) b := by
  cases h : m b with
  | ok a b' =>
      rw [Relates, finalState_bind_of_ok h]
      have hset : (invalidate b').FlagSet flag :=
        (allFlagsSet_iff _).mp (allFlagsSet_invalidate b') flag
      exact ⟨fun _ => hset, Or.inr hset⟩
  | error e b' =>
      rw [Relates, finalState_of_error (bind_of_error h), herr e b' h]
      exact refl_of (Tracks flag) b

theorem eq_of_call_error {c : Cmd} {b b' : Buffer} {e : Error}
    (h : call c b = .error e b') : b' = b := by
  cases hexec : Cmd.exec c b.lines with
  | none =>
      rw [call_of_fail hexec] at h
      cases h
      rfl
  | some t =>
      obtain ⟨ht, hok⟩ := call_of_exec hexec
      rw [hok] at h
      cases h

theorem tracks_setline (line : Int) (s : Bytes) (b : Buffer) :
    Relates (Tracks flag) (setline line s) b := by
  refine Relates.get_bind (tracks_of_invalidate ?_)
  intro e b' h
  exact eq_of_call_error (c := .upd line _) h

/-- Where a line number is accepted `insert_line` returns, so it does not stop
between its two commands. -/
theorem tracks_insertLine (line : Int) (s : Bytes) (b : Buffer) :
    Relates (Tracks flag) (insertLine line s) b := by
  by_cases hrange : 1 ≤ line ∧ line ≤ b.lines.length + 1
  · have hreturns : Returns (insertLine line s) b := by
      rcases insertLine_cases hrange s with ⟨_, _, _, _, h⟩ | ⟨_, _, _, h⟩
      · exact h.returns
      · exact h.returns
    refine Relates.get_bind (tracks_of_invalidate ?_)
    intro e b' h
    have herr : insertLine line s b = .error e b' := by
      rw [insertLine, get_bind_apply, bind_of_error h]
    exact absurd hreturns (not_returns_of_error herr)
  · obtain ⟨e, herr⟩ := insertLine_out hrange s
    rw [Relates, finalState_of_error herr]
    exact refl_of (Tracks flag) b

theorem tracks_removeLine (line : Int) (b : Buffer) :
    Relates (Tracks flag) (removeLine line) b := by
  by_cases hrange : 2 ≤ line ∧ line ≤ b.lines.length
  · have hreturns : Returns (removeLine line) b := by
      rcases removeLine_cases hrange with ⟨_, _, _, _, _, h⟩ | ⟨_, _, _, _, h⟩
      · exact h.returns
      · exact h.returns
    have hsame : removeLine line = (do
        (do
          rem line
          let b ← get
          (if (b.lines.length : Int) = line - 1 then
              upd (line - 1) (b.selectLine (line - 1))
            else pure ()))
        modify invalidate) := by
      simp only [removeLine, bind_assoc]
    rw [hsame] at hreturns ⊢
    apply tracks_of_invalidate
    intro e b' h
    exact absurd hreturns (not_returns_of_error (bind_of_error h))
  · rw [Relates, finalState_of_error (removeLine_out hrange)]
    exact refl_of (Tracks flag) b

theorem tracks_moveLine (line1 line2 : Int) (b : Buffer) :
    Relates (Tracks flag) (moveLine line1 line2) b := by
  refine Relates.get_bind ?_
  cases b.lineAt line1 with
  | none => exact Relates.pure _ b
  | some s1 =>
      cases b.lineAt line2 with
      | none => exact Relates.pure _ b
      | some s2 =>
          exact Relates.bind (tracks_setline line1 s2 b)
            fun _ t _ => tracks_setline line2 s1 t

theorem tracks_appendLines (line : Int) (fuel : ℕ) (b : Buffer) :
    Relates (Tracks flag) (appendLines line fuel) b := by
  induction fuel generalizing b with
  | zero => exact Relates.pure _ b
  | succ fuel ih =>
      refine Relates.get_bind ?_
      by_cases hline : line > b.lines.length
      · rw [if_pos hline]
        exact Relates.bind (tracks_insertLine _ _ b) fun _ t _ => ih t
      · rw [if_neg hline]
        exact Relates.pure _ b

theorem tracks_extend (line i : Int) (b : Buffer) :
    Relates (Tracks flag) (extend line i) b := by
  refine Relates.get_bind ?_
  refine Relates.bind (tracks_appendLines _ _ b) fun _ t _ => ?_
  refine Relates.get_bind ?_
  cases t.eol (if line < 1 then 1 else line) with
  | none => exact Relates.throw _ t
  | some eol =>
      by_cases hi : (if i < 1 then 1 else i) > eol
      · simp only [if_pos hi]
        exact tracks_setline _ _ t
      · simp only [if_neg hi]
        exact Relates.pure _ t

theorem tracks_insertLines (line : Int) (rest : List Bytes) (b : Buffer) :
    Relates (Tracks flag) (insertLines line rest) b := by
  induction rest generalizing line b with
  | nil => exact Relates.pure _ b
  | cons s rest ih =>
      exact Relates.bind (tracks_insertLine _ s b) fun _ t _ => ih _ t

theorem tracks_insert (line i : Int) (s : Bytes) (b : Buffer) :
    Relates (Tracks flag) (insert line i s) b := by
  refine Relates.bind (tracks_extend line i b) fun _ t _ => ?_
  refine Relates.get_bind ?_
  refine Relates.bind ?_ fun line' u _ => ?_
  · cases lineStrings (sub (t.selectLine line) 1 (i - 1) ++ s ++
        subFrom (t.selectLine line) i) with
    | nil => exact Relates.pure _ t
    | cons first rest =>
        exact Relates.bind (tracks_setline line first t)
          fun _ u _ => tracks_insertLines line rest u
  · refine Relates.get_bind ?_
    cases u.eol line' with
    | none => exact Relates.throw _ u
    | some eol => exact Relates.pure _ u

theorem tracks_removeLines (line : Int) (n : ℕ) (b : Buffer) :
    Relates (Tracks flag) (removeLines line n) b := by
  induction n generalizing b with
  | zero => exact Relates.pure _ b
  | succ n ih =>
      exact Relates.bind (tracks_removeLine _ b) fun _ t _ => ih t

theorem tracks_remove (line1 i1 line2 i2 : Int) (b : Buffer) :
    Relates (Tracks flag) (remove line1 i1 line2 i2) b := by
  refine Relates.get_bind ?_
  exact Relates.bind (tracks_removeLines _ _ b)
    fun _ t _ => tracks_setline _ _ t

theorem tracks_edit (e : Edit) (b : Buffer) : Tracks flag b (b.edit e) := by
  cases e with
  | insertLine line s => exact tracks_insertLine line s b
  | removeLine line => exact tracks_removeLine line b
  | setline line s => exact tracks_setline line s b
  | moveLine line1 line2 => exact tracks_moveLine line1 line2 b
  | extend line i => exact tracks_extend line i b
  | insert line i s =>
      exact Relates.bind (tracks_insert line i s b)
        fun _ t _ => Relates.pure _ t
  | remove line1 i1 line2 i2 => exact tracks_remove line1 i1 line2 i2 b

/-! ## Undo and redo -/

theorem changed_call {c : Cmd} (b : Buffer) :
    (finalState (call c) b).changed = b.changed := by
  cases hexec : Cmd.exec c b.lines with
  | none => rw [finalState_of_error (call_of_fail hexec)]
  | some t =>
      obtain ⟨ht, hok⟩ := call_of_exec hexec
      rw [finalState_of_ok hok]
      rfl

/-- The buffers have the same flags. -/
def SameFlags (b b' : Buffer) : Prop := b'.changed = b.changed

instance : IsPreorder Buffer SameFlags where
  refl _ := rfl
  trans _ _ _ h k := Eq.trans k h

theorem sameFlags_callAll (cs : List Cmd) (b : Buffer) :
    Relates SameFlags (callAll cs) b := by
  induction cs generalizing b with
  | nil => exact Relates.pure _ b
  | cons c cs ih => exact Relates.bind (changed_call b) fun _ t _ => ih t

theorem sameFlags_endUndoGroup (b : Buffer) : SameFlags b (endUndoGroup b) := by
  unfold endUndoGroup
  split
  · rfl
  · rfl

theorem sameFlags_startUndoGroup (type : String) (b : Buffer) :
    SameFlags b (startUndoGroup type b) := by
  unfold startUndoGroup
  split
  · rfl
  · exact sameFlags_endUndoGroup b

theorem sameFlags_undoFrom {pop : Buffer → Option (Group × Buffer)}
    (hpop : ∀ b p, pop b = some p → SameFlags b p.2) (b : Buffer) :
    Relates SameFlags (undoFrom pop) b := by
  refine Relates.bind (sameFlags_endUndoGroup b) fun _ t _ => ?_
  refine Relates.get_bind ?_
  cases h : pop t with
  | none => exact Relates.pure _ t
  | some p =>
      refine Relates.bind (hpop t p h) fun _ u _ => ?_
      refine Relates.bind (sameFlags_startUndoGroup _ u) fun _ v _ => ?_
      refine Relates.bind (sameFlags_callAll _ v) fun _ w _ => ?_
      exact sameFlags_endUndoGroup w

theorem sameFlags_undo (b : Buffer) : Relates SameFlags undo b := by
  refine Relates.bind (sameFlags_undoFrom ?_ b) fun _ t _ => ?_
  · intro b p h
    unfold popUndo at h
    split at h
    · cases h
    · cases h
      rfl
  · change SameFlags t (moveToRedo t)
    unfold moveToRedo
    split
    · rfl
    · rfl

theorem sameFlags_redo (b : Buffer) : Relates SameFlags redo b := by
  refine sameFlags_undoFrom ?_ b
  intro b p h
  unfold popRedo at h
  split at h
  · cases h
  · cases h
    rfl

/-! ## Operations and runs -/

/-- The buffer after a request, whether it has returned or raised. -/
def serve (b : Buffer) : Request → Buffer
  | .startUndoGroup type => b.startUndoGroup type
  | .endUndoGroup => b.endUndoGroup
  | .edit e => b.edit e
  | .undo => finalState undo b
  | .redo => finalState redo b

end Buffer

/-- The request replays recorded commands. -/
def Request.Replays : Request → Prop
  | .undo | .redo => True
  | _ => False

instance : DecidablePred Request.Replays := fun r =>
  match r with
  | .undo | .redo => .isTrue trivial
  | .startUndoGroup _ | .endUndoGroup | .edit _ => .isFalse id

namespace Buffer

variable {flag : String}

/-- A session serves requests the way its buffer does. -/
theorem buffer_step (s : Session) (r : Request) :
    (s.step r).buffer = s.buffer.serve r := by
  cases r with
  | startUndoGroup type =>
      unfold Session.step serve
      by_cases hsame : s.buffer.undoGroup.map Group.type = some type
      · simp [hsame, startUndoGroup]
      · simp [hsame]
  | endUndoGroup => rfl
  | edit e => rfl
  | undo => rfl
  | redo => rfl

theorem flagSet_of_sameFlags {b b' : Buffer} (h : SameFlags b b') :
    b'.FlagSet flag ↔ b.FlagSet flag := by
  unfold FlagSet
  rw [h]

theorem sameFlags_of_replays {r : Request} (hr : r.Replays) (b : Buffer) :
    SameFlags b (b.serve r) := by
  cases r with
  | undo => exact sameFlags_undo b
  | redo => exact sameFlags_redo b
  | startUndoGroup type => exact False.elim hr
  | endUndoGroup => exact False.elim hr
  | edit e => exact False.elim hr

/-- A request other than undo and redo tracks the changes it makes. -/
theorem tracks_of_not_replays {r : Request} (hr : ¬ r.Replays) (b : Buffer) :
    Tracks flag b (b.serve r) := by
  cases r with
  | undo => exact absurd trivial hr
  | redo => exact absurd trivial hr
  | edit e => exact tracks_edit e b
  | endUndoGroup =>
      have hflags := sameFlags_endUndoGroup b
      exact ⟨(flagSet_of_sameFlags hflags).mpr, Or.inl (endUndoGroup_lines b)⟩
  | startUndoGroup type =>
      have hflags := sameFlags_startUndoGroup type b
      refine ⟨(flagSet_of_sameFlags hflags).mpr, Or.inl ?_⟩
      simp only [serve, startUndoGroup]
      split
      · rfl
      · exact endUndoGroup_lines b

/-- A request that changes the lines leaves all flags set exactly when it is
not an undo or redo, or all flags were set before.  So in a run whose undos and
redos are made while a flag is set, that flag is clear at the end only if the
lines are those of the start. -/
theorem changed_tracked (b : Buffer) :
    (∀ r : Request, (b.serve r).lines ≠ b.lines →
      ((b.serve r).AllFlagsSet ↔ ¬ r.Replays ∨ b.AllFlagsSet)) ∧
    (∀ (flag : String) (requests : List Request),
      AllAllowed serve (fun b r => r.Replays → b.FlagSet flag) requests b →
      ¬ (run serve requests b).FlagSet flag →
      (run serve requests b).lines = b.lines) := by
  constructor
  · intro r hlines
    by_cases hr : r.Replays
    · have hflags : (b.serve r).changed = b.changed := sameFlags_of_replays hr b
      simp only [hr, not_true_eq_false, false_or, AllFlagsSet, hflags]
    · have hset : ∀ flag, (b.serve r).FlagSet flag := fun flag =>
        (tracks_of_not_replays hr b).tracked.resolve_left hlines
      simp only [hr, not_false_eq_true, true_or, iff_true]
      exact (allFlagsSet_iff _).mpr hset
  · intro flag requests hall hclear
    have htracks : Tracks flag b (run serve requests b) := by
      refine run_relates ?_ hall
      intro b r hr
      by_cases hreplays : r.Replays
      · have hset : (b.serve r).FlagSet flag :=
          (flagSet_of_sameFlags (sameFlags_of_replays hreplays b)).mpr
            (hr hreplays)
        exact ⟨fun _ => hset, Or.inr hset⟩
      · exact tracks_of_not_replays hreplays b
    exact htracks.tracked.resolve_right hclear

theorem changed_tracked_setline :
    let b := (new [LF]).loadString [97]
    ((b.serve (.edit (.setline 1 [98]))).AllFlagsSet ↔
      ¬ (Request.edit (.setline 1 [98])).Replays ∨ b.AllFlagsSet) ∧
    (run serve [.startUndoGroup "type", .edit (.extend 1 1), .endUndoGroup]
      b).lines = b.lines :=
  ⟨(changed_tracked _).1 _ (by decide),
    (changed_tracked _).2 "file" _ (by decide) (by decide)⟩

/-- The flag has been cleared after the edit, as after a save; undo changes the
text and does not set it. -/
theorem undo_not_tracked :
    let b := run serve [.startUndoGroup "type", .edit (.setline 1 [98])]
      ((new [LF]).loadString [97])
    let saved : Buffer := { b with changed := [("file", false)] }
    (saved.serve .undo).lines ≠ saved.lines ∧
      ¬ (saved.serve .undo).AllFlagsSet := by
  decide

end Buffer

end LuaAttic.Codedit
