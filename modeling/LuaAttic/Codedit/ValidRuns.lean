import LuaAttic.Codedit.Validity
import LuaAttic.Support.Run

/-!
# Runs of editor commands

Undo and redo leave the cursor and the selection where they are, so these stay
in the text as long as the text that a group leads to has their positions.
-/

namespace LuaAttic.Codedit

open LuaAttic.Support LuaAttic.Lua Cmd

/-- The position is one of the text with the given lines. -/
def InText (lines : List Bytes) (line i : Int) : Prop :=
  ∃ s ∈ tableGet lines line, 1 ≤ i ∧ i ≤ Str.termChar s

instance (lines : List Bytes) (line i : Int) :
    Decidable (InText lines line i) :=
  inferInstanceAs (Decidable (∃ _ ∈ _, _))

theorem validPos_iff_inText {b : Buffer} {line i : Int} :
    ValidPos b line i ↔ InText b.lines line i :=
  Buffer.validPos_iff

/-- The commands that the cursor's restrictions apply to. -/
def Command.Restricted : Command → Prop
  | .moveCursor _ mode => mode ≠ .unrestricted
  | .moveCursorToCoords _ _ mode => mode ≠ .unrestricted
  | _ => True

instance (c : Command) : Decidable c.Restricted := by
  cases c <;> unfold Command.Restricted <;> infer_instance

namespace Editor

/-! ## Undo and redo -/

/-- The text with the given lines is well formed and has the positions of the
cursor and of both endpoints of the selection. -/
def Fits (e : Editor) (lines : List Bytes) : Prop :=
  WellFormed lines ∧ InText lines e.cursor.line e.cursor.i ∧
    InText lines e.selection.line1 e.selection.i1 ∧
    InText lines e.selection.line2 e.selection.i2

instance (e : Editor) (lines : List Bytes) : Decidable (e.Fits lines) :=
  inferInstanceAs (Decidable (_ ∧ _))

/-- The editor fits the text that the recorded commands of the group, if there
is one, lead back to. -/
def FitsBehind (e : Editor) (group : Option Group) : Prop :=
  ∀ g ∈ group, e.Fits (recorder.reach g.cmds e.buffer.lines []).1

instance (e : Editor) (group : Option Group) : Decidable (e.FitsBehind group) :=
  inferInstanceAs (Decidable (∀ _ ∈ _, _))

/-- An undo or a redo is called when the editor fits the text that the group
on top of its stack leads back to. -/
def StaysInText (e : Editor) : Command → Prop
  | .undo => e.FitsBehind e.buffer.endUndoGroup.undoStack.head?
  | .redo => e.FitsBehind e.buffer.redoStack.head?
  | _ => True

instance (e : Editor) (c : Command) : Decidable (e.StaysInText c) := by
  cases c <;> unfold StaysInText <;> infer_instance

/-- A valid editor whose text is replaced is valid if and only if it fits the
new text. -/
theorem valid_iff_fits {e : Editor} (h : Valid e) {b : Buffer}
    (hterm : b.lineTerminator = e.buffer.lineTerminator) :
    Valid { e with buffer := b } ↔ e.Fits b.lines := by
  constructor
  · rintro ⟨hready, hcursor, hsel⟩
    exact ⟨hready.sound.lines, validPos_iff_inText.mp hcursor,
      validPos_iff_inText.mp hsel.anchor, validPos_iff_inText.mp hsel.free⟩
  · rintro ⟨hlines, hcursor, hanchor, hfree⟩
    exact ⟨⟨⟨hterm.symm ▸ h.sound.lineTerminator, hlines⟩, h.restricted⟩,
      validPos_iff_inText.mpr hcursor,
      ⟨validPos_iff_inText.mpr hanchor, validPos_iff_inText.mpr hfree⟩⟩

/-- Replaying a group keeps the editor valid exactly when the editor fits the
text behind it. -/
theorem valid_replay_iff {e : Editor} (h : Valid e) {m : Program Buffer Unit}
    {group : Option Group}
    (hm : Buffer.Leads ((group.map Group.cmds).getD []) e.buffer
      (finalState m e.buffer)) :
    Valid (finalState (onBuffer m) e) ↔ e.FitsBehind group := by
  rw [finalState_onBuffer, valid_iff_fits h hm.lineTerminator, hm.lines]
  cases group with
  | none =>
      have hfits := (valid_iff_fits h (b := e.buffer) rfl).mp h
      simpa [FitsBehind] using hfits
  | some g => simp [FitsBehind]

/-! ## Runs -/

/-- A command keeps a valid editor valid exactly when it stays in the text. -/
theorem valid_execute_iff {e : Editor} (h : Valid e) {c : Command}
    (hc : c.Restricted) : Valid (e.execute c) ↔ e.StaysInText c := by
  have hkeeps : ∀ {m : Program Editor Unit}, KeepsValid m →
      (Valid (finalState m e) ↔ True) :=
    fun hm => iff_true_intro (Ends.final (hm e h))
  cases c with
  | insertChar s => exact hkeeps (keepsValid_insertChar s)
  | newline => exact hkeeps keepsValid_newline
  | deletePos => exact hkeeps (keepsValid_deletePos false)
  | deletePrevPos => exact hkeeps (keepsValid_deletePos true)
  | moveCursor direction mode =>
      exact hkeeps (keepsValid_moveCursor direction hc)
  | moveCursorToCoords x y mode =>
      exact hkeeps (keepsValid_moveCursorToCoords x y hc)
  | selectAll =>
      exact hkeeps (KeepsValid.bind (keepsValid_moveCursor _ (by decide))
        fun _ => keepsValid_moveCursor _ (by decide))
  | selectWordAtCursor =>
      exact hkeeps fun _ h => Ends.throw h
  | selectLineAtCursor =>
      exact hkeeps (KeepsValid.bind (keepsValid_moveCursor _ (by decide))
        fun _ => keepsValid_moveCursor _ (by decide))
  | moveLinesUp => exact hkeeps keepsValid_moveLinesUp
  | moveLinesDown => exact hkeeps keepsValid_moveLinesDown
  | cut => exact hkeeps keepsValid_cut
  | copy => exact hkeeps keepsValid_copy
  | paste => exact hkeeps keepsValid_paste
  | undo => exact valid_replay_iff h (Buffer.leads_undo e.buffer)
  | redo => exact valid_replay_iff h (Buffer.leads_redo e.buffer)

theorem valid_new {lineTerminator : Bytes}
    (hterm : IsTerminator lineTerminator) (text : Bytes) (view : View)
    (clipboard : Bytes) : Valid (new lineTerminator text view clipboard) where
  sound := sound_loadString text hterm
  restricted := ⟨rfl, by simp [new, Cursor.new]⟩
  cursor := Buffer.validPos_first _
  selection := ⟨Buffer.validPos_first _, Buffer.validPos_first _⟩

theorem valid_run {commands : List Command}
    (hcommands : ∀ c ∈ commands, c.Restricted) {e : Editor} (he : Valid e)
    (hall : AllAllowed execute StaysInText commands e) :
    Valid (run execute commands e) := by
  induction commands generalizing e with
  | nil => exact he
  | cons c commands ih =>
      have hc := hcommands c List.mem_cons_self
      have hrest := fun d hd => hcommands d (List.mem_cons_of_mem c hd)
      exact ih hrest ((valid_execute_iff he hc).mpr hall.1) hall.2

/-- The metrics of the class after a rendering. -/
def rendered : View := { View.new with clip := some ⟨0, 0, 640, 480⟩ }

end Editor

end LuaAttic.Codedit
