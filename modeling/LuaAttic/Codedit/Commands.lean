import LuaAttic.Support.CommandLog
import LuaAttic.Codedit.Buffer

/-!
# The recorded commands as a command log

`_ins`, `_rem` and `_upd` act on the lines alone, and what they record depends
on the lines and the open group alone.  This module states both on plain lists
of lines, shows that the recorder so obtained is lawful, the omitted `_upd`
commands included, and proves that executing a command on a buffer is exactly
that.
-/

namespace LuaAttic.Codedit

open LuaAttic.Support LuaAttic.Lua

namespace Cmd

/-- The effect of a command on the lines; it fails where the command's
assertion fails. -/
def exec : Cmd → List Bytes → Option (List Bytes)
  | ins line s, t =>
      if 1 ≤ line ∧ line ≤ t.length + 1 then some (tableInsert t line s)
      else none
  | rem line, t =>
      if 2 ≤ line ∧ line ≤ t.length then some (tableRemove t line) else none
  | upd line s, t =>
      if 1 ≤ line ∧ line ≤ t.length then some (tableSet t line s) else none

/-- The latest command of a log is an `_upd` of the line. -/
def coalesces (line : Int) : List Cmd → Bool
  | upd l _ :: _ => l = line
  | _ => false

/-- The commands of the open group after a command, latest first.  An `_upd`
records nothing when the line has the text already, or when the last recorded
command is an `_upd` of the same line. -/
def record : Cmd → List Bytes → List Cmd → List Cmd
  | ins line _, _, log => rem line :: log
  | rem line, t, log => ins line ((tableGet t line).getD []) :: log
  | upd line s, t, log =>
      if tableGet t line = some s then log
      else if coalesces line log then log
      else upd line ((tableGet t line).getD []) :: log

/-- Every command can be taken back except an insertion at the first line:
its inverse would be a `_rem` of the first line, which asserts. -/
def Invertible : Cmd → Prop
  | ins line _ => 2 ≤ line
  | _ => True

instance : DecidablePred Invertible := fun c =>
  match c with
  | ins line _ => inferInstanceAs (Decidable (2 ≤ line))
  | rem _ => .isTrue trivial
  | upd _ _ => .isTrue trivial

/-- Every command is accepted by some lines except the removal of the first
line, which asserts. -/
def Replayable : Cmd → Prop
  | rem line => 2 ≤ line
  | _ => True

instance : DecidablePred Replayable := fun c =>
  match c with
  | rem line => inferInstanceAs (Decidable (2 ≤ line))
  | ins _ _ => .isTrue trivial
  | upd _ _ => .isTrue trivial

/-- The `_upd` finds the text of its line already in place. -/
def InPlace (t : List Bytes) : Cmd → Prop
  | upd line s => tableGet t line = some s
  | _ => False

instance (t : List Bytes) : DecidablePred (InPlace t) := fun c =>
  match c with
  | ins _ _ => .isFalse id
  | rem _ => .isFalse id
  | upd line s => inferInstanceAs (Decidable (tableGet t line = some s))

/-- The undo log of the buffer. -/
def recorder : Recorder (List Bytes) Cmd where
  exec := exec
  record := record
  Invertible := Invertible
  Replayable := Replayable

theorem exec_ins {line : Int} {t : List Bytes} (s : Bytes)
    (h : 1 ≤ line ∧ line ≤ t.length + 1) :
    exec (ins line s) t = some (tableInsert t line s) :=
  if_pos h

theorem exec_rem {line : Int} {t : List Bytes}
    (h : 2 ≤ line ∧ line ≤ t.length) :
    exec (rem line) t = some (tableRemove t line) :=
  if_pos h

theorem exec_upd {line : Int} {t : List Bytes} (s : Bytes)
    (h : 1 ≤ line ∧ line ≤ t.length) :
    exec (upd line s) t = some (tableSet t line s) :=
  if_pos h

/-- A command whose text is in place changes nothing. -/
theorem InPlace.exec {t : List Bytes} {c : Cmd} (h : InPlace t c) :
    exec c t = some t := by
  cases c with
  | ins line s => exact False.elim h
  | rem line => exact False.elim h
  | upd line s =>
      have hget : tableGet t line = some s := h
      have hrange : 1 ≤ line ∧ line ≤ t.length := by
        by_contra hnot
        rw [(tableGet_eq_none_iff t line).mpr hnot] at hget
        cases hget
      rw [exec_upd s hrange, tableSet_of_get hget]

/-- A command that executes without being in place changes the lines. -/
theorem exec_ne_of_not_inPlace {t t' : List Bytes} {c : Cmd}
    (h : ¬ InPlace t c) (hexec : exec c t = some t') : t' ≠ t := by
  intro heq
  subst heq
  cases c with
  | ins line s =>
      simp only [Cmd.exec, Option.ite_none_right_eq_some] at hexec
      have hlen := congrArg List.length (Option.some.inj hexec.2)
      rw [length_tableInsert s hexec.1] at hlen
      omega
  | rem line =>
      simp only [Cmd.exec, Option.ite_none_right_eq_some] at hexec
      have hlen := congrArg List.length (Option.some.inj hexec.2)
      rw [length_tableRemove (by omega)] at hlen
      omega
  | upd line s =>
      simp only [Cmd.exec, Option.ite_none_right_eq_some] at hexec
      obtain ⟨pre, x, post, rfl, rfl⟩ := exists_split_of_range hexec.1
      apply h
      have hset := Option.some.inj hexec.2
      rw [tableSet_split] at hset
      have hx : s = x := by simpa using hset
      subst hx
      exact tableGet_split pre s post

theorem record_inPlace {t : List Bytes} {c : Cmd} (h : InPlace t c)
    (log : List Cmd) : record c t log = log := by
  cases c with
  | ins line s => exact False.elim h
  | rem line => exact False.elim h
  | upd line s => exact if_pos h

theorem coalesces_eq_true_iff {line : Int} {log : List Cmd} :
    coalesces line log = true ↔ ∃ s rest, log = upd line s :: rest := by
  cases log with
  | nil => simp [coalesces]
  | cons d rest =>
      cases d with
      | ins l x => simp [coalesces]
      | rem l => simp [coalesces]
      | upd l x =>
          simp only [coalesces, decide_eq_true_eq, List.cons.injEq,
            upd.injEq]
          constructor
          · rintro rfl
            exact ⟨x, rest, ⟨rfl, rfl⟩, rfl⟩
          · rintro ⟨s, rest', ⟨hl, -⟩, -⟩
            exact hl

/-- An `_upd` that changes the line either records the old text or finds an
`_upd` of the line on top of the log. -/
theorem record_upd_cases {line : Int} {s s0 : Bytes} {t : List Bytes}
    (hget : tableGet t line = some s0) (hne : s0 ≠ s) (log : List Cmd) :
    record (upd line s) t log = upd line s0 :: log ∨
      ∃ s' rest, log = upd line s' :: rest ∧
        record (upd line s) t log = log := by
  by_cases hco : coalesces line log = true
  · right
    obtain ⟨s', rest, hlog⟩ := coalesces_eq_true_iff.mp hco
    exact ⟨s', rest, hlog, by simp [record, hget, hne, hco]⟩
  · left
    simp [record, hget, hne, hco]

/-- Something is recorded for every command that changes the lines. -/
theorem record_ne_nil_of_not_inPlace {t : List Bytes} {c : Cmd}
    (h : ¬ InPlace t c) {t' : List Bytes} (hexec : exec c t = some t')
    (log : List Cmd) : record c t log ≠ [] := by
  cases c with
  | ins line s => simp [record]
  | rem line => simp [record]
  | upd line s =>
      simp only [Cmd.exec, Option.ite_none_right_eq_some] at hexec
      obtain ⟨pre, x, post, rfl, rfl⟩ := exists_split_of_range hexec.1
      have hget := tableGet_split pre x post
      have hne : x ≠ s := by
        rintro rfl
        exact h hget
      rcases record_upd_cases hget hne log with hrec | ⟨s', rest, rfl, hrec⟩
      · simp [hrec]
      · simp [hrec]

/-- Recording adds at most one command on top of the log. -/
theorem record_cases (c : Cmd) (t : List Bytes) (log : List Cmd) :
    record c t log = log ∨ ∃ d, record c t log = d :: log := by
  cases c with
  | ins line s => exact Or.inr ⟨_, rfl⟩
  | rem line => exact Or.inr ⟨_, rfl⟩
  | upd line s =>
      by_cases hkeep : tableGet t line = some s ∨ coalesces line log = true
      · left
        rcases hkeep with h | h <;> simp [record, h]
      · right
        rw [not_or] at hkeep
        exact ⟨upd line ((tableGet t line).getD []), by
          simp [record, hkeep.1, hkeep.2]⟩

theorem mem_record {c d : Cmd} {t : List Bytes} {log : List Cmd}
    (h : d ∈ log) : d ∈ record c t log := by
  rcases record_cases c t log with hrec | ⟨e, hrec⟩
  · rwa [hrec]
  · rw [hrec]
    exact List.mem_cons_of_mem e h

/-- Executing a command and recording it conserves the text that the log leads
back to, unless the inverse cannot be executed. -/
theorem replay_record {c : Cmd} {t t' : List Bytes} {log : List Cmd}
    (hexec : exec c t = some t')
    (hlog : ∀ d ∈ record c t log, Replayable d) :
    recorder.replay (record c t log) t' = recorder.replay log t := by
  cases c with
  | ins line s =>
      have hline : 2 ≤ line := hlog (rem line) List.mem_cons_self
      simp only [Cmd.exec, Option.ite_none_right_eq_some] at hexec
      obtain ⟨hrange, hins⟩ := hexec
      have hlen := length_tableInsert s hrange
      have hback : exec (rem line) t' = some t := by
        rw [← Option.some.inj hins, exec_rem (by omega)]
        exact congrArg some (List.eraseIdx_insertIdx_self s)
      exact congrArg (fun o => o.bind (recorder.replay log)) hback
  | rem line =>
      simp only [Cmd.exec, Option.ite_none_right_eq_some] at hexec
      obtain ⟨hrange, hrem⟩ := hexec
      obtain ⟨pre, x, post, rfl, rfl⟩ :=
        exists_split_of_range (t := t) (i := line) (by omega)
      have hback : exec (ins (pre.length + 1) x) t' =
          some (pre ++ x :: post) := by
        have ht' : t' = pre ++ post := by
          rw [← Option.some.inj hrem, tableRemove_split]
        rw [ht', exec_ins x (by simp only [List.length_append]; omega),
          tableInsert_split]
      have hrec : record (rem (pre.length + 1)) (pre ++ x :: post) log =
          ins (pre.length + 1) x :: log := by
        simp [record]
      rw [hrec]
      exact congrArg (fun o => o.bind (recorder.replay log)) hback
  | upd line s =>
      by_cases hplace : InPlace t (upd line s)
      · rw [record_inPlace hplace]
        rw [hplace.exec] at hexec
        rw [Option.some.inj hexec]
      · simp only [Cmd.exec, Option.ite_none_right_eq_some] at hexec
        obtain ⟨hrange, hupd⟩ := hexec
        obtain ⟨pre, x, post, rfl, rfl⟩ := exists_split_of_range hrange
        have hget := tableGet_split pre x post
        have ht' : t' = pre ++ s :: post := by
          rw [← Option.some.inj hupd, tableSet_split]
        have hne : x ≠ s := by
          rintro rfl
          exact hplace hget
        -- any `_upd` of the line gives the same text before and after
        have hany : ∀ y, exec (upd (pre.length + 1) y) t' =
            some (pre ++ y :: post) := by
          intro y
          rw [ht', exec_upd y (range_split pre s post), tableSet_split]
        rcases record_upd_cases hget hne log with hrec | ⟨y, rest, rfl, hrec⟩
        · rw [hrec]
          exact congrArg (fun o => o.bind (recorder.replay log)) (hany x)
        · rw [hrec]
          have hsame : exec (upd (pre.length + 1) y) t' =
              exec (upd (pre.length + 1) y) (pre ++ x :: post) := by
            rw [hany y, exec_upd y hrange, tableSet_split]
          exact congrArg (fun o => o.bind (recorder.replay rest)) hsame

/-- What is recorded can itself be taken back, whatever the command was. -/
theorem invertible_record {c : Cmd} {t t' : List Bytes} {log : List Cmd}
    (hexec : exec c t = some t') (hlog : ∀ d ∈ log, Invertible d) :
    ∀ d ∈ record c t log, Invertible d := by
  have hcons : ∀ {e : Cmd}, Invertible e → ∀ d ∈ e :: log, Invertible d := by
    intro e he d hd
    rcases List.mem_cons.mp hd with rfl | hd
    · exact he
    · exact hlog d hd
  cases c with
  | ins line s => exact hcons (e := rem line) trivial
  | rem line =>
      simp only [Cmd.exec, Option.ite_none_right_eq_some] at hexec
      exact hcons (e := ins line _) hexec.1.1
  | upd line s =>
      by_cases hplace : InPlace t (upd line s)
      · rwa [record_inPlace hplace]
      · simp only [Cmd.exec, Option.ite_none_right_eq_some] at hexec
        obtain ⟨pre, x, post, rfl, rfl⟩ := exists_split_of_range hexec.1
        have hget := tableGet_split pre x post
        have hne : x ≠ s := by
          rintro rfl
          exact hplace hget
        rcases record_upd_cases hget hne log with hrec | ⟨y, rest, -, hrec⟩
        · rw [hrec]
          exact hcons (e := upd _ x) trivial
        · rwa [hrec]

/-- The inverse of an insertion can be executed when it was not at the first
line. -/
theorem replayable_record {c : Cmd} {t : List Bytes} {log : List Cmd}
    (hc : Invertible c) (hlog : ∀ d ∈ log, Replayable d) :
    ∀ d ∈ record c t log, Replayable d := by
  have hcons : ∀ {e : Cmd}, Replayable e → ∀ d ∈ e :: log, Replayable d := by
    intro e he d hd
    rcases List.mem_cons.mp hd with rfl | hd
    · exact he
    · exact hlog d hd
  cases c with
  | ins line s => exact hcons (e := rem line) hc
  | rem line => exact hcons (e := ins line _) trivial
  | upd line s =>
      by_cases hkeep : tableGet t line = some s ∨ coalesces line log = true
      · rcases hkeep with h | h <;> simpa [record, h] using hlog
      · rw [not_or] at hkeep
        rw [record, if_neg hkeep.1, if_neg hkeep.2]
        exact hcons (e := upd line _) trivial

instance : recorder.Lawful where
  replay_record := replay_record
  mem_record := mem_record
  invertible_record := invertible_record
  replayable_record := replayable_record

end Cmd

namespace Buffer

open Cmd

/-! ## Commands on a buffer -/

/-- The buffer with other lines and with the log of its open group, if any,
changed. -/
def advance (b : Buffer) (t : List Bytes) (ht : t ≠ [])
    (log : List Cmd → List Cmd) : Buffer :=
  { b with
    lines := t
    linesNonempty := ht
    undoGroup := b.undoGroup.map fun g => { g with cmds := log g.cmds } }

@[simp] theorem advance_lines (b : Buffer) (t : List Bytes) (ht : t ≠ [])
    (log : List Cmd → List Cmd) : (b.advance t ht log).lines = t := rfl

theorem advance_self (b : Buffer) :
    b.advance b.lines b.linesNonempty id = b := by
  cases b
  simp [advance]

theorem updRecorded_eq (line : Int) {b : Buffer} {g : Group}
    (hg : b.undoGroup = some g) :
    updRecorded line b = coalesces line g.cmds := by
  unfold updRecorded lastUndoCommand coalesces
  rw [hg]
  cases hcmds : g.cmds with
  | nil => simp [hcmds]
  | cons d rest => cases d <;> simp [hcmds]

/-- Where a command's assertion holds, it has its effect on the lines and on
the log, and on nothing else. -/
theorem call_of_exec {c : Cmd} {b : Buffer} {t : List Bytes}
    (h : exec c b.lines = some t) :
    ∃ ht, call c b = .ok () (b.advance t ht (record c b.lines)) := by
  cases c with
  | ins line s =>
      simp only [Cmd.exec, Option.ite_none_right_eq_some] at h
      obtain ⟨hrange, hins⟩ := h
      cases Option.some.inj hins
      exact ⟨tableInsert_ne_nil b.linesNonempty line s, by
        simp [call, ins, hrange, undoCommand, advance, record]⟩
  | rem line =>
      simp only [Cmd.exec, Option.ite_none_right_eq_some] at h
      obtain ⟨hrange, hrem⟩ := h
      cases Option.some.inj hrem
      exact ⟨tableRemove_ne_nil hrange, by
        simp [call, rem, hrange, undoCommand, advance, record]⟩
  | upd line s =>
      simp only [Cmd.exec, Option.ite_none_right_eq_some] at h
      obtain ⟨hrange, hupd⟩ := h
      cases Option.some.inj hupd
      refine ⟨tableSet_ne_nil b.linesNonempty line s, ?_⟩
      obtain ⟨pre, x, post, hsplit, rfl⟩ := exists_split_of_range hrange
      have hget : tableGet b.lines (pre.length + 1) = some x := by
        rw [hsplit, tableGet_split]
      by_cases hx : x = s
      · subst hx
        have hset := tableSet_of_get hget
        have hcall : call (.upd (pre.length + 1) x) b = .ok () b := by
          simp [call, upd, hget]
        rw [hcall]
        cases b
        simp_all [advance, record]
      · cases hg : b.undoGroup with
        | none =>
            have hnot : updRecorded (pre.length + 1) b = false := by
              simp [updRecorded, lastUndoCommand, hg]
            simp [call, upd, hget, hx, hnot, undoCommand, advance, hg]
        | some g =>
            have hco := updRecorded_eq (pre.length + 1) hg
            cases hrec : coalesces (pre.length + 1) g.cmds with
            | false =>
                rw [hrec] at hco
                simp [call, upd, hget, hx, hco, undoCommand, advance, hg,
                  record, hrec]
            | true =>
                rw [hrec] at hco
                simp [call, upd, hget, hx, hco, advance, hg, record, hrec]

theorem call_of_fail {c : Cmd} {b : Buffer} (h : exec c b.lines = none) :
    call c b = .error .assertionFailed b := by
  cases c with
  | ins line s =>
      simp only [Cmd.exec, ite_eq_right_iff, reduceCtorEq] at h
      rw [call, ins, get_bind_apply, if_neg h, throw_apply]
  | rem line =>
      simp only [Cmd.exec, ite_eq_right_iff, reduceCtorEq] at h
      rw [call, rem, get_bind_apply, dif_neg h, throw_apply]
  | upd line s =>
      simp only [Cmd.exec, ite_eq_right_iff, reduceCtorEq] at h
      have hget := (tableGet_eq_none_iff b.lines line).mpr h
      simp [call, upd, hget]

end Buffer

end LuaAttic.Codedit
