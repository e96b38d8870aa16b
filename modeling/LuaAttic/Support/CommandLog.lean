import Mathlib.Order.Defs.Unbundled
import Mathlib.Data.List.Basic

/-!
# Undo logs of invertible commands

An editor that undoes by recording keeps, for every command it executes, a
command that takes it back.  The log lists the recorded commands latest first,
so replaying a log from its head takes the latest command back first.

A recorder is free to leave a command out of the log when replaying the log
gives the same state without it.  What it owes is one equation: executing a
command and recording it does not change the state that replaying the log
leads to.  Everything else, undoing a whole log and undoing the undo, follows
from this conserved quantity.

Some commands may have an inverse that no state accepts.  A log with such an
inverse cannot be replayed, so the equation is owed for the other logs only.
-/

namespace LuaAttic.Support

/-- Commands on a state, together with the way their inverses are recorded.
`exec` fails when the command's precondition does not hold; `Replayable`
singles out the commands that some state accepts, and `Invertible` those whose
inverse is one of them. -/
structure Recorder (State Cmd : Type*) where
  exec : Cmd → State → Option State
  record : Cmd → State → List Cmd → List Cmd
  Invertible : Cmd → Prop
  Replayable : Cmd → Prop

namespace Recorder

variable {State Cmd : Type*} (r : Recorder State Cmd)

/-- Execute the commands of a log, latest first. -/
def replay : List Cmd → State → Option State
  | [], s => some s
  | c :: cs, s => (r.exec c s).bind (replay cs)

/-- Execute commands while recording their inverses on top of a log, up to the
first command that fails. -/
def reach : List Cmd → State → List Cmd → State × List Cmd
  | [], s, log => (s, log)
  | c :: cs, s, log =>
      match r.exec c s with
      | none => (s, log)
      | some t => reach cs t (r.record c s log)

/-- The laws a recorder obeys. -/
class Lawful : Prop where
  /-- Recording conserves the state that the log leads back to. -/
  replay_record : ∀ {c s t log}, r.exec c s = some t →
    (∀ d ∈ r.record c s log, r.Replayable d) →
      r.replay (r.record c s log) t = r.replay log s
  /-- Nothing is taken off the log. -/
  mem_record : ∀ {c s log d}, d ∈ log → d ∈ r.record c s log
  /-- Whatever is recorded can itself be taken back. -/
  invertible_record : ∀ {c s t log}, r.exec c s = some t →
    (∀ d ∈ log, r.Invertible d) → ∀ d ∈ r.record c s log, r.Invertible d
  /-- The inverse of an invertible command can be executed. -/
  replayable_record : ∀ {c s log}, r.Invertible c →
    (∀ d ∈ log, r.Replayable d) → ∀ d ∈ r.record c s log, r.Replayable d

@[simp] theorem replay_nil (s : State) : r.replay [] s = some s := rfl

@[simp] theorem replay_cons (c : Cmd) (cs : List Cmd) (s : State) :
    r.replay (c :: cs) s = (r.exec c s).bind (r.replay cs) := rfl

@[simp] theorem reach_nil (s : State) (log : List Cmd) :
    r.reach [] s log = (s, log) := rfl

theorem reach_cons_of_exec {c : Cmd} {s t : State} (h : r.exec c s = some t)
    (cs log : List Cmd) :
    r.reach (c :: cs) s log = r.reach cs t (r.record c s log) := by
  simp [reach, h]

theorem reach_cons_of_fail {c : Cmd} {s : State} (h : r.exec c s = none)
    (cs log : List Cmd) : r.reach (c :: cs) s log = (s, log) := by
  simp [reach, h]

/-- A replay that succeeds reaches the state it returns. -/
theorem reach_fst_of_replay {cs : List Cmd} {s t : State}
    (h : r.replay cs s = some t) (log : List Cmd) :
    (r.reach cs s log).1 = t := by
  induction cs generalizing s log with
  | nil => simpa using h
  | cons c cs ih =>
      rw [replay_cons, Option.bind_eq_some_iff] at h
      obtain ⟨u, hu, hcs⟩ := h
      rw [reach_cons_of_exec r hu]
      exact ih hcs _

/-- What is reached does not depend on the log recorded on the way. -/
theorem reach_fst_log (cs : List Cmd) (s : State) (log log' : List Cmd) :
    (r.reach cs s log).1 = (r.reach cs s log').1 := by
  induction cs generalizing s log log' with
  | nil => rfl
  | cons c cs ih =>
      cases h : r.exec c s with
      | none => simp [reach_cons_of_fail r h]
      | some t =>
          rw [reach_cons_of_exec r h, reach_cons_of_exec r h]
          exact ih t _ _

/-! ## Steps that keep the log -/

/-- From the state `p.1` with log `p.2` to the state `q.1` with log `q.2`:
commands are only added to the log, it is as invertible as before, and it
leads back to the same state if it can be replayed. -/
structure LogStep (p q : State × List Cmd) : Prop where
  mem : ∀ d ∈ p.2, d ∈ q.2
  invertible : (∀ d ∈ p.2, r.Invertible d) → ∀ d ∈ q.2, r.Invertible d
  replay : (∀ d ∈ q.2, r.Replayable d) → r.replay q.2 q.1 = r.replay p.2 p.1

instance : IsPreorder (State × List Cmd) r.LogStep where
  refl _ := ⟨fun _ => id, id, fun _ => rfl⟩
  trans p q o h k := by
    refine ⟨fun d hd => k.mem d (h.mem d hd), k.invertible ∘ h.invertible, ?_⟩
    intro hreplayable
    have hq : ∀ d ∈ q.2, r.Replayable d :=
      fun d hd => hreplayable d (k.mem d hd)
    exact (k.replay hreplayable).trans (h.replay hq)

/-- When nothing is recorded the state is unchanged. -/
theorem LogStep.eq_of_nil {r : Recorder State Cmd} {p q : State × List Cmd}
    (h : r.LogStep p q) (hq : q.2 = []) : q.1 = p.1 := by
  have hp : p.2 = [] := by
    apply List.eq_nil_iff_forall_not_mem.mpr
    intro d hd
    have hmem := h.mem d hd
    rw [hq] at hmem
    cases hmem
  have hreplay := h.replay (by simp [hq])
  rw [hp, hq] at hreplay
  exact Option.some.inj hreplay

section Lawful

variable [r.Lawful]

theorem logStep_of_exec {c : Cmd} {s t : State} (h : r.exec c s = some t)
    (log : List Cmd) : r.LogStep (s, log) (t, r.record c s log) where
  mem := fun _ => Lawful.mem_record
  invertible := Lawful.invertible_record h
  replay := Lawful.replay_record h

/-- Recording a whole run keeps the log. -/
theorem logStep_reach (cs : List Cmd) (s : State) (log : List Cmd) :
    r.LogStep (s, log) (r.reach cs s log) := by
  induction cs generalizing s log with
  | nil => exact refl_of r.LogStep (s, log)
  | cons c cs ih =>
      cases h : r.exec c s with
      | none =>
          rw [reach_cons_of_fail r h]
          exact refl_of r.LogStep (s, log)
      | some t =>
          rw [reach_cons_of_exec r h]
          exact trans_of r.LogStep (logStep_of_exec r h log) (ih t _)

/-- A run of invertible commands records a log that can be replayed. -/
theorem replayable_reach {cs : List Cmd} (hcs : ∀ c ∈ cs, r.Invertible c)
    {log : List Cmd} (hlog : ∀ d ∈ log, r.Replayable d) (s : State) :
    ∀ d ∈ (r.reach cs s log).2, r.Replayable d := by
  induction cs generalizing s log with
  | nil => exact hlog
  | cons c cs ih =>
      cases h : r.exec c s with
      | none =>
          rw [reach_cons_of_fail r h]
          exact hlog
      | some t =>
          rw [reach_cons_of_exec r h]
          have hrec := Lawful.replayable_record (r := r) (s := s)
            (hcs c List.mem_cons_self) hlog
          exact ih (fun d hd => hcs d (List.mem_cons_of_mem c hd)) hrec t

/-- Recording does not empty a log. -/
theorem reach_ne_nil {log : List Cmd} (hlog : log ≠ []) (cs : List Cmd)
    (s : State) : (r.reach cs s log).2 ≠ [] := by
  obtain ⟨d, hd⟩ := List.exists_mem_of_ne_nil log hlog
  exact List.ne_nil_of_mem ((r.logStep_reach cs s log).mem d hd)

/-- Undoing a log and then undoing that undo comes back to the start. -/
theorem replay_reach_of_replay {cs : List Cmd}
    (hcs : ∀ c ∈ cs, r.Invertible c) {s t : State}
    (h : r.replay cs s = some t) :
    r.replay (r.reach cs s []).2 t = some s := by
  have hback := (logStep_reach r cs s []).replay
    (r.replayable_reach hcs (by simp) s)
  rwa [reach_fst_of_replay r h, replay_nil] at hback

end Lawful

/-! ## Stacks of logs -/

/-- Replaying the logs of a stack one after the other, from the state `t`,
passes through the listed states, as far as the logs can be replayed. -/
def Chain : State → List (List Cmd) → List State → Prop
  | _, [], [] => True
  | t, log :: logs, s :: states =>
      (∀ c ∈ log, r.Invertible c) ∧
        ((∀ c ∈ log, r.Replayable c) → r.replay log t = some s) ∧
          Chain s logs states
  | _, _, _ => False

@[simp] theorem chain_nil (t : State) : r.Chain t [] [] := trivial

@[simp] theorem chain_cons (t s : State) (log : List Cmd)
    (logs : List (List Cmd)) (states : List State) :
    r.Chain t (log :: logs) (s :: states) ↔
      (∀ c ∈ log, r.Invertible c) ∧
        ((∀ c ∈ log, r.Replayable c) → r.replay log t = some s) ∧
          r.Chain s logs states := Iff.rfl

theorem Chain.length_eq {t : State} {logs : List (List Cmd)}
    {states : List State} (h : r.Chain t logs states) :
    logs.length = states.length := by
  induction logs generalizing t states with
  | nil =>
      cases states with
      | nil => rfl
      | cons s states => exact False.elim h
  | cons log logs ih =>
      cases states with
      | nil => exact False.elim h
      | cons s states => simpa using ih h.2.2

theorem Chain.of_cons_states {t s : State} {logs : List (List Cmd)}
    {states : List State} (h : r.Chain t logs (s :: states)) :
    ∃ log rest, logs = log :: rest ∧
      ((∀ c ∈ log, r.Replayable c) → r.replay log t = some s) ∧
        r.Chain s rest states := by
  cases logs with
  | nil => exact False.elim h
  | cons log rest => exact ⟨log, rest, rfl, h.2⟩

theorem Chain.of_cons_logs {t : State} {log : List Cmd}
    {logs : List (List Cmd)} {states : List State}
    (h : r.Chain t (log :: logs) states) :
    ∃ s rest, states = s :: rest ∧ (∀ c ∈ log, r.Invertible c) ∧
      ((∀ c ∈ log, r.Replayable c) → r.replay log t = some s) ∧
        r.Chain s logs rest := by
  cases states with
  | nil => exact False.elim h
  | cons s rest => exact ⟨s, rest, rfl, h⟩

end Recorder

end LuaAttic.Support
