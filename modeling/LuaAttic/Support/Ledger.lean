import LuaAttic.Support.Program

/-!
# Resources in a log of calls

A program asks its environment, which may answer anything, and the log keeps what
was asked with what was answered.  A ledger reads from the log which resources
were acquired and released; calls that do neither are quiet.
-/

namespace LuaAttic.Support

variable {ε C R D : Type}

/-- A call that the environment answers, knowing what was asked before. -/
def ask (answer : List (C × R) → C → R) (c : C) : EStateM ε (List (C × R)) R :=
  fun log => .ok (answer log c) (log ++ [(c, answer log c)])

/-- What the entries of a log acquire and release. -/
structure Ledger (E D : Type) where
  acquires : E → Option D
  releases : E → Option D

namespace Ledger

variable {E : Type} [DecidableEq D] (L : Ledger E D)

def acquired (log : List E) : List D := log.filterMap L.acquires

def released (log : List E) : List D := log.filterMap L.releases

/-- The resources that are held after one more entry. -/
def step (held : List D) (e : E) : List D :=
  (L.acquires e).toList ++ (L.releases e).elim held held.erase

/-- The resources that are held after a log, of those acquired in it. -/
def held (log : List E) : List D := log.foldl L.step []

/-- An entry that neither acquires nor releases. -/
def Quiet (e : E) : Prop := L.acquires e = none ∧ L.releases e = none

/-- The second log goes on from the first with quiet entries only. -/
def Silent (s t : List E) : Prop := ∃ new, t = s ++ new ∧ ∀ e ∈ new, L.Quiet e

omit [DecidableEq D] in
theorem silent_append {s new : List E} (h : ∀ e ∈ new, L.Quiet e) : L.Silent s (s ++ new) :=
  ⟨new, rfl, h⟩

omit [DecidableEq D] in
theorem silent_refl (s : List E) : L.Silent s s :=
  ⟨[], (List.append_nil s).symm, fun _ he => absurd he List.not_mem_nil⟩

omit [DecidableEq D] in
theorem silent_trans {s t u : List E} (h : L.Silent s t) (h' : L.Silent t u) :
    L.Silent s u := by
  obtain ⟨new, rfl, hnew⟩ := h
  obtain ⟨more, rfl, hmore⟩ := h'
  refine ⟨new ++ more, List.append_assoc s new more, fun e he => ?_⟩
  rcases List.mem_append.mp he with he | he
  · exact hnew e he
  · exact hmore e he

instance : IsPreorder (List E) L.Silent where
  refl := L.silent_refl
  trans _ _ _ := L.silent_trans

section Quiet

variable {new : List E} (h : ∀ e ∈ new, L.Quiet e)

include h

omit [DecidableEq D] in
theorem acquired_of_quiet : L.acquired new = [] :=
  List.filterMap_eq_nil_iff.mpr fun e he => (h e he).1

omit [DecidableEq D] in
theorem released_of_quiet : L.released new = [] :=
  List.filterMap_eq_nil_iff.mpr fun e he => (h e he).2

theorem foldl_step_of_quiet (held : List D) : new.foldl L.step held = held := by
  induction new with
  | nil => rfl
  | cons e new ih =>
      obtain ⟨hacquires, hreleases⟩ := h e List.mem_cons_self
      have hstep : L.step held e = held := by
        simp [step, hacquires, hreleases]
      rw [List.foldl_cons, hstep]
      exact ih fun e' he' => h e' (List.mem_cons_of_mem e he')

/-- One resource that is acquired before quiet entries. -/
theorem held_of_acquires {e : E} {d : D} (hacquires : L.acquires e = some d)
    (hreleases : L.releases e = none) : L.held (e :: new) = [d] := by
  have hstep : L.step [] e = [d] := by
    simp [step, hacquires, hreleases]
  rw [held, List.foldl_cons, hstep]
  exact L.foldl_step_of_quiet h _

omit [DecidableEq D] in
theorem acquired_of_acquires {e : E} {d : D} (hacquires : L.acquires e = some d) :
    L.acquired (e :: new) = [d] := by
  rw [acquired, List.filterMap_cons_some hacquires]
  exact congrArg _ (L.acquired_of_quiet h)

omit [DecidableEq D] in
theorem released_of_acquires {e : E} (hreleases : L.releases e = none) :
    L.released (e :: new) = [] := by
  rw [released, List.filterMap_cons_none hreleases]
  exact L.released_of_quiet h

end Quiet

theorem held_append (log new : List E) :
    L.held (log ++ new) = new.foldl L.step (L.held log) :=
  List.foldl_append

omit [DecidableEq D] in
theorem released_append (log new : List E) :
    L.released (log ++ new) = L.released log ++ L.released new :=
  List.filterMap_append

omit [DecidableEq D] in
/-- Quiet calls are silent. -/
theorem relates_ask {L : Ledger (C × R) D} {answer : List (C × R) → C → R} {c : C}
    (h : ∀ r, L.Quiet (c, r)) (log : List (C × R)) :
    Relates (ε := ε) L.Silent (ask answer c) log :=
  L.silent_append fun e he => by
    rw [List.mem_singleton.mp he]
    exact h _

end Ledger

end LuaAttic.Support
