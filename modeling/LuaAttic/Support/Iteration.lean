import Mathlib.Order.WellFounded

/-!
# Whole iterations

An iterator is called until it has no value, with the value before it and what it keeps
for itself; a call can fail.  A whole iteration is the list of the values.
-/

namespace LuaAttic.Support

variable {σ α ε : Type*}

/-- The values from a control value and a state on. -/
inductive Yields (next : Option α → σ → Except ε (Option α × σ)) :
    Option α → σ → List α → Prop
  | done {c st st'} (h : next c st = .ok (none, st')) : Yields next c st []
  | step {c st a st' l} (h : next c st = .ok (some a, st')) (hrest : Yields next (some a) st' l) :
      Yields next c st (a :: l)

variable {next : Option α → σ → Except ε (Option α × σ)} {c : Option α} {st : σ} {l l' : List α}

/-- An iteration gives one list of values. -/
theorem Yields.unique (h : Yields next c st l) (h' : Yields next c st l') : l = l' := by
  induction h generalizing l' with
  | done h =>
      cases h' with
      | done h' => rfl
      | step h' hrest' => cases h.symm.trans h'
  | step h hrest ih =>
      cases h' with
      | done h' => cases h.symm.trans h'
      | step h' hrest' =>
          cases h.symm.trans h'
          rw [ih hrest']

theorem Yields.iff_eq (h : Yields next c st l) : Yields next c st l' ↔ l' = l :=
  ⟨fun h' => h'.unique h, fun heq => heq ▸ h⟩

end LuaAttic.Support
