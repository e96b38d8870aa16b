import Mathlib.Data.List.Basic

/-!
# Double-ended queues with bulk operations

The abstract queue is the list of its elements.  An operation adds or removes
several elements at one end and keeps their order, so that what is added at an
end is given back when it is removed from there.
-/

namespace LuaAttic.Support

/-- The operations on a queue; `keep` reads without removing. -/
inductive DequeOp (α : Type*)
  | pushFront (xs : List α)
  | pushBack (xs : List α)
  | pullFront (n : ℕ) (keep : Bool)
  | pullBack (n : ℕ) (keep : Bool)

namespace DequeOp

variable {α : Type*}

/-- The queue after an operation. -/
@[simp] def apply (q : List α) : DequeOp α → List α
  | pushFront xs => xs ++ q
  | pushBack xs => q ++ xs
  | pullFront n keep => if keep then q else q.drop n
  | pullBack n keep => if keep then q else q.take (q.length - n)

/-- What an operation gives back. -/
@[simp] def read (q : List α) : DequeOp α → List α
  | pushFront _ => []
  | pushBack _ => []
  | pullFront n _ => q.take n
  | pullBack n _ => q.drop (q.length - n)

theorem pullFront_pushFront (q xs : List α) :
    read (apply q (pushFront xs)) (pullFront xs.length false) = xs ∧
      apply (apply q (pushFront xs)) (pullFront xs.length false) = q := by
  simp

theorem pullBack_pushBack (q xs : List α) :
    read (apply q (pushBack xs)) (pullBack xs.length false) = xs ∧
      apply (apply q (pushBack xs)) (pullBack xs.length false) = q := by
  simp

/-! ## Queues of a limited capacity -/

/-- The operation does not exceed the capacity, if there is one, and does not
ask for more elements than there are. -/
def fits (capacity : Option ℕ) (q : List α) : DequeOp α → Bool
  | pushFront xs => capacity.all fun c => decide (q.length + xs.length ≤ c)
  | pushBack xs => capacity.all fun c => decide (q.length + xs.length ≤ c)
  | pullFront n _ => decide (n ≤ q.length)
  | pullBack n _ => decide (n ≤ q.length)

/-- The queue after an operation, which changes nothing if it does not fit. -/
def applyWithin (capacity : Option ℕ) (q : List α) (op : DequeOp α) : List α :=
  if op.fits capacity q then op.apply q else q

/-- What an operation gives back, if it fits. -/
def readWithin (capacity : Option ℕ) (q : List α) (op : DequeOp α) :
    Option (List α) :=
  if op.fits capacity q then some (op.read q) else none

end DequeOp

end LuaAttic.Support
