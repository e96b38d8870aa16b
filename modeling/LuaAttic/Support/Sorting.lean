import LuaAttic.Support.Program

/-!
# Sorting by comparisons

A sorting procedure asks for comparisons and goes on with the answers.  A program with a
state may give them.  Where the answers are those of an order, a procedure that is right
does not fail.
-/

namespace LuaAttic.Support

variable {α ε σ : Type}

/-- A procedure: what it has sorted, a failure, or a question and how it goes on. -/
inductive Sorting (α : Type)
  | sorted (l : List α)
  | failed
  | asks (a b : α) (next : Bool → Sorting α)

/-- A function orders the elements of a list, as far as they are different. -/
structure OrdersOn (lt : α → α → Bool) (l : List α) : Prop where
  asymm : ∀ a ∈ l, ∀ b ∈ l, a ≠ b → lt a b = true → lt b a = false
  cotrans : ∀ a ∈ l, ∀ b ∈ l, ∀ c ∈ l, a ≠ b → b ≠ c → a ≠ c →
    lt a c = true → lt a b = true ∨ lt b c = true

namespace Sorting

/-- The list that is sorted by a function. -/
def eval (lt : α → α → Bool) : Sorting α → Option (List α)
  | sorted l => some l
  | failed => none
  | asks a b next => eval lt (next (lt a b))

/-- The list that is sorted by a program. -/
def run (less : α → α → EStateM ε σ Bool) : Sorting α → EStateM ε σ (Option (List α))
  | sorted l => pure (some l)
  | failed => pure none
  | asks a b next => do
      let answer ← less a b
      run less (next answer)

/-- Sorting does not fail where different elements are ordered. -/
def Total (sort : List α → Sorting α) : Prop :=
  ∀ l lt, l.Nodup → OrdersOn lt l → (sort l).eval lt ≠ none

/-! ## Answers that stay -/

section Answers

variable {less : α → α → EStateM ε σ Bool} (decides : σ → α → α → Bool → Prop)
  {q : Sorting α} {s s' : σ} {r : Option (List α)}

/-- Where answers stay as they are, the program sorts as a function does that gives them. -/
theorem eval_of_run
    (hless : ∀ a b s answer s', less a b s = .ok answer s' → decides s' a b answer)
    (hkeep : ∀ a b s answer s', less a b s = .ok answer s' →
      ∀ x y r, decides s x y r → decides s' x y r)
    (h : run less q s = .ok r s') :
    (∀ x y answer, decides s x y answer → decides s' x y answer) ∧
      ∀ lt, (∀ x y answer, decides s' x y answer → lt x y = answer) → q.eval lt = r := by
  induction q generalizing s with
  | sorted l =>
      cases h
      exact ⟨fun _ _ _ => id, fun _ _ => rfl⟩
  | failed =>
      cases h
      exact ⟨fun _ _ _ => id, fun _ _ => rfl⟩
  | asks a b next ih =>
      obtain ⟨answer, t, hanswer, hrest⟩ := exists_of_bind_ok h
      obtain ⟨hstay, heval⟩ := ih answer hrest
      refine ⟨fun x y r hr => hstay x y r (hkeep a b s answer t hanswer x y r hr), ?_⟩
      intro lt hlt
      have hab : lt a b = answer := hlt a b answer (hstay a b answer (hless a b s answer t hanswer))
      rw [eval, hab]
      exact heval lt hlt

end Answers

/-! ## Inserting -/

/-- An element is put before the first one that is greater. -/
def insert (a : α) : List α → (List α → Sorting α) → Sorting α
  | [], next => next [a]
  | b :: l, next => asks a b fun less =>
      if less then next (a :: b :: l) else insert a l fun l' => next (b :: l')

/-- The elements of a list are inserted into one that is sorted. -/
def insertAll (acc : List α) : List α → Sorting α
  | [] => sorted acc
  | a :: l => insert a acc fun acc' => insertAll acc' l

/-- Sorting by insertion. -/
def insertion (l : List α) : Sorting α := insertAll [] l

theorem eval_insert_ne_none {lt : α → α → Bool} {next : List α → Sorting α} (a : α) (l : List α)
    (h : ∀ l', (next l').eval lt ≠ none) : (insert a l next).eval lt ≠ none := by
  induction l generalizing next with
  | nil => exact h [a]
  | cons b l ih =>
      rw [insert, eval]
      split_ifs
      · exact h (a :: b :: l)
      · exact ih fun l' => h (b :: l')

theorem eval_insertAll_ne_none {lt : α → α → Bool} (acc l : List α) :
    (insertAll acc l).eval lt ≠ none := by
  induction l generalizing acc with
  | nil => exact Option.some_ne_none acc
  | cons a l ih => exact eval_insert_ne_none a acc ih

theorem total_insertion : Total (insertion : List α → Sorting α) :=
  fun l _ _ _ => eval_insertAll_ne_none [] l

end Sorting

end LuaAttic.Support
