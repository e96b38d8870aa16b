import Mathlib.Data.List.Basic

/-!
# Words whose first letter tells their length

A list is cut into pieces, each as long as its first letter tells; the last piece may
be cut off by the end of the list.  A list that was put together from words of the
length that they tell is cut into these words again.
-/

namespace LuaAttic.Support

variable {α : Type*} (len : α → ℕ)

/-- The pieces of a list. -/
def pieces : List α → List (List α)
  | [] => []
  | a :: l => (a :: l.take (len a - 1)) :: pieces (l.drop (len a - 1))
termination_by l => l.length
decreasing_by
  simp only [List.length_drop, List.length_cons]
  omega

/-- The word is as long as its first letter tells. -/
def IsWord : List α → Prop
  | [] => False
  | a :: l => l.length + 1 = len a

variable {len}

@[simp] theorem pieces_nil : pieces len [] = [] := by
  rw [pieces]

theorem pieces_cons (a : α) (l : List α) :
    pieces len (a :: l) = (a :: l.take (len a - 1)) :: pieces len (l.drop (len a - 1)) := by
  rw [pieces]

theorem flatten_pieces (l : List α) : (pieces len l).flatten = l := by
  induction l using pieces.induct len with
  | case1 => simp
  | case2 a l ih =>
      rw [pieces_cons, List.flatten_cons, ih, List.cons_append, List.take_append_drop]

theorem pieces_append {w : List α} (hw : IsWord len w) (l : List α) :
    pieces len (w ++ l) = w :: pieces len l := by
  cases w with
  | nil => exact hw.elim
  | cons a w =>
      have hlen : len a - 1 = w.length := by
        have : w.length + 1 = len a := hw
        omega
      rw [List.cons_append, pieces_cons, hlen, List.take_left, List.drop_left]

/-- Words that are put together are found again. -/
theorem pieces_flatten {ws : List (List α)} (h : ∀ w ∈ ws, IsWord len w) :
    pieces len ws.flatten = ws := by
  induction ws with
  | nil => simp
  | cons w ws ih =>
      rw [List.flatten_cons, pieces_append (h w List.mem_cons_self),
        ih fun v hv => h v (List.mem_cons_of_mem w hv)]

/-- A word at the beginning of a list is its first piece. -/
theorem isWord_prefix_unique {w v l t : List α} (hw : IsWord len w) (hv : IsWord len v)
    (h : w ++ l = v ++ t) : w = v ∧ l = t := by
  have hp := congrArg (pieces len) h
  rw [pieces_append hw, pieces_append hv, List.cons.injEq] at hp
  obtain rfl := hp.1
  exact ⟨rfl, List.append_cancel_left h⟩

end LuaAttic.Support
