import Mathlib.Logic.Function.Iterate
import Mathlib.Data.List.Chain

/-!
# Linear histories

What undo and redo are for: a document has a past, a present and a future.
Undo steps back, redo takes that step forward again, and a change gives up the
future.  Nothing is said here about how a program gets from one document to
the other.
-/

namespace LuaAttic.Support

/-- A document's past (latest first), its present, and the future that was
undone (earliest first). -/
@[ext]
structure History (α : Type*) where
  past : List α
  present : α
  future : List α

namespace History

variable {α : Type*}

def undo (h : History α) : History α :=
  match h.past with
  | [] => h
  | p :: ps => ⟨ps, p, h.present :: h.future⟩

def redo (h : History α) : History α :=
  match h.future with
  | [] => h
  | f :: fs => ⟨h.present :: h.past, f, fs⟩

theorem undo_of_past {h : History α} {p : α} {ps : List α}
    (hpast : h.past = p :: ps) : h.undo = ⟨ps, p, h.present :: h.future⟩ := by
  simp [undo, hpast]

theorem redo_of_future {h : History α} {f : α} {fs : List α}
    (hfuture : h.future = f :: fs) :
    h.redo = ⟨h.present :: h.past, f, fs⟩ := by
  simp [redo, hfuture]

theorem redo_undo {h : History α} (hpast : h.past ≠ []) : h.undo.redo = h := by
  obtain ⟨p, ps, hcons⟩ := List.exists_cons_of_ne_nil hpast
  rw [undo_of_past hcons, redo_of_future rfl, ← hcons]

theorem length_past_undo (h : History α) :
    h.undo.past.length = h.past.length - 1 := by
  cases hpast : h.past with
  | nil => simp [undo, hpast]
  | cons p ps => simp [undo_of_past hpast]

theorem length_past_iterate_undo (h : History α) (k : ℕ) :
    (undo^[k] h).past.length = h.past.length - k := by
  induction k generalizing h with
  | zero => rfl
  | succ k ih =>
      rw [Function.iterate_succ_apply, ih, length_past_undo]
      omega

/-- `k` steps back lead to the `k`-th latest document. -/
theorem present_iterate_undo {h : History α} {k : ℕ}
    (hk : k ≤ h.past.length) :
    (h.present :: h.past)[k]? = some (undo^[k] h).present := by
  induction k generalizing h with
  | zero => rfl
  | succ k ih =>
      obtain ⟨p, ps, hcons⟩ := List.exists_cons_of_length_pos
        (Nat.lt_of_lt_of_le (Nat.succ_pos k) hk)
      have hundo := undo_of_past hcons
      rw [hcons, List.length_cons] at hk
      have hstep := ih (h := h.undo) (by
        rw [hundo]
        exact Nat.le_of_succ_le_succ hk)
      rw [Function.iterate_succ_apply, ← hstep, hundo, hcons,
        List.getElem?_cons_succ]

/-- `k` steps back and `k` steps forward come back to the same history. -/
theorem redo_iterate_undo_iterate {h : History α} {k : ℕ}
    (hk : k ≤ h.past.length) : redo^[k] (undo^[k] h) = h := by
  induction k with
  | zero => rfl
  | succ k ih =>
      have hpast : (undo^[k] h).past ≠ [] := by
        apply List.ne_nil_of_length_pos
        rw [length_past_iterate_undo]
        omega
      rw [Function.iterate_succ_apply, Function.iterate_succ_apply',
        redo_undo hpast]
      exact ih (by omega)

theorem length_future_iterate_undo {h : History α} {k : ℕ}
    (hk : k ≤ h.past.length) :
    (undo^[k] h).future.length = h.future.length + k := by
  induction k with
  | zero => rfl
  | succ k ih =>
      have hpast : (undo^[k] h).past ≠ [] := by
        apply List.ne_nil_of_length_pos
        rw [length_past_iterate_undo]
        omega
      obtain ⟨p, ps, hcons⟩ := List.exists_cons_of_ne_nil hpast
      rw [Function.iterate_succ_apply', undo_of_past hcons, List.length_cons,
        ih (by omega)]
      omega

/-! ## The line of documents -/

/-- All documents, the earliest first. -/
def line (h : History α) : List α := h.past.reverse ++ h.present :: h.future

/-- A change, which gives up the future. -/
def advance (h : History α) (a : α) : History α := ⟨h.present :: h.past, a, []⟩

@[simp] theorem line_undo (h : History α) : h.undo.line = h.line := by
  cases hpast : h.past with
  | nil => simp [undo, hpast]
  | cons p ps => simp [undo_of_past hpast, line, hpast]

@[simp] theorem line_redo (h : History α) : h.redo.line = h.line := by
  cases hfuture : h.future with
  | nil => simp [redo, hfuture]
  | cons f fs => simp [redo_of_future hfuture, line, hfuture]

theorem line_advance (h : History α) (a : α) :
    (h.advance a).line = h.past.reverse ++ [h.present, a] := by
  simp [advance, line]

theorem present_mem_line (h : History α) : h.present ∈ h.line := by
  simp [line]

/-- A change keeps what holds of all documents. -/
theorem forall_line_advance {P : α → Prop} {h : History α} {a : α}
    (hline : ∀ d ∈ h.line, P d) (ha : P a) : ∀ d ∈ (h.advance a).line, P d := by
  intro d hd
  rw [line_advance] at hd
  rcases List.mem_append.mp hd with hpast | hpair
  · exact hline d (List.mem_append_left _ hpast)
  · rcases List.mem_cons.mp hpair with rfl | hlast
    · exact hline _ h.present_mem_line
    · rwa [List.mem_singleton.mp hlast]

/-- A change that is related to the document before it keeps the chain. -/
theorem isChain_line_advance {R : α → α → Prop} {h : History α} {a : α}
    (hline : h.line.IsChain R) (ha : R h.present a) : (h.advance a).line.IsChain R := by
  have hpast : (h.past.reverse ++ [h.present]).IsChain R :=
    hline.prefix ⟨h.future, by simp [line]⟩
  rw [line_advance, List.append_cons]
  refine hpast.append (List.isChain_singleton a) fun x hx y hy => ?_
  obtain rfl : h.present = x := by simpa using hx
  obtain rfl : a = y := by simpa using hy
  exact ha

/-! ## What redo depends on -/

/-- The two histories have the same present and the same future. -/
def SameAhead (h h' : History α) : Prop :=
  h.present = h'.present ∧ h.future = h'.future

theorem SameAhead.redo {h h' : History α} (heq : SameAhead h h') :
    SameAhead h.redo h'.redo := by
  obtain ⟨hpresent, hfuture⟩ := heq
  cases hf : h.future with
  | nil => simp [History.redo, SameAhead, hf, ← hfuture, hpresent]
  | cons f fs =>
      rw [redo_of_future hf, redo_of_future (hfuture ▸ hf)]
      exact ⟨rfl, rfl⟩

theorem SameAhead.iterate_redo {h h' : History α} (heq : SameAhead h h')
    (k : ℕ) : SameAhead (History.redo^[k] h) (History.redo^[k] h') := by
  induction k with
  | zero => exact heq
  | succ k ih =>
      rw [Function.iterate_succ_apply', Function.iterate_succ_apply']
      exact ih.redo

theorem SameAhead.trans {h h' h'' : History α} (heq : SameAhead h h')
    (heq' : SameAhead h' h'') : SameAhead h h'' :=
  ⟨heq.1.trans heq'.1, heq.2.trans heq'.2⟩

end History

end LuaAttic.Support
