import Mathlib.Data.List.DropRight
import Mathlib.Data.List.Chain

/-!
# Collapsing runs of letters

Every run of letters of a class becomes one letter.  A list that comes out of this has no
two letters of the class side by side, and is not changed when it is done again; at most
one letter is trimmed at each of its ends.
-/

namespace LuaAttic.Support

variable {α : Type*} (c : α → Bool) (d : α)

/-- One letter for each run of letters of the class. -/
def squeeze : List α → List α
  | [] => []
  | a :: l => if c a then d :: squeeze (l.dropWhile c) else a :: squeeze l
termination_by l => l.length
decreasing_by
  · exact (List.length_dropWhile_le c l).trans_lt (Nat.lt_succ_self _)
  · exact Nat.lt_succ_self _

/-- The list without the letters of the class at both ends. -/
def trim (l : List α) : List α := (l.dropWhile c).rdropWhile c

/-- The letters of the class are the one letter, and stand alone. -/
structure Squeezed (l : List α) : Prop where
  apart : l.IsChain fun a b => ¬ (c a = true ∧ c b = true)
  letter : ∀ a ∈ l, c a = true → a = d

variable {c d}

@[simp] theorem squeeze_nil : squeeze c d [] = [] := by
  rw [squeeze]

theorem squeeze_of_pos {a : α} (h : c a = true) (l : List α) :
    squeeze c d (a :: l) = d :: squeeze c d (l.dropWhile c) := by
  rw [squeeze, if_pos h]

theorem squeeze_of_neg {a : α} (h : c a = false) (l : List α) :
    squeeze c d (a :: l) = a :: squeeze c d l := by
  rw [squeeze, if_neg (by rw [h]; exact Bool.false_ne_true)]

theorem squeeze_append_of_none {x : List α} (h : ∀ a ∈ x, c a = false) (l : List α) :
    squeeze c d (x ++ l) = x ++ squeeze c d l := by
  induction x with
  | nil => rfl
  | cons a x ih =>
      obtain ⟨ha, hx⟩ := List.forall_mem_cons.mp h
      rw [List.cons_append, squeeze_of_neg ha, ih hx, List.cons_append]

theorem mem_squeeze {a : α} {l : List α} (h : a ∈ squeeze c d l) : a ∈ l ∨ a = d := by
  induction l using squeeze.induct c with
  | case1 => simp at h
  | case2 b l hb ih =>
      rw [squeeze_of_pos hb, List.mem_cons] at h
      obtain rfl | h := h
      · exact .inr rfl
      · refine (ih h).imp_left fun hmem => ?_
        exact List.mem_cons_of_mem b ((List.dropWhile_sublist c).subset hmem)
  | case3 b l hb ih =>
      rw [squeeze_of_neg (Bool.eq_false_iff.mpr hb), List.mem_cons] at h
      obtain rfl | h := h
      · exact .inl List.mem_cons_self
      · exact (ih h).imp_left (List.mem_cons_of_mem b)

/-- What does not begin with a letter of the class does not do so afterwards. -/
theorem head?_squeeze {l : List α} (h : ∀ a ∈ l.head?, c a = false) :
    (squeeze c d l).head? = l.head? := by
  cases l with
  | nil => rw [squeeze_nil]
  | cons a l => rw [squeeze_of_neg (h a rfl), List.head?_cons, List.head?_cons]

theorem head?_dropWhile_not (l : List α) : ∀ a ∈ (l.dropWhile c).head?, c a = false := by
  intro a ha
  have := List.head?_dropWhile_not c l
  rw [ha] at this
  simpa using this

theorem squeezed_squeeze (hd : c d = true) (l : List α) : Squeezed c d (squeeze c d l) := by
  induction l using squeeze.induct c with
  | case1 =>
      rw [squeeze_nil]
      exact ⟨List.IsChain.nil, by simp⟩
  | case2 b l hb ih =>
      have hhead := head?_squeeze (d := d) (head?_dropWhile_not (c := c) l)
      rw [squeeze_of_pos hb]
      refine ⟨List.isChain_cons.mpr ⟨?_, ih.apart⟩, ?_⟩
      · intro a ha
        rw [hhead] at ha
        rw [head?_dropWhile_not l a ha]
        simp
      · intro a ha hca
        obtain rfl | ha := List.mem_cons.mp ha
        · rfl
        · exact ih.letter a ha hca
  | case3 b l hb ih =>
      have hb' := Bool.eq_false_iff.mpr hb
      rw [squeeze_of_neg hb']
      refine ⟨List.isChain_cons.mpr ⟨?_, ih.apart⟩, ?_⟩
      · intro a _
        rw [hb']
        simp
      · intro a ha hca
        obtain rfl | ha := List.mem_cons.mp ha
        · exact absurd hca hb
        · exact ih.letter a ha hca

/-! ## Lists that are squeezed -/

section Squeezed

variable {l : List α}

theorem Squeezed.part (h : Squeezed c d l) {x : List α} (hx : x <:+: l) : Squeezed c d x where
  apart := List.IsChain.infix h.apart hx
  letter a ha := h.letter a (hx.subset ha)

theorem dropWhile_eq_self {l : List α} (h : ∀ a ∈ l.head?, c a = false) :
    l.dropWhile c = l := by
  cases l with
  | nil => rfl
  | cons a l => rw [List.dropWhile_cons_of_neg (by rw [h a rfl]; exact Bool.false_ne_true)]

/-- After a letter of the class comes another kind of letter. -/
theorem Squeezed.head?_tail {a : α} (h : Squeezed c d (a :: l)) (ha : c a = true) :
    ∀ b ∈ l.head?, c b = false := by
  intro b hb
  have := h.apart.rel_head? hb
  rw [Bool.eq_false_iff]
  exact fun hcb => this ⟨ha, hcb⟩

/-- Before a letter of the class too. -/
theorem Squeezed.getLast?_init {a : α} (h : Squeezed c d (l ++ [a])) (ha : c a = true) :
    ∀ b ∈ l.getLast?, c b = false := by
  intro b hb
  obtain ⟨hne, rfl⟩ := List.mem_getLast?_eq_getLast hb
  have := h.apart.rel_getLast_head_of_append hne (List.cons_ne_nil a [])
  rw [Bool.eq_false_iff]
  exact fun hcb => this ⟨hcb, ha⟩

theorem Squeezed.squeeze_eq (h : Squeezed c d l) : squeeze c d l = l := by
  induction l with
  | nil => rw [squeeze_nil]
  | cons a l ih =>
      have hl := ih (h.part (List.suffix_cons a l).isInfix)
      by_cases ha : c a = true
      · rw [squeeze_of_pos ha, dropWhile_eq_self (h.head?_tail ha), hl,
          h.letter a List.mem_cons_self ha]
      · rw [squeeze_of_neg (Bool.eq_false_iff.mpr ha), hl]

end Squeezed

/-! ## Lists that are trimmed -/

theorem trim_within (l : List α) : trim c l <:+: l :=
  (List.rdropWhile_prefix c _).isInfix.trans (List.dropWhile_suffix c).isInfix

/-- A trimmed list does not begin with a letter of the class. -/
theorem head?_trim (l : List α) : ∀ a ∈ (trim c l).head?, c a = false := by
  intro a ha
  obtain ⟨t, ht⟩ := List.rdropWhile_prefix c (l.dropWhile c)
  apply head?_dropWhile_not l a
  rw [← ht, List.head?_append]
  rw [trim] at ha
  rw [ha]
  rfl

/-- A trimmed list does not end with a letter of the class. -/
theorem getLast?_trim (l : List α) : ∀ a ∈ (trim c l).getLast?, c a = false := by
  intro a ha
  obtain ⟨hne, rfl⟩ := List.mem_getLast?_eq_getLast ha
  rw [Bool.eq_false_iff]
  exact List.rdropWhile_last_not c _ hne

theorem rdropWhile_eq_self {l : List α} (h : ∀ a ∈ l.getLast?, c a = false) :
    l.rdropWhile c = l := by
  rw [List.rdropWhile_eq_self_iff]
  intro hl
  rw [h _ (List.getLast?_eq_some_getLast hl)]
  exact Bool.false_ne_true

theorem trim_eq_self {l : List α} (hhead : ∀ a ∈ l.head?, c a = false)
    (hlast : ∀ a ∈ l.getLast?, c a = false) : trim c l = l := by
  rw [trim, dropWhile_eq_self hhead, rdropWhile_eq_self hlast]

/-- The list squeezed and trimmed. -/
def normalize (c : α → Bool) (d : α) (l : List α) : List α := trim c (squeeze c d l)

theorem squeezed_normalize (hd : c d = true) (l : List α) : Squeezed c d (normalize c d l) :=
  (squeezed_squeeze hd l).part (trim_within _)

/-- Normalizing again changes nothing. -/
theorem normalize_normalize (hd : c d = true) (l : List α) :
    normalize c d (normalize c d l) = normalize c d l := by
  conv_lhs => rw [normalize, (squeezed_normalize hd l).squeeze_eq]
  exact trim_eq_self (head?_trim _) (getLast?_trim _)

theorem mem_normalize {a : α} {l : List α} (h : a ∈ normalize c d l) : a ∈ l ∨ a = d :=
  mem_squeeze ((trim_within _).subset h)

end LuaAttic.Support
