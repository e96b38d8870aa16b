import LuaAttic.Serialization.Pp2

/-!
# The order of keys

What the order function answers is known when the texts that are written for tables are.
For given texts it orders different keys, so that sorting does not fail.
-/

namespace LuaAttic.Serialization

open LuaAttic.Lua LuaAttic.Support

variable {T : Type} (pf : Formatter) (heap : Heap T) (text : Value T → Bytes) (t : T)

/-- The order function for given texts. -/
def keyLess (a b : Value T) : Bool :=
  if a.type ≠ b.type then a.type < b.type
  else
    match a, b with
    | .boolean _, .boolean b => b
    | .table _, .table _ =>
        if text a = text b then text (heap.index t a) < text (heap.index t b)
        else text a < text b
    | .number x, .number y => x < y
    | .string x, .string y =>
        if pf.isIdentifier x ≠ pf.isIdentifier y then pf.isIdentifier x else x < y
    | _, _ => false

section Order

variable {a b c : Value T}

theorem keyLess_of_type_lt (h : a.type < b.type) : keyLess pf heap text t a b = true := by
  unfold keyLess
  rw [if_pos h.ne]
  exact decide_eq_true h

theorem type_le_of_keyLess (h : keyLess pf heap text t a b = true) : a.type ≤ b.type := by
  unfold keyLess at h
  by_cases htype : a.type ≠ b.type
  · rw [if_pos htype] at h
    exact (of_decide_eq_true h).le
  · exact (not_not.mp htype).le

theorem keyLess_number (x y : Extended ℚ) :
    keyLess pf heap text t (.number x) (.number y) = decide (x < y) := rfl

theorem keyLess_string (x y : Bytes) :
    keyLess pf heap text t (.string x) (.string y) =
      if pf.isIdentifier x ≠ pf.isIdentifier y then pf.isIdentifier x else decide (x < y) := rfl

theorem keyLess_table (x y : T) :
    keyLess pf heap text t (.table x) (.table y) =
      if text (.table x) = text (.table y) then
        decide (text (heap.index t (.table x)) < text (heap.index t (.table y)))
      else decide (text (.table x) < text (.table y)) := rfl

/-- Values of one type are made in one way. -/
theorem form_of_type_eq (h : a.type = b.type) :
    match a with
    | .nil => b = .nil
    | .boolean _ => ∃ y, b = .boolean y
    | .number _ => ∃ y, b = .number y
    | .string _ => ∃ y, b = .string y
    | .table _ => ∃ y, b = .table y := by
  cases a <;> cases b <;> first | cases h; done | exact ⟨_, rfl⟩ | rfl

/-! ## Texts -/

theorem bytes_cotrans {x y z : Bytes} (h : x < z) : x < y ∨ y < z := by
  by_contra hn
  obtain ⟨hxy, hyz⟩ := not_or.mp hn
  exact Std.not_lt.mpr (Std.le_trans (Std.not_lt.mp hyz) (Std.not_lt.mp hxy)) h

theorem bytes_lt_or_gt {x y : Bytes} (h : x ≠ y) : x < y ∨ y < x := by
  by_contra hn
  obtain ⟨hxy, hyx⟩ := not_or.mp hn
  exact h (Std.le_antisymm (Std.not_lt.mp hyx) (Std.not_lt.mp hxy))

theorem bytes_asymm {x y : Bytes} (h : x < y) : ¬ y < x := Std.not_lt.mpr (Std.le_of_lt h)

/-! ## Different keys -/

/-- The order function is not true both ways. -/
theorem keyLess_asymm (hne : a ≠ b) (h : keyLess pf heap text t a b = true) :
    keyLess pf heap text t b a = false := by
  rw [Bool.eq_false_iff]
  intro h'
  have htype := (type_le_of_keyLess pf heap text t h).antisymm
    (type_le_of_keyLess pf heap text t h')
  have hform := form_of_type_eq htype
  cases a with
  | nil => exact hne hform.symm
  | boolean x =>
      obtain ⟨y, rfl⟩ := hform
      cases h
      cases h'
      exact hne rfl
  | number x =>
      obtain ⟨y, rfl⟩ := hform
      rw [keyLess_number, decide_eq_true_iff] at h h'
      exact Extended.lt_asymm h h'
  | string x =>
      obtain ⟨y, rfl⟩ := hform
      rw [keyLess_string] at h h'
      by_cases hident : pf.isIdentifier x ≠ pf.isIdentifier y
      · rw [if_pos hident] at h
        rw [if_pos hident.symm] at h'
        exact hident (h.trans h'.symm)
      · rw [if_neg hident, decide_eq_true_iff] at h
        rw [if_neg fun hident' => hident hident'.symm, decide_eq_true_iff] at h'
        exact bytes_asymm h h'
  | table x =>
      obtain ⟨y, rfl⟩ := hform
      rw [keyLess_table] at h h'
      by_cases htext : text (.table x) = text (.table y)
      · rw [if_pos htext, decide_eq_true_iff] at h
        rw [if_pos htext.symm, decide_eq_true_iff] at h'
        exact bytes_asymm h h'
      · rw [if_neg htext, decide_eq_true_iff] at h
        rw [if_neg (Ne.symm htext), decide_eq_true_iff] at h'
        exact bytes_asymm h h'

/-- Pairs of texts are compared by the first ones and then by the others. -/
theorem pair_cotrans {x y z x' y' z' : Bytes} (h : if x = z then x' < z' else x < z) :
    (if x = y then x' < y' else x < y) ∨ (if y = z then y' < z' else y < z) := by
  by_cases hxy : x = y
  · subst hxy
    rw [if_pos rfl]
    by_cases hxz : x = z
    · rw [if_pos hxz] at h ⊢
      exact bytes_cotrans h
    · rw [if_neg hxz] at h ⊢
      exact Or.inr h
  · rw [if_neg hxy]
    by_cases hyz : y = z
    · subst hyz
      rw [if_neg hxy] at h
      exact Or.inl h
    · rw [if_neg hyz]
      by_cases hxz : x = z
      · subst hxz
        exact bytes_lt_or_gt hxy
      · rw [if_neg hxz] at h
        exact bytes_cotrans h

/-- A key is on one side of what is between two others of its type. -/
theorem keyLess_cotrans_of_type (hab : a.type = b.type) (hbc : b.type = c.type)
    (hnan : b ≠ .number .nan) (hab' : a ≠ b) (hbc' : b ≠ c) (hac' : a ≠ c)
    (h : keyLess pf heap text t a c = true) :
    keyLess pf heap text t a b = true ∨ keyLess pf heap text t b c = true := by
  have hform := form_of_type_eq hab
  cases a with
  | nil => exact absurd hform.symm hab'
  | boolean x =>
      obtain ⟨y, rfl⟩ := hform
      obtain ⟨z, rfl⟩ := form_of_type_eq hbc
      cases x <;> cases y <;> cases z <;> simp_all
  | number x =>
      obtain ⟨y, rfl⟩ := hform
      obtain ⟨z, rfl⟩ := form_of_type_eq hbc
      rw [keyLess_number, decide_eq_true_iff] at h
      rw [keyLess_number, keyLess_number, decide_eq_true_iff, decide_eq_true_iff]
      exact Extended.lt_cotrans (fun hy => hnan (congrArg Value.number hy)) h
  | string x =>
      obtain ⟨y, rfl⟩ := hform
      obtain ⟨z, rfl⟩ := form_of_type_eq hbc
      rw [keyLess_string] at h
      rw [keyLess_string, keyLess_string]
      -- identifiers come first, and only two strings of one kind are compared
      cases hx : pf.isIdentifier x <;> cases hy : pf.isIdentifier y <;>
        cases hz : pf.isIdentifier z <;> simp_all
      · exact bytes_cotrans h
      · exact bytes_cotrans h
  | table x =>
      obtain ⟨y, rfl⟩ := hform
      obtain ⟨z, rfl⟩ := form_of_type_eq hbc
      simp only [keyLess_table, apply_ite (· = true), decide_eq_true_iff] at h ⊢
      exact pair_cotrans h

/-- The order function orders keys. -/
theorem ordersOn_keyLess {l : List (Value T)} (hnan : .number .nan ∉ l) :
    OrdersOn (keyLess pf heap text t) l where
  asymm _ _ _ _ := keyLess_asymm pf heap text t
  cotrans a ha b hb c hc hab hbc hac h := by
    have hle := type_le_of_keyLess pf heap text t h
    rcases lt_trichotomy a.type b.type with hlt | heq | hgt
    · exact Or.inl (keyLess_of_type_lt pf heap text t hlt)
    · rcases hle.lt_or_eq with hlt' | heq'
      · exact Or.inr (keyLess_of_type_lt pf heap text t (heq ▸ hlt'))
      · exact keyLess_cotrans_of_type pf heap text t heq (heq.symm.trans heq')
          (ne_of_mem_of_not_mem hb hnan) hab hbc hac h
    · exact Or.inr (keyLess_of_type_lt pf heap text t (hgt.trans_le hle))

end Order

end LuaAttic.Serialization
