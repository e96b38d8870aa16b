import Mathlib.Data.List.DropRight
import Mathlib.Tactic.Ring
import LuaAttic.Support.Program

/-!
# The part of Lua that the modelled modules use

Strings are byte strings, indices are integers counted from one, tables used
as arrays are lists, and a procedure is a program that keeps its state when it
raises.  The string and table operations here follow the reference manual,
negative and out-of-range indices included.
-/

namespace LuaAttic.Lua

/-- The run-time errors that the modelled code can raise. -/
inductive Error
  /-- `assert` of a false condition -/
  | assertionFailed
  /-- indexing a nil value -/
  | nilIndex
  /-- calling a nil value -/
  | nilCall
  /-- concatenating a nil value -/
  | nilConcat
  /-- arithmetic on a nil value -/
  | nilArith
  /-- comparing a nil value with a number -/
  | nilCompare
  /-- an argument of the wrong type, to a function of the library -/
  | badArgument
  deriving DecidableEq, Repr

/-- A procedure over a mutable state. -/
abbrev Program (σ α : Type) := EStateM Error σ α

/-- A value that must not be nil. -/
def nonNil {α : Type} (e : Error) : Option α → Except Error α
  | some a => .ok a
  | none => .error e

/-- A Lua string. -/
abbrev Bytes := List UInt8

/-! ## Strings -/

/-- An index as the string library counts it: negative ones from the end. -/
def relIndex (s : Bytes) (i : Int) : Int :=
  if 0 ≤ i then i else max (s.length + i + 1) 0

/-- `s:sub(i, j)` -/
def sub (s : Bytes) (i j : Int) : Bytes :=
  let first := max (relIndex s i) 1
  let last := min (relIndex s j) s.length
  (s.take last.toNat).drop (first - 1).toNat

/-- `s:sub(i)` -/
def subFrom (s : Bytes) (i : Int) : Bytes := sub s i (-1)

/-- `s:byte(i)` for a positive index; nil past the end. -/
def byteAt (s : Bytes) (i : Int) : Option UInt8 :=
  if 1 ≤ i then s[(i - 1).toNat]? else none

/-- `s:rep(n)`, empty for a negative count. -/
def rep (s : Bytes) (n : Int) : Bytes := (List.replicate n.toNat s).flatten

theorem sub_take (s : Bytes) {i : Int} (hi : 1 ≤ i) :
    sub s 1 (i - 1) = s.take (i - 1).toNat := by
  have h1 : relIndex s 1 = 1 := by simp [relIndex]
  have h2 : relIndex s (i - 1) = i - 1 := if_pos (by omega)
  have htake : (min (i - 1) (s.length : Int)).toNat =
      min (i - 1).toNat s.length := by omega
  simp only [sub, h1, h2, htake]
  simp

theorem subFrom_drop (s : Bytes) {i : Int} (hi : 1 ≤ i) :
    subFrom s i = s.drop (i - 1).toNat := by
  have h1 : relIndex s i = i := if_pos (by omega)
  have h2 : min (relIndex s (-1)) (s.length : Int) = s.length := by
    simp only [relIndex]
    split <;> omega
  have h3 : max i 1 = i := by omega
  simp only [subFrom, sub, h1, h2, h3, Int.toNat_natCast, List.take_length]

/-- What is before and what is after the end of a first part. -/
theorem sub_append_left (s t : Bytes) {i : Int} (hi : i = s.length + 1) :
    sub (s ++ t) 1 (i - 1) = s := by
  have hcol : (i - 1).toNat = s.length := by omega
  rw [sub_take _ (by omega), hcol, List.take_left]

theorem subFrom_append_left (s t : Bytes) {i : Int} (hi : i = s.length + 1) :
    subFrom (s ++ t) i = t := by
  have hcol : (i - 1).toNat = s.length := by omega
  rw [subFrom_drop _ (by omega), hcol, List.drop_left]

theorem sub_eq_take_drop (s : Bytes) {i j : Int} (hi : 1 ≤ i) (hj : 0 ≤ j) :
    sub s i j = (s.take j.toNat).drop (i - 1).toNat := by
  have h1 : relIndex s i = i := if_pos (by omega)
  have h2 : relIndex s j = j := if_pos hj
  have h3 : max i 1 = i := by omega
  have htake : (min j (s.length : Int)).toNat = min j.toNat s.length := by
    omega
  simp only [sub, h1, h2, h3, htake, List.take_eq_take_min.symm]

/-- Every substring consists of bytes of the string. -/
theorem mem_of_mem_sub {s : Bytes} {i j : Int} {c : UInt8}
    (h : c ∈ sub s i j) : c ∈ s :=
  List.mem_of_mem_take (List.mem_of_mem_drop h)

theorem mem_of_mem_subFrom {s : Bytes} {i : Int} {c : UInt8}
    (h : c ∈ subFrom s i) : c ∈ s :=
  mem_of_mem_sub h

theorem mem_rep {s : Bytes} {n : Int} {c : UInt8} (h : c ∈ rep s n) :
    c ∈ s := by
  obtain ⟨l, hl, hc⟩ := List.mem_flatten.mp h
  rwa [List.eq_of_mem_replicate hl] at hc

/-! ## Tables used as arrays -/

section Tables

variable {α : Type*}

/-- `t[i]` -/
def tableGet (t : List α) (i : Int) : Option α :=
  if 1 ≤ i then t[(i - 1).toNat]? else none

/-- `t[i] = x` for an index of the array. -/
def tableSet (t : List α) (i : Int) (x : α) : List α :=
  t.set (i - 1).toNat x

/-- `table.insert(t, i, x)` -/
def tableInsert (t : List α) (i : Int) (x : α) : List α :=
  t.insertIdx (i - 1).toNat x

/-- `table.remove(t, i)` -/
def tableRemove (t : List α) (i : Int) : List α :=
  t.eraseIdx (i - 1).toNat

theorem tableGet_eq_none_iff (t : List α) (i : Int) :
    tableGet t i = none ↔ ¬ (1 ≤ i ∧ i ≤ t.length) := by
  unfold tableGet
  split
  · rw [List.getElem?_eq_none_iff]
    omega
  · simp_all

/-- An index with a value splits the array around it. -/
theorem tableGet_eq_some_iff {t : List α} {i : Int} {x : α} :
    tableGet t i = some x ↔
      ∃ pre post, t = pre ++ x :: post ∧ i = pre.length + 1 := by
  constructor
  · intro h
    unfold tableGet at h
    split at h
    · obtain ⟨hlt, hx⟩ := List.getElem?_eq_some_iff.mp h
      refine ⟨t.take (i - 1).toNat, t.drop ((i - 1).toNat + 1), ?_, ?_⟩
      · rw [← hx, List.getElem_cons_drop, List.take_append_drop]
      · rw [List.length_take]
        omega
    · cases h
  · rintro ⟨pre, post, rfl, rfl⟩
    simp [tableGet]

theorem exists_split_of_range {t : List α} {i : Int}
    (h : 1 ≤ i ∧ i ≤ t.length) :
    ∃ pre x post, t = pre ++ x :: post ∧ i = pre.length + 1 := by
  cases hget : tableGet t i with
  | none => exact absurd h ((tableGet_eq_none_iff t i).mp hget)
  | some x =>
      obtain ⟨pre, post, ht, hi⟩ := tableGet_eq_some_iff.mp hget
      exact ⟨pre, x, post, ht, hi⟩

section Split

variable (pre : List α) (x y : α) (post : List α)

theorem range_split :
    1 ≤ (pre.length + 1 : Int) ∧
      (pre.length + 1 : Int) ≤ (pre ++ x :: post).length := by
  simp only [List.length_append, List.length_cons]
  omega

@[simp] theorem tableGet_split :
    tableGet (pre ++ x :: post) (pre.length + 1) = some x :=
  tableGet_eq_some_iff.mpr ⟨pre, post, rfl, rfl⟩

@[simp] theorem tableSet_split :
    tableSet (pre ++ x :: post) (pre.length + 1) y = pre ++ y :: post := by
  simp [tableSet]

@[simp] theorem tableInsert_split :
    tableInsert (pre ++ post) (pre.length + 1) x = pre ++ x :: post := by
  have h : (pre.length + 1 - 1 : Int).toNat = pre.length := by omega
  rw [tableInsert, h]
  induction pre with
  | nil => simp
  | cons a pre ih => simpa using ih (by omega)

@[simp] theorem tableRemove_split :
    tableRemove (pre ++ x :: post) (pre.length + 1) = pre ++ post := by
  simp [tableRemove, List.eraseIdx_append_of_length_le]

end Split

theorem tableSet_of_get {t : List α} {i : Int} {x : α}
    (h : tableGet t i = some x) : tableSet t i x = t := by
  obtain ⟨pre, post, rfl, rfl⟩ := tableGet_eq_some_iff.mp h
  exact tableSet_split pre x x post

@[simp] theorem length_tableSet (t : List α) (i : Int) (x : α) :
    (tableSet t i x).length = t.length := by
  simp [tableSet]

theorem length_tableInsert {t : List α} {i : Int} (x : α)
    (h : 1 ≤ i ∧ i ≤ t.length + 1) :
    (tableInsert t i x).length = t.length + 1 := by
  rw [tableInsert, List.length_insertIdx_of_le_length]
  omega

theorem length_tableRemove {t : List α} {i : Int}
    (h : 1 ≤ i ∧ i ≤ t.length) :
    (tableRemove t i).length = t.length - 1 := by
  rw [tableRemove, List.length_eraseIdx_of_lt]
  omega

theorem tableSet_ne_nil {t : List α} (ht : t ≠ []) (i : Int) (x : α) :
    tableSet t i x ≠ [] := by
  simpa [tableSet] using ht

theorem tableInsert_ne_nil {t : List α} (ht : t ≠ []) (i : Int) (x : α) :
    tableInsert t i x ≠ [] := by
  intro h
  have hlen := congrArg List.length h
  have hpos := List.length_pos_of_ne_nil ht
  rw [tableInsert, List.length_insertIdx, List.length_nil] at hlen
  split at hlen <;> omega

/-- Removing an index past the first leaves the first element. -/
theorem tableRemove_ne_nil {t : List α} {i : Int}
    (h : 2 ≤ i ∧ i ≤ t.length) : tableRemove t i ≠ [] := by
  intro hnil
  have hlen := length_tableRemove (t := t) (i := i) (by omega)
  rw [hnil] at hlen
  simp only [List.length_nil] at hlen
  omega

end Tables

end LuaAttic.Lua
