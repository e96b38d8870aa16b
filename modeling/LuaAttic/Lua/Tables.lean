import Mathlib.Data.List.Nodup
import Mathlib.Logic.Function.Basic
import LuaAttic.Support.Fallible

/-!
# Tables as maps

A table with keys of some type, and the keys that it has.  A loop over a list
that reads and sets one key for each element does for each key what the elements
with this key say.
-/

namespace LuaAttic.Lua

open LuaAttic.Support

/-- A table; the keys are those with a value. -/
structure Table (K V : Type) where
  keys : List K
  get : K → Option V
  nodup : keys.Nodup
  mem_keys : ∀ k, k ∈ keys ↔ (get k).isSome

variable {K V A ε : Type} [DecidableEq K]

/-- `{}` -/
def Table.empty : Table K V where
  keys := []
  get _ := none
  nodup := List.nodup_nil
  mem_keys _ := by simp

/-- `t[k] = v` -/
def Table.set (t : Table K V) (k : K) (v : V) : Table K V where
  keys := if k ∈ t.keys then t.keys else t.keys ++ [k]
  get := Function.update t.get k (some v)
  nodup := by
    split
    · exact t.nodup
    · next hk =>
        refine List.Nodup.append t.nodup (List.nodup_singleton k) ?_
        rintro k' hmem hk'
        obtain rfl := List.mem_singleton.mp hk'
        exact hk hmem
  mem_keys k' := by
    by_cases hk' : k' = k
    · subst hk'
      split <;> simp_all
    · split <;> simp [hk', t.mem_keys k']

omit [DecidableEq K] in
@[simp] theorem get_empty (k : K) : (Table.empty : Table K V).get k = none := rfl

@[simp] theorem get_set_self (t : Table K V) (k : K) (v : V) :
    (t.set k v).get k = some v := by
  simp [Table.set]

theorem get_set_of_ne {k k' : K} (h : k' ≠ k) (t : Table K V) (v : V) :
    (t.set k v).get k' = t.get k' := by
  simp [Table.set, h]

/-- `#t`: the numbers from one on that are keys, up to the first that is none. -/
def Table.border (t : Table ℕ V) : ℕ :=
  ((List.range t.keys.length).takeWhile fun n => (t.get (n + 1)).isSome).length

omit [DecidableEq K] in
/-- The keys are the numbers below one. -/
theorem border_of_get {t : Table ℕ V} {n : ℕ} (h : ∀ i, (t.get i).isSome ↔ i < n) :
    t.border = n - 1 := by
  have hkeys : t.keys.length = n := by
    have hperm : t.keys.Perm (List.range n) := by
      refine (List.perm_ext_iff_of_nodup t.nodup List.nodup_range).mpr fun i => ?_
      rw [t.mem_keys, h, List.mem_range]
    rw [hperm.length_eq, List.length_range]
  rw [Table.border, hkeys]
  cases n with
  | zero => rfl
  | succ n =>
      have hall : ∀ i ∈ List.range n, (t.get (i + 1)).isSome := by
        intro i hi
        exact (h _).mpr (Nat.succ_lt_succ (List.mem_range.mp hi))
      have hend : (t.get (n + 1)).isSome = false := by
        rw [Bool.eq_false_iff]
        exact fun hn => Nat.lt_irrefl _ ((h _).mp hn)
      rw [List.range_succ, List.takeWhile_append_of_pos hall, List.takeWhile_cons, hend]
      simp

/-- Keys of a table in some order, which is the one of `pairs`. -/
structure Order (K : Type) where
  apply : List K → List K
  perm : ∀ l, (apply l).Perm l

/-- The elements with a key, one after the other, give its value. -/
theorem foldlM_keyed {f : Option V → A → Except ε V} {key : A → K} {l : List A}
    {t t' : Table K V}
    (h : l.foldlM (fun t a => do
      let v ← f (t.get (key a)) a
      return t.set (key a) v) t = .ok t') (k : K) :
    (l.filter fun a => key a = k).foldlM (fun v a => some <$> f v a) (t.get k) =
      .ok (t'.get k) := by
  induction l generalizing t with
  | nil =>
      obtain rfl := Except.ok.inj h
      rfl
  | cons a l ih =>
      rw [List.foldlM_cons] at h
      obtain ⟨t₁, hstep, hrest⟩ := bind_eq_ok_iff.mp h
      obtain ⟨v, hv, hset⟩ := bind_eq_ok_iff.mp hstep
      obtain rfl := Except.ok.inj hset
      have hrest' := ih hrest
      by_cases hk : key a = k
      · subst hk
        rw [List.filter_cons_of_pos (by simp), List.foldlM_cons, hv]
        rwa [get_set_self] at hrest'
      · rw [List.filter_cons_of_neg (by simpa using hk)]
        rwa [get_set_of_ne (Ne.symm hk)] at hrest'

end LuaAttic.Lua
