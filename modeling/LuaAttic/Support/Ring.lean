import Mathlib.Data.List.Nodup
import Mathlib.Data.List.Range
import Mathlib.Data.Int.ModEq

/-!
# Slots of a ring

The slots of a ring are numbered from zero.  Steps around the ring visit slots
modulo its size; where they pass its end, they fall into two intervals.  The
slots that are visited are told as lists, in the order of the steps, so that
reading them is mapping over the list, and writing to some of them leaves what
is read from a disjoint list.
-/

namespace LuaAttic.Support

/-- The `n` consecutive numbers from `i` on. -/
def interval (i : Int) (n : ℕ) : List Int :=
  (List.range n).map fun k : ℕ => i + (k : Int)

/-- The slots that `n` steps from `start` on visit. -/
def ringSlots (size start : Int) (n : ℕ) : List Int :=
  (List.range n).map fun k : ℕ => (start + (k : Int)) % size

variable {size start i : Int} {m n : ℕ}

/-! ## Intervals -/

@[simp] theorem length_interval (i : Int) (n : ℕ) :
    (interval i n).length = n := by
  simp [interval]

@[simp] theorem interval_zero (i : Int) : interval i 0 = [] := rfl

theorem interval_add (i : Int) (m n : ℕ) :
    interval i (m + n) = interval i m ++ interval (i + m) n := by
  simp [interval, List.range_add, Function.comp_def, add_assoc]

theorem interval_succ (i : Int) (n : ℕ) : interval i (n + 1) = i :: interval (i + 1) n := by
  have hadd := interval_add i 1 n
  rw [Nat.add_comm] at hadd
  rw [hadd]
  simp [interval]

/-- An interval that begins with `m` numbers of its own. -/
theorem interval_split (h : m ≤ n) :
    interval 0 n = interval 0 m ++ interval m (n - m) := by
  have hadd := interval_add 0 m (n - m)
  rwa [Nat.add_sub_cancel' h, Int.zero_add] at hadd

theorem mem_interval {j : Int} :
    j ∈ interval i n ↔ i ≤ j ∧ j < i + n := by
  simp only [interval, List.mem_map, List.mem_range]
  constructor
  · rintro ⟨k, hk, rfl⟩
    omega
  · intro h
    exact ⟨(j - i).toNat, by omega, by omega⟩

theorem nodup_interval (i : Int) (n : ℕ) : (interval i n).Nodup :=
  List.nodup_range.map fun j k h => by simpa using h

/-! ## Steps around the ring -/

@[simp] theorem length_ringSlots (size start : Int) (n : ℕ) :
    (ringSlots size start n).length = n := by
  simp [ringSlots]

theorem ringSlots_add (size start : Int) (m n : ℕ) :
    ringSlots size start (m + n) =
      ringSlots size start m ++ ringSlots size (start + m) n := by
  simp [ringSlots, List.range_add, Function.comp_def, add_assoc]

/-- Only the slot where the steps start matters. -/
theorem ringSlots_congr {start' : Int} (h : start % size = start' % size)
    (n : ℕ) : ringSlots size start n = ringSlots size start' n := by
  have hslot : ∀ k : ℕ, (start + (k : Int)) % size = (start' + (k : Int)) % size :=
    fun k => Int.ModEq.add_right (k : Int) h
  simp only [ringSlots, hslot]

/-- Steps that do not pass the end visit an interval. -/
theorem ringSlots_eq_interval (hstart : 0 ≤ start) (hend : start + n ≤ size) :
    ringSlots size start n = interval start n := by
  apply List.map_congr_left
  intro k hk
  rw [List.mem_range] at hk
  exact Int.emod_eq_of_lt (by omega) (by omega)

/-- Steps that pass the end visit the last slots and then the first ones. -/
theorem ringSlots_wrap (hstart : 0 ≤ start) (hend : start + m = size)
    (hn : (n : Int) ≤ size) :
    ringSlots size start (m + n) = interval start m ++ interval 0 n := by
  have hfirst : (start + m) % size = 0 % size := by
    rw [hend, Int.emod_self, Int.zero_emod]
  rw [ringSlots_add, ringSlots_eq_interval hstart (by omega),
    ringSlots_congr hfirst, ringSlots_eq_interval (le_refl 0) (by omega)]

/-- The two cases in one: a second arc only follows a first one that reaches the
end. -/
theorem ringSlots_arcs (hstart : 0 ≤ start) (hm : start + m ≤ size)
    (hn : n ≠ 0 → start + m = size) (hle : (n : Int) ≤ size) :
    ringSlots size start (m + n) = interval start m ++ interval 0 n := by
  by_cases hzero : n = 0
  · rw [hzero, interval_zero, List.append_nil, Nat.add_zero]
    exact ringSlots_eq_interval hstart hm
  · exact ringSlots_wrap hstart (hn hzero) hle

/-- No slot is visited twice in one turn. -/
theorem nodup_ringSlots (start : Int) (hn : (n : Int) ≤ size) :
    (ringSlots size start n).Nodup := by
  refine List.Nodup.map_on ?_ List.nodup_range
  intro j hj k hk hslot
  rw [List.mem_range] at hj hk
  have hmod : (j : Int) % size = (k : Int) % size :=
    Int.ModEq.add_left_cancel' start hslot
  rw [Int.emod_eq_of_lt (by omega) (by omega),
    Int.emod_eq_of_lt (by omega) (by omega)] at hmod
  exact_mod_cast hmod

/-- What is visited next in the same turn is new. -/
theorem disjoint_ringSlots (start : Int) (h : (m : Int) + n ≤ size) :
    (ringSlots size start m).Disjoint (ringSlots size (start + m) n) := by
  have hnodup : (ringSlots size start (m + n)).Nodup :=
    nodup_ringSlots start (by omega)
  rw [ringSlots_add] at hnodup
  exact List.disjoint_of_nodup_append hnodup

theorem emod_bounds (hsize : 1 ≤ size) (x : Int) : 0 ≤ x % size ∧ x % size < size :=
  ⟨Int.emod_nonneg x (by omega), Int.emod_lt_of_pos x (by omega)⟩

end LuaAttic.Support
