import Mathlib.Data.Finset.Card
import Mathlib.Order.Interval.Finset.Nat
import Mathlib.Order.Monotone.Basic

/-!
# Tables that are sorted by hash

Open addressing where the entries stand in the order of their hashes, each at its home or
after it with no empty slot in between.  An entry is put in its place by moving those after
it by one, up to an empty slot, and taken out by moving back those that are not at home.
-/

namespace LuaAttic.Support.RobinHood

variable {E H K : Type*} [LinearOrder H] {hash : E → H} {home : H → ℕ} {s : ℕ → Option E}

/-- The entries are sorted, and between the home of an entry and its slot nothing is empty. -/
structure Packed (hash : E → H) (home : H → ℕ) (s : ℕ → Option E) : Prop where
  sorted : ∀ i j a b, i < j → s i = some a → s j = some b → hash a ≤ hash b
  home_le : ∀ i a, s i = some a → home (hash a) ≤ i
  full : ∀ i a k, s i = some a → home (hash a) ≤ k → k ≤ i → s k ≠ none

/-- Different slots have different keys. -/
def Distinct (key : E → K) (s : ℕ → Option E) : Prop :=
  ∀ i j a b, s i = some a → s j = some b → key a = key b → i = j

theorem packed_empty : Packed hash home fun _ => none where
  sorted _ _ _ _ _ h := nomatch h
  home_le _ _ h := nomatch h
  full _ _ _ h := nomatch h

theorem distinct_empty (key : E → K) : Distinct key fun _ => none := fun _ _ _ _ h => nomatch h

namespace Packed

variable (hs : Packed hash home s) {i j k : ℕ} {a b : E}

include hs

/-- What is between the home of an entry and its slot has no greater hash. -/
theorem exists_between (ha : s i = some a) (hk : home (hash a) ≤ k) (hki : k ≤ i) :
    ∃ b, s k = some b ∧ hash b ≤ hash a := by
  obtain ⟨b, hb⟩ := Option.ne_none_iff_exists'.mp (hs.full i a k ha hk hki)
  refine ⟨b, hb, ?_⟩
  rcases hki.lt_or_eq with hlt | rfl
  · exact hs.sorted k i b a hlt hb ha
  · rw [ha] at hb
    rw [Option.some.inj hb]

/-- An entry after an empty slot has its home after it. -/
theorem lt_home (hj : s j = none) (ha : s i = some a) (hji : j < i) : j < home (hash a) := by
  by_contra hle
  exact hs.full i a j ha (Nat.le_of_not_lt hle) hji.le hj

/-- Only the hashes matter. -/
theorem of_map_eq {s' : ℕ → Option E} (h : ∀ i, (s' i).map hash = (s i).map hash) :
    Packed hash home s' := by
  have hold : ∀ i a, s' i = some a → ∃ b, s i = some b ∧ hash b = hash a := by
    intro i a ha
    have hi := h i
    rw [ha, Option.map_some] at hi
    exact Option.map_eq_some_iff.mp hi.symm
  refine ⟨fun i j a b hij ha hb => ?_, fun i a ha => ?_, fun i a k ha hk hki hnone => ?_⟩
  · obtain ⟨a', ha', heq⟩ := hold i a ha
    obtain ⟨b', hb', heq'⟩ := hold j b hb
    rw [← heq, ← heq']
    exact hs.sorted i j a' b' hij ha' hb'
  · obtain ⟨a', ha', heq⟩ := hold i a ha
    rw [← heq]
    exact hs.home_le i a' ha'
  · obtain ⟨a', ha', heq⟩ := hold i a ha
    have hk' := h k
    rw [hnone, Option.map_none] at hk'
    exact hs.full i a' k ha' (heq ▸ hk) hki (Option.map_eq_none_iff.mp hk'.symm)

end Packed

/-! ## Putting an entry in its place -/

/-- The slot where an entry with a hash belongs: those before it, from its home on, have no
greater hash, and it is empty or has a greater one. -/
structure Place (hash : E → H) (home : H → ℕ) (s : ℕ → Option E) (h : H) (p : ℕ) : Prop where
  home_le : home h ≤ p
  before : ∀ k, home h ≤ k → k < p → ∃ b, s k = some b ∧ hash b ≤ h
  lt : ∀ b, s p = some b → h < hash b

/-- An entry is put at `p`, and those from there to the empty slot `e` are moved on. -/
def put (s : ℕ → Option E) (p e : ℕ) (x : E) : ℕ → Option E := fun i =>
  if i < p then s i else if i = p then some x else if i ≤ e then s (i - 1) else s i

section Put

variable {p e : ℕ} {x : E} {i j : ℕ} {a b : E}

theorem put_of_lt (hi : i < p) : put s p e x i = s i := if_pos hi

theorem put_self : put s p e x p = some x := by
  rw [put, if_neg (Nat.lt_irrefl p), if_pos rfl]

theorem put_moved (hi : p < i) (hie : i ≤ e) : put s p e x i = s (i - 1) := by
  rw [put, if_neg hi.not_gt, if_neg hi.ne', if_pos hie]

theorem put_of_gt (hpe : p ≤ e) (hi : e < i) : put s p e x i = s i := by
  rw [put, if_neg (by omega), if_neg (by omega), if_neg (by omega)]

/-- Where an entry of the new table comes from. -/
theorem put_cases (hpe : p ≤ e) (h : put s p e x i = some a) :
    (i < p ∧ s i = some a) ∨ (i = p ∧ a = x) ∨
      (p < i ∧ i ≤ e ∧ s (i - 1) = some a) ∨ (e < i ∧ s i = some a) := by
  rcases lt_trichotomy i p with hi | rfl | hi
  · rw [put_of_lt hi] at h
    exact Or.inl ⟨hi, h⟩
  · rw [put_self] at h
    exact Or.inr (Or.inl ⟨rfl, (Option.some.inj h).symm⟩)
  · rcases Nat.lt_or_ge e i with hie | hie
    · rw [put_of_gt hpe hie] at h
      exact Or.inr (Or.inr (Or.inr ⟨hie, h⟩))
    · rw [put_moved hi hie] at h
      exact Or.inr (Or.inr (Or.inl ⟨hi, hie, h⟩))

theorem exists_put_iff (hpe : p ≤ e) (he : s e = none) :
    (∃ i, put s p e x i = some a) ↔ a = x ∨ ∃ i, s i = some a := by
  constructor
  · rintro ⟨i, hi⟩
    rcases put_cases hpe hi with ⟨-, h⟩ | ⟨-, rfl⟩ | ⟨-, -, h⟩ | ⟨-, h⟩
    · exact Or.inr ⟨i, h⟩
    · exact Or.inl rfl
    · exact Or.inr ⟨i - 1, h⟩
    · exact Or.inr ⟨i, h⟩
  · rintro (rfl | ⟨i, hi⟩)
    · exact ⟨p, put_self⟩
    · rcases Nat.lt_or_ge i p with hip | hip
      · exact ⟨i, (put_of_lt hip).trans hi⟩
      · have hne : i ≠ e := by
          rintro rfl
          rw [he] at hi
          cases hi
        rcases Nat.lt_or_ge i e with hie | hie
        · have hmoved : put s p e x (i + 1) = s i := put_moved (Nat.lt_succ_of_le hip) hie
          exact ⟨i + 1, hmoved.trans hi⟩
        · exact ⟨i, (put_of_gt hpe (by omega)).trans hi⟩

theorem distinct_put {key : E → K} (h : Distinct key s) (hpe : p ≤ e)
    (hnew : ∀ i a, s i = some a → key a ≠ key x) : Distinct key (put s p e x) := by
  intro i j a b ha hb hab
  rcases put_cases hpe ha with ⟨hip, hi⟩ | ⟨rfl, rfl⟩ | ⟨hip, hie, hi⟩ | ⟨hie, hi⟩ <;>
    rcases put_cases hpe hb with ⟨hjp, hj⟩ | ⟨rfl, rfl⟩ | ⟨hjp, hje, hj⟩ | ⟨hje, hj⟩
  all_goals first
    | rfl
    | exact absurd hab (hnew _ _ hi)
    | exact absurd hab.symm (hnew _ _ hj)
    | (have hij := h _ _ _ _ hi hj hab; omega)

/-- Putting an entry in its place keeps the table packed. -/
theorem packed_put (hmono : Monotone home) (hs : Packed hash home s)
    (hp : Place hash home s (hash x) p) (hpe : p ≤ e)
    (hfull : ∀ k, p ≤ k → k < e → s k ≠ none) : Packed hash home (put s p e x) where
  sorted := by
    -- an entry before the place is not greater
    have hbefore : ∀ i a, i < p → s i = some a → hash a ≤ hash x := by
      intro i a hi ha
      rcases Nat.lt_or_ge i (home (hash x)) with hlt | hge
      · by_contra hgt
        have := hs.home_le i a ha
        have := hmono (not_le.mp hgt).le
        omega
      · obtain ⟨b, hb, hle⟩ := hp.before i hge hi
        rw [ha] at hb
        rwa [Option.some.inj hb]
    -- an entry from the place on is not smaller
    have hafter : ∀ i a, p ≤ i → s i = some a → hash x ≤ hash a := by
      intro i a hi ha
      cases hsp : s p with
      | some b =>
          have hlt := hp.lt b hsp
          rcases hi.lt_or_eq with hi | rfl
          · exact hlt.le.trans (hs.sorted p i b a hi hsp ha)
          · rw [hsp] at ha
            rw [← Option.some.inj ha]
            exact hlt.le
      | none =>
          have hne : p ≠ i := by
            rintro rfl
            rw [hsp] at ha
            cases ha
          have hhome := hs.lt_home hsp ha (by omega)
          by_contra hgt
          have := hmono (not_le.mp hgt).le
          have := hp.home_le
          omega
    intro i j a b hij ha hb
    rcases put_cases hpe ha with ⟨hip, hi⟩ | ⟨rfl, rfl⟩ | ⟨hip, hie, hi⟩ | ⟨hie, hi⟩ <;>
      rcases put_cases hpe hb with ⟨hjp, hj⟩ | ⟨rfl, rfl⟩ | ⟨hjp, hje, hj⟩ | ⟨hje, hj⟩
    all_goals first
      | omega
      | exact hs.sorted _ _ _ _ (by omega) hi hj
      | exact hbefore _ _ (by omega) hi
      | exact hafter _ _ (by omega) hj
  home_le := by
    intro i a ha
    rcases put_cases hpe ha with ⟨hip, hi⟩ | ⟨rfl, rfl⟩ | ⟨hip, hie, hi⟩ | ⟨hie, hi⟩
    · exact hs.home_le i a hi
    · exact hp.home_le
    · have := hs.home_le _ a hi
      omega
    · exact hs.home_le i a hi
  full := by
    -- no slot that was full is empty, and the empty one is full
    have hput : ∀ k, s k ≠ none ∨ k = e → put s p e x k ≠ none := by
      intro k hk
      rcases lt_trichotomy k p with hkp | rfl | hkp
      · rw [put_of_lt hkp]
        exact hk.resolve_right (by omega)
      · rw [put_self]
        exact Option.some_ne_none x
      · rcases Nat.lt_or_ge e k with hke | hke
        · rw [put_of_gt hpe hke]
          exact hk.resolve_right (by omega)
        · rw [put_moved hkp hke]
          exact hfull _ (by omega) (by omega)
    intro i a k ha hk hki
    rcases put_cases hpe ha with ⟨hip, hi⟩ | ⟨rfl, rfl⟩ | ⟨hip, hie, hi⟩ | ⟨hie, hi⟩
    · exact hput k (Or.inl (hs.full i a k hi hk hki))
    · rcases hki.lt_or_eq with hlt | rfl
      · obtain ⟨b, hb, -⟩ := hp.before k hk hlt
        exact hput k (Or.inl (by rw [hb]; exact Option.some_ne_none b))
      · rw [put_self]
        exact Option.some_ne_none _
    · rcases Nat.lt_or_ge k i with hlt | hge
      · exact hput k (Or.inl (hs.full _ a k hi hk (by omega)))
      · rcases Nat.lt_or_ge k e with hke | hke
        · exact hput k (Or.inl (hfull k (by omega) hke))
        · exact hput k (Or.inr (by omega))
    · exact hput k (Or.inl (hs.full i a k hi hk hki))

end Put

/-! ## Taking an entry out -/

/-- The entry at `p` is taken out, and those up to `e` are moved back. -/
def drop (s : ℕ → Option E) (p e : ℕ) : ℕ → Option E := fun i =>
  if i < p then s i else if i + 1 < e then s (i + 1) else if i + 1 = e then none else s i

section Drop

variable {p e : ℕ} {i j : ℕ} {a b : E}

theorem drop_of_lt (hi : i < p) : drop s p e i = s i := if_pos hi

theorem drop_moved (hi : p ≤ i) (hie : i + 1 < e) : drop s p e i = s (i + 1) := by
  rw [drop, if_neg hi.not_gt, if_pos hie]

theorem drop_last (hi : p ≤ i) (hie : i + 1 = e) : drop s p e i = none := by
  rw [drop, if_neg hi.not_gt, if_neg hie.not_lt, if_pos hie]

theorem drop_of_ge (hpe : p < e) (hi : e ≤ i) : drop s p e i = s i := by
  rw [drop, if_neg (by omega), if_neg (by omega), if_neg (by omega)]

theorem drop_congr {s' : ℕ → Option E} (hpe : p < e) (h : ∀ i, i ≠ p → s' i = s i) :
    drop s' p e = drop s p e := by
  funext i
  rcases Nat.lt_or_ge i p with hi | hi
  · rw [drop_of_lt hi, drop_of_lt hi, h i hi.ne]
  · rcases lt_trichotomy (i + 1) e with hie | hie | hie
    · rw [drop_moved hi hie, drop_moved hi hie, h (i + 1) (by omega)]
    · rw [drop_last hi hie, drop_last hi hie]
    · rw [drop_of_ge hpe (by omega), drop_of_ge hpe (by omega), h i (by omega)]

theorem drop_cases (hpe : p < e) (h : drop s p e i = some a) :
    (i < p ∧ s i = some a) ∨ (p ≤ i ∧ i + 1 < e ∧ s (i + 1) = some a) ∨
      (e ≤ i ∧ s i = some a) := by
  rcases Nat.lt_or_ge i p with hi | hi
  · rw [drop_of_lt hi] at h
    exact Or.inl ⟨hi, h⟩
  · rcases lt_trichotomy (i + 1) e with hie | hie | hie
    · rw [drop_moved hi hie] at h
      exact Or.inr (Or.inl ⟨hi, hie, h⟩)
    · rw [drop_last hi hie] at h
      cases h
    · rw [drop_of_ge hpe (by omega)] at h
      exact Or.inr (Or.inr ⟨by omega, h⟩)

theorem exists_drop_iff (hpe : p < e) :
    (∃ i, drop s p e i = some a) ↔ ∃ i, i ≠ p ∧ s i = some a := by
  constructor
  · rintro ⟨i, hi⟩
    rcases drop_cases hpe hi with ⟨hip, h⟩ | ⟨hip, -, h⟩ | ⟨hie, h⟩
    · exact ⟨i, hip.ne, h⟩
    · exact ⟨i + 1, by omega, h⟩
    · exact ⟨i, by omega, h⟩
  · rintro ⟨i, hne, hi⟩
    rcases hne.lt_or_gt with hip | hip
    · exact ⟨i, (drop_of_lt hip).trans hi⟩
    · rcases Nat.lt_or_ge i e with hie | hie
      · obtain ⟨n, rfl⟩ := Nat.exists_eq_add_of_lt hip
        exact ⟨p + n, (drop_moved (Nat.le_add_right p n) hie).trans hi⟩
      · exact ⟨i, (drop_of_ge hpe hie).trans hi⟩

theorem distinct_drop {key : E → K} (h : Distinct key s) (hpe : p < e) :
    Distinct key (drop s p e) := by
  intro i j a b ha hb hab
  rcases drop_cases hpe ha with ⟨hip, hi⟩ | ⟨hip, hie, hi⟩ | ⟨hie, hi⟩ <;>
    rcases drop_cases hpe hb with ⟨hjp, hj⟩ | ⟨hjp, hje, hj⟩ | ⟨hje, hj⟩
  all_goals
    have hij := h _ _ _ _ hi hj hab
    omega

/-- Taking an entry out and moving back those that are not at home keeps the table packed. -/
theorem packed_drop (hmono : Monotone home) (hs : Packed hash home s) (hpe : p < e)
    (haway : ∀ k, p < k → k < e → ∃ a, s k = some a ∧ home (hash a) ≠ k)
    (hstop : ∀ a, s e = some a → home (hash a) = e) : Packed hash home (drop s p e) where
  sorted := by
    intro i j a b hij ha hb
    rcases drop_cases hpe ha with ⟨hip, hi⟩ | ⟨hip, hie, hi⟩ | ⟨hie, hi⟩ <;>
      rcases drop_cases hpe hb with ⟨hjp, hj⟩ | ⟨hjp, hje, hj⟩ | ⟨hje, hj⟩
    all_goals first
      | omega
      | exact hs.sorted _ _ _ _ (by omega) hi hj
  home_le := by
    intro i a ha
    rcases drop_cases hpe ha with ⟨hip, hi⟩ | ⟨hip, hie, hi⟩ | ⟨hie, hi⟩
    · exact hs.home_le i a hi
    · have hle := hs.home_le _ a hi
      obtain ⟨b, hb, hne⟩ := haway (i + 1) (by omega) hie
      rw [hi] at hb
      rw [← Option.some.inj hb] at hne
      omega
    · exact hs.home_le i a hi
  full := by
    -- only the last slot that is moved back is empty
    have hdrop : ∀ k, s k ≠ none → k + 1 ≠ e → drop s p e k ≠ none := by
      intro k hk hke
      rcases Nat.lt_or_ge k p with hkp | hkp
      · rwa [drop_of_lt hkp]
      · rcases Nat.lt_or_ge (k + 1) e with hlt | hge
        · obtain ⟨b, hb, -⟩ := haway (k + 1) (by omega) hlt
          rw [drop_moved hkp hlt, hb]
          exact Option.some_ne_none b
        · rwa [drop_of_ge hpe (by omega)]
    intro i a k ha hk hki
    rcases drop_cases hpe ha with ⟨hip, hi⟩ | ⟨hip, hie, hi⟩ | ⟨hie, hi⟩
    · exact hdrop k (hs.full i a k hi hk hki) (by omega)
    · exact hdrop k (hs.full (i + 1) a k hi hk (by omega)) (by omega)
    · refine hdrop k (hs.full i a k hi hk hki) ?_
      rintro rfl
      -- the entry at the end is at home, or the end is empty
      rcases hie.lt_or_eq with hlt | rfl
      · cases hse : s (k + 1) with
        | none => exact hs.full i a (k + 1) hi (by omega) hie hse
        | some b =>
            have hhome := hstop b hse
            have hle := hmono (hs.sorted (k + 1) i b a hlt hse hi)
            omega
      · have := hstop a hi
        omega

end Drop

/-! ## Counting entries -/

/-- The slots below `n` that are not empty. -/
def filled (s : ℕ → Option E) (n : ℕ) : Finset ℕ :=
  (Finset.range n).filter fun i => (s i).isSome

section Count

variable {n p e : ℕ} {x a : E} {i : ℕ}

theorem mem_filled : i ∈ filled s n ↔ i < n ∧ s i ≠ none := by
  rw [filled, Finset.mem_filter, Finset.mem_range, Option.isSome_iff_ne_none]

theorem filled_empty (n : ℕ) : filled (fun _ => (none : Option E)) n = ∅ := by
  ext i
  simp [mem_filled]

theorem filled_congr {s' : ℕ → Option E} (h : ∀ i, (s' i).isSome = (s i).isSome) (n : ℕ) :
    filled s' n = filled s n :=
  Finset.filter_congr fun i _ => by rw [h i]

theorem filled_succ (n : ℕ) :
    filled s (n + 1) = if (s n).isSome then insert n (filled s n) else filled s n := by
  rw [filled, Finset.range_add_one, Finset.filter_insert]
  rfl

theorem card_filled_succ (n : ℕ) :
    (filled s (n + 1)).card = (filled s n).card + if (s n).isSome then 1 else 0 := by
  rw [filled_succ]
  split_ifs
  · exact Finset.card_insert_of_notMem fun h => (mem_filled.mp h).1.false
  · rfl

theorem filled_put (hpe : p ≤ e) (hen : e < n) (hfull : ∀ k, p ≤ k → k < e → s k ≠ none) :
    filled (put s p e x) n = insert e (filled s n) := by
  ext i
  rw [Finset.mem_insert, mem_filled, mem_filled]
  rcases lt_trichotomy i p with hi | rfl | hi
  · rw [put_of_lt hi]
    exact (or_iff_right (by omega)).symm
  · rw [put_self]
    refine iff_of_true ⟨by omega, Option.some_ne_none x⟩ ?_
    rcases hpe.lt_or_eq with hlt | rfl
    · exact Or.inr ⟨by omega, hfull i le_rfl hlt⟩
    · exact Or.inl rfl
  · rcases lt_trichotomy i e with hie | rfl | hie
    · rw [put_moved hi hie.le]
      exact iff_of_true ⟨by omega, hfull _ (by omega) (by omega)⟩
        (Or.inr ⟨by omega, hfull i hi.le hie⟩)
    · rw [put_moved hi le_rfl]
      exact iff_of_true ⟨hen, hfull _ (by omega) (by omega)⟩ (Or.inl rfl)
    · rw [put_of_gt hpe hie]
      exact (or_iff_right (by omega)).symm

theorem filled_drop (hpe : p < e) (hen : e ≤ n) (hp : s p ≠ none)
    (hfull : ∀ k, p < k → k < e → s k ≠ none) :
    filled (drop s p e) n = (filled s n).erase (e - 1) := by
  ext i
  rw [Finset.mem_erase, mem_filled, mem_filled]
  rcases Nat.lt_or_ge i p with hi | hi
  · rw [drop_of_lt hi]
    exact (and_iff_right (by omega)).symm
  · rcases lt_trichotomy (i + 1) e with hie | hie | hie
    · have hi' : s i ≠ none := by
        rcases hi.lt_or_eq with hlt | rfl
        · exact hfull i hlt (by omega)
        · exact hp
      rw [drop_moved hi hie]
      exact iff_of_true ⟨by omega, hfull _ (by omega) hie⟩ ⟨by omega, by omega, hi'⟩
    · rw [drop_last hi hie]
      exact iff_of_false (fun h => h.2 rfl) (fun h => h.1 (by omega))
    · rw [drop_of_ge hpe (by omega)]
      exact (and_iff_right (by omega)).symm

/-- As far as an entry is from its home, there are other entries. -/
theorem Packed.displacement_lt (hs : Packed hash home s) (ha : s i = some a) (hi : i < n) :
    i < home (hash a) + (filled s n).card := by
  have hsub : Finset.Icc (home (hash a)) i ⊆ filled s n := by
    intro k hk
    obtain ⟨hhome, hki⟩ := Finset.mem_Icc.mp hk
    exact mem_filled.mpr ⟨by omega, hs.full i a k ha hhome hki⟩
  have hcard := Finset.card_le_card hsub
  rw [Nat.card_Icc] at hcard
  have := hs.home_le i a ha
  omega

/-- Where there is room there is an empty slot, and all those before the first are full. -/
theorem exists_empty (h : p + (filled s n).card < n) :
    ∃ e, p ≤ e ∧ e ≤ p + (filled s n).card ∧ s e = none ∧ ∀ k, p ≤ k → k < e → s k ≠ none := by
  have hex : ∃ e, p ≤ e ∧ s e = none := by
    by_contra hnone
    push Not at hnone
    have hsub : Finset.Ico p n ⊆ filled s n := by
      intro k hk
      obtain ⟨hpk, hkn⟩ := Finset.mem_Ico.mp hk
      exact mem_filled.mpr ⟨hkn, hnone k hpk⟩
    have hcard := Finset.card_le_card hsub
    rw [Nat.card_Ico] at hcard
    omega
  classical
  obtain ⟨hle, hempty⟩ := Nat.find_spec hex
  have hfull : ∀ k, p ≤ k → k < Nat.find hex → s k ≠ none :=
    fun k hk hlt hnone => Nat.find_min hex hlt ⟨hk, hnone⟩
  refine ⟨Nat.find hex, hle, ?_, hempty, hfull⟩
  by_contra hgt
  have hsub : Finset.Icc p (p + (filled s n).card) ⊆ filled s n := by
    intro k hk
    obtain ⟨hpk, hkn⟩ := Finset.mem_Icc.mp hk
    exact mem_filled.mpr ⟨by omega, hfull k hpk (by omega)⟩
  have hcard := Finset.card_le_card hsub
  rw [Nat.card_Icc] at hcard
  omega

end Count

end LuaAttic.Support.RobinHood
