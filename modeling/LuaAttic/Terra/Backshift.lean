import Mathlib.Algebra.BigOperators.Group.Finset.Basic
import Mathlib.Algebra.Order.BigOperators.Group.Finset
import Mathlib.Data.Multiset.Basic
import Mathlib.Data.Nat.ModEq
import Mathlib.Tactic.Abel
import LuaAttic.Lua.Basic
import LuaAttic.Support.LinearProbing
import LuaAttic.Support.Run

/-!
# The hash table with backward shift (`bshash.t`)

An entry takes the bucket of another one that is closer to its home, and the other one goes on.
When one is taken out, those after it that are not at home move back by one bucket.

Buckets with a null pointer have no entry.  A deleted entry stays in its bucket until something
is written there.  The statistics of `monitoring_` are left out; tables have no more than `2 ^ 32`
buckets.
-/

namespace LuaAttic.Terra.Backshift

open LuaAttic.Lua LuaAttic.Support
open LinearProbing (eq_of_add_mod_eq exists_add_mod_eq)

structure Entry where
  sizeKey : ℕ
  sizeValue : ℕ
  data : Bytes

structure Bucket where
  hash : ℕ
  entry : Option Entry

structure BackshiftHashMap where
  buckets : ℕ → Bucket
  numBuckets : ℕ
  numBucketsUsed : ℕ
  probingMax : ℕ

namespace Entry

/-- What `Put` allocates. -/
def new (key value : Bytes) : Entry := ⟨key.length, value.length, key ++ value⟩

def key (e : Entry) : Bytes := e.data.take e.sizeKey

def value (e : Entry) : Bytes := (e.data.drop e.sizeKey).take e.sizeValue

/-- The sizes are compared first. -/
def hasKey (e : Entry) (key : Bytes) : Bool := key.length == e.sizeKey && e.key == key

end Entry

namespace BackshiftHashMap

/-- `Open()` -/
def new (size : ℕ) : BackshiftHashMap where
  buckets _ := ⟨0, none⟩
  numBuckets := size
  numBucketsUsed := 0
  probingMax := size

/-- `FillDistanceToInitIndex(index_stored, distance)` for a bucket with an entry. -/
def distanceToInitIndex (t : BackshiftHashMap) (indexStored : ℕ) : ℕ :=
  let indexInit := (t.buckets indexStored).hash % t.numBuckets
  if indexInit ≤ indexStored then indexStored - indexInit
  else indexStored + (t.numBuckets - indexInit)

/-- The loop of `Get` and `Remove`. -/
def find (t : BackshiftHashMap) (key : Bytes) (indexInit bound i : ℕ) : Option ℕ :=
  if i < bound then
    let indexCurrent := (indexInit + i) % t.numBuckets
    match (t.buckets indexCurrent).entry with
    | none => none
    | some entry =>
        if t.distanceToInitIndex indexCurrent < i then none
        else if entry.hasKey key then some indexCurrent
        else t.find key indexInit bound (i + 1)
  else none
termination_by bound - i

/-- `Get(key, value)`: 0 and the value, or 1. -/
def get (hashFunction : Bytes → ℕ) (t : BackshiftHashMap) (key : Bytes) : ℕ × Option Bytes :=
  match t.find key (hashFunction key % t.numBuckets) t.probingMax 0 with
  | none => (1, none)
  | some index => (0, (t.buckets index).entry.map Entry.value)

def setBucket (t : BackshiftHashMap) (index : ℕ) (bucket : Bucket) : BackshiftHashMap :=
  { t with buckets := Function.update t.buckets index bucket }

/-- The loop of `Put`. -/
def place (t : BackshiftHashMap) (indexInit : ℕ) (entry : Entry) (hash probeCurrent i : ℕ) :
    BackshiftHashMap :=
  if i < t.probingMax then
    let indexCurrent := (indexInit + i) % t.numBuckets
    match (t.buckets indexCurrent).entry with
    | none => t.setBucket indexCurrent ⟨hash, some entry⟩
    | some entryTemp =>
        let probeDistance := t.distanceToInitIndex indexCurrent
        if probeDistance < probeCurrent then
          (t.setBucket indexCurrent ⟨hash, some entry⟩).place indexInit entryTemp
            (t.buckets indexCurrent).hash (probeDistance + 1) (i + 1)
        else t.place indexInit entry hash (probeCurrent + 1) (i + 1)
  else t
termination_by t.probingMax - i
decreasing_by
  · change t.probingMax - (i + 1) < _
    omega
  · omega

/-- `Put(key, value)` -/
def put (hashFunction : Bytes → ℕ) (t : BackshiftHashMap) (key value : Bytes) :
    BackshiftHashMap × ℕ :=
  if t.numBucketsUsed = t.numBuckets then (t, 1)
  else
    let hash := hashFunction key
    ({ t with numBucketsUsed := t.numBucketsUsed + 1 }.place (hash % t.numBuckets)
      (Entry.new key value) hash 0 0, 0)

/-- The bucket has no entry any more. -/
def clear (t : BackshiftHashMap) (index : ℕ) : BackshiftHashMap :=
  t.setBucket index { t.buckets index with entry := none }

/-- The second loop of `Remove`. -/
def shift (t : BackshiftHashMap) (indexCurrent i : ℕ) : BackshiftHashMap :=
  if i < t.numBuckets then
    let indexPrevious := (indexCurrent + i - 1) % t.numBuckets
    let indexSwap := (indexCurrent + i) % t.numBuckets
    if (t.buckets indexSwap).entry.isNone then t.clear indexPrevious
    else if t.distanceToInitIndex indexSwap = 0 then t.clear indexPrevious
    else (t.setBucket indexPrevious (t.buckets indexSwap)).shift indexCurrent (i + 1)
  else t
termination_by t.numBuckets - i
decreasing_by
  change t.numBuckets - (i + 1) < _
  omega

/-- `Remove(key)` -/
def remove (hashFunction : Bytes → ℕ) (t : BackshiftHashMap) (key : Bytes) :
    BackshiftHashMap × ℕ :=
  match t.find key (hashFunction key % t.numBuckets) t.numBuckets 0 with
  | none => (t, 1)
  | some index =>
      let shifted := t.shift index 1
      ({ shifted with numBucketsUsed := shifted.numBucketsUsed - 1 }, 0)

end BackshiftHashMap

/-! ## Ranks

The rank of a bucket is zero when it has no entry, and else one more than how far the entry is
from its home.  Indices go around.
-/

section Ranks

variable {t : BackshiftHashMap} {i j p : ℕ} {b : Bucket} {e : Entry}

namespace BackshiftHashMap

/-- The bucket at an index that goes around. -/
def bucketAt (t : BackshiftHashMap) (i : ℕ) : Bucket := t.buckets (i % t.numBuckets)

def rank (t : BackshiftHashMap) (i : ℕ) : ℕ :=
  match (t.bucketAt i).entry with
  | none => 0
  | some _ => t.distanceToInitIndex (i % t.numBuckets) + 1

theorem distanceToInitIndex_lt (hi : i < t.numBuckets) :
    t.distanceToInitIndex i < t.numBuckets := by
  have hmod := Nat.mod_lt (t.buckets i).hash (Nat.zero_lt_of_lt hi)
  rw [distanceToInitIndex]
  split_ifs <;> omega

theorem home_add_distance (hi : i < t.numBuckets) :
    ((t.buckets i).hash + t.distanceToInitIndex i) % t.numBuckets = i := by
  have hmod := Nat.mod_lt (t.buckets i).hash (Nat.zero_lt_of_lt hi)
  rw [← Nat.mod_add_mod, distanceToInitIndex]
  split_ifs with hle
  · rw [Nat.add_sub_cancel' hle, Nat.mod_eq_of_lt hi]
  · have hsum : (t.buckets i).hash % t.numBuckets + (i + (t.numBuckets -
        (t.buckets i).hash % t.numBuckets)) = i + t.numBuckets := by omega
    rw [hsum, Nat.add_mod_right, Nat.mod_eq_of_lt hi]

theorem distance_eq {c : ℕ} (hi : i < t.numBuckets) (hc : c < t.numBuckets)
    (h : ((t.buckets i).hash + c) % t.numBuckets = i) : t.distanceToInitIndex i = c :=
  eq_of_add_mod_eq (distanceToInitIndex_lt hi) hc ((home_add_distance hi).trans h.symm)

theorem rank_congr (h : i % t.numBuckets = j % t.numBuckets) : t.rank i = t.rank j := by
  rw [rank, rank, bucketAt, bucketAt, h]

theorem rank_of_none (h : (t.bucketAt i).entry = none) : t.rank i = 0 := by rw [rank, h]

theorem rank_of_some (h : (t.bucketAt i).entry = some e) :
    t.rank i = t.distanceToInitIndex (i % t.numBuckets) + 1 := by rw [rank, h]

theorem entry_of_rank_pos (h : 0 < t.rank i) : ∃ e, (t.bucketAt i).entry = some e := by
  cases he : (t.bucketAt i).entry with
  | none => rw [rank_of_none he] at h; omega
  | some e => exact ⟨e, rfl⟩

theorem rank_le (hpos : 0 < t.numBuckets) : t.rank i ≤ t.numBuckets := by
  cases he : (t.bucketAt i).entry with
  | none => rw [rank_of_none he]; omega
  | some e =>
      rw [rank_of_some he]
      exact distanceToInitIndex_lt (Nat.mod_lt i hpos)

theorem bucketAt_setBucket_self (h : i % t.numBuckets = j % t.numBuckets) :
    (t.setBucket (j % t.numBuckets) b).bucketAt i = b := by
  change Function.update t.buckets (j % t.numBuckets) b (i % t.numBuckets) = b
  rw [h, Function.update_self]

theorem bucketAt_setBucket_of_ne (h : i % t.numBuckets ≠ j % t.numBuckets) :
    (t.setBucket (j % t.numBuckets) b).bucketAt i = t.bucketAt i := Function.update_of_ne h _ _

theorem rank_setBucket_of_ne (h : i % t.numBuckets ≠ j % t.numBuckets) :
    (t.setBucket (j % t.numBuckets) b).rank i = t.rank i := by
  have hdist : (t.setBucket (j % t.numBuckets) b).distanceToInitIndex (i % t.numBuckets) =
      t.distanceToInitIndex (i % t.numBuckets) := by
    have hat : (t.setBucket (j % t.numBuckets) b).buckets (i % t.numBuckets) =
        t.buckets (i % t.numBuckets) := Function.update_of_ne h _ _
    rw [distanceToInitIndex, distanceToInitIndex, hat]
    rfl
  rw [rank, rank, bucketAt_setBucket_of_ne h]
  cases (t.bucketAt i).entry with
  | none => rfl
  | some e => exact congrArg (· + 1) hdist

/-- An entry that is put in a bucket `c` away from its home. -/
theorem rank_setBucket {c : ℕ} (hpos : 0 < t.numBuckets) (he : b.entry = some e)
    (h : i % t.numBuckets = j % t.numBuckets) (hc : c < t.numBuckets)
    (hhome : (b.hash + c) % t.numBuckets = j % t.numBuckets) :
    (t.setBucket (j % t.numBuckets) b).rank i = c + 1 := by
  have hat := bucketAt_setBucket_self (b := b) h
  have he' : ((t.setBucket (j % t.numBuckets) b).bucketAt i).entry = some e := by rw [hat, he]
  rw [rank_of_some he']
  refine congrArg (· + 1) (distance_eq (Nat.mod_lt i hpos) hc ?_)
  change (((t.setBucket (j % t.numBuckets) b).bucketAt i).hash + c) % t.numBuckets =
    i % t.numBuckets
  rw [hat, hhome, h]

end BackshiftHashMap

end Ranks

/-! ## Entries -/

namespace Entry

variable (key value : Bytes)

theorem key_new : (new key value).key = key := List.take_left

theorem value_new : (new key value).value = value := by
  change ((key ++ value).drop key.length).take value.length = value
  rw [List.drop_left, List.take_length]

theorem hasKey_new (key' : Bytes) : (new key value).hasKey key' = true ↔ key = key' := by
  rw [hasKey, Bool.and_eq_true, beq_iff_eq, beq_iff_eq, key_new]
  exact and_iff_right_of_imp fun h => congrArg List.length h.symm

end Entry

/-- The pairs of a bucket: none, or that of its entry. -/
def Bucket.pairs (b : Bucket) : Multiset (Bytes × Bytes) :=
  match b.entry with
  | none => 0
  | some e => {(e.key, e.value)}

namespace BackshiftHashMap

/-- The pairs of all entries.  Nothing keeps a key from being there more than once. -/
def pairs (t : BackshiftHashMap) : Multiset (Bytes × Bytes) :=
  (Finset.range t.numBuckets).sum fun i => (t.buckets i).pairs

variable {t : BackshiftHashMap} {i : ℕ} {b : Bucket} {e : Entry}

theorem pairs_setBucket (hpos : 0 < t.numBuckets) (i : ℕ) (b : Bucket) :
    (t.setBucket (i % t.numBuckets) b).pairs + (t.bucketAt i).pairs = t.pairs + b.pairs := by
  have hmem : i % t.numBuckets ∈ Finset.range t.numBuckets :=
    Finset.mem_range.mpr (Nat.mod_lt i hpos)
  have hrest : ∀ j ∈ (Finset.range t.numBuckets).erase (i % t.numBuckets),
      (Function.update t.buckets (i % t.numBuckets) b j).pairs = (t.buckets j).pairs :=
    fun j hj => by rw [Function.update_of_ne (Finset.ne_of_mem_erase hj)]
  change (Finset.range t.numBuckets).sum
    (fun j => (Function.update t.buckets (i % t.numBuckets) b j).pairs) + _ = _
  rw [pairs, ← Finset.add_sum_erase _ _ hmem, ← Finset.add_sum_erase _ _ hmem,
    Finset.sum_congr rfl hrest, Function.update_self, bucketAt]
  abel

theorem mem_pairs (hpos : 0 < t.numBuckets) {pair : Bytes × Bytes} :
    pair ∈ t.pairs ↔ ∃ i e, (t.bucketAt i).entry = some e ∧ pair = (e.key, e.value) := by
  rw [pairs, Multiset.mem_sum]
  constructor
  · rintro ⟨i, hi, hmem⟩
    have hin := Finset.mem_range.mp hi
    rw [Bucket.pairs] at hmem
    cases he : (t.buckets i).entry with
    | none => rw [he] at hmem; exact absurd hmem (Multiset.notMem_zero _)
    | some e =>
        rw [he] at hmem
        refine ⟨i, e, ?_, Multiset.mem_singleton.mp hmem⟩
        rw [bucketAt, Nat.mod_eq_of_lt hin, he]
  · rintro ⟨i, e, he, rfl⟩
    refine ⟨i % t.numBuckets, Finset.mem_range.mpr (Nat.mod_lt i hpos), ?_⟩
    rw [bucketAt] at he
    rw [Bucket.pairs, he]
    exact Multiset.mem_singleton_self _

end BackshiftHashMap

/-! ## The invariant -/

/-- From each bucket to the next, the rank rises at most by one. -/
structure Climbing (hashFunction : Bytes → ℕ) (t : BackshiftHashMap) : Prop where
  pos : 0 < t.numBuckets
  probing : t.probingMax = t.numBuckets
  hash_eq : ∀ i e, (t.bucketAt i).entry = some e → (t.bucketAt i).hash = hashFunction e.key
  eq_new : ∀ i e, (t.bucketAt i).entry = some e → e = Entry.new e.key e.value
  rises : ∀ i, t.rank (i + 1) ≤ t.rank i + 1

section Invariant

variable {hashFunction : Bytes → ℕ} {t : BackshiftHashMap} {i j p : ℕ} {b : Bucket} {e : Entry}
  {key value : Bytes}

namespace Climbing

theorem rank_add_le (ht : Climbing hashFunction t) (i k : ℕ) :
    t.rank (i + k) ≤ t.rank i + k := by
  induction k with
  | zero => exact le_rfl
  | succ k ih =>
      have hrise := ht.rises (i + k)
      rw [← Nat.add_assoc]
      omega

theorem hasKey_iff (ht : Climbing hashFunction t) (h : (t.bucketAt i).entry = some e) :
    e.hasKey key = true ↔ e.key = key := by
  rw [ht.eq_new i e h, Entry.hasKey_new, Entry.key_new]

/-- A key is found where the search stops, or it is not there from here on. -/
theorem find_spec (ht : Climbing hashFunction t) (key : Bytes) (h i : ℕ) :
    (∀ q, t.find key h t.numBuckets i = some q →
      q < t.numBuckets ∧ ∃ e, (t.buckets q).entry = some e ∧ e.key = key) ∧
    (t.find key h t.numBuckets i = none → ∀ d e, i ≤ d → d < t.numBuckets →
      (t.bucketAt (h + d)).entry = some e →
      t.distanceToInitIndex ((h + d) % t.numBuckets) = d → e.key ≠ key) := by
  fun_induction BackshiftHashMap.find t key h t.numBuckets i with
  | case1 i hlt index hnone =>
      refine ⟨fun q hq => (by cases hq), fun _ d e hid _ he hd => ?_⟩
      have hrank : t.rank (h + i) = 0 := BackshiftHashMap.rank_of_none hnone
      have hrise := ht.rank_add_le (h + i) (d - i)
      have hsum : h + i + (d - i) = h + d := by omega
      rw [hsum, BackshiftHashMap.rank_of_some he, hd] at hrise
      omega
  | case2 i hlt index entry hentry hfar =>
      refine ⟨fun q hq => (by cases hq), fun _ d e hid _ he hd => ?_⟩
      have hfar' : t.distanceToInitIndex ((h + i) % t.numBuckets) < i := hfar
      have hrank := BackshiftHashMap.rank_of_some (t := t) (i := h + i) hentry
      have hrise := ht.rank_add_le (h + i) (d - i)
      have hsum : h + i + (d - i) = h + d := by omega
      rw [hsum, BackshiftHashMap.rank_of_some he, hd] at hrise
      omega
  | case3 i hlt index entry hentry hnear hkey =>
      refine ⟨fun q hq => ?_, fun hnone => by cases hnone⟩
      obtain rfl := Option.some.inj hq
      exact ⟨Nat.mod_lt _ ht.pos, entry, hentry, (ht.hasKey_iff (i := h + i) hentry).mp hkey⟩
  | case4 i hlt index entry hentry hnear hkey ih =>
      refine ⟨ih.1, fun hnone d e hid hdn he hd => ?_⟩
      rcases hid.lt_or_eq with hlt | rfl
      · exact ih.2 hnone d e hlt hdn he hd
      · intro heq
        refine hkey ((ht.hasKey_iff (i := h + i) hentry).mpr ?_)
        rw [BackshiftHashMap.bucketAt] at he
        rw [← heq]
        exact congrArg Entry.key (Option.some.inj (hentry.symm.trans he))
  | case5 i hge => exact ⟨fun q hq => (by cases hq), fun _ d e hid hdn => by omega⟩

/-- The search from the home of a key finds it exactly when it is there. -/
theorem find_eq_none_iff (ht : Climbing hashFunction t) (key : Bytes) :
    t.find key (hashFunction key % t.numBuckets) t.numBuckets 0 = none ↔
      ∀ value, (key, value) ∉ t.pairs := by
  obtain ⟨hsome, hnone⟩ := ht.find_spec key (hashFunction key % t.numBuckets) 0
  constructor
  · intro hfind value hmem
    obtain ⟨i, e, he, hpair⟩ := (BackshiftHashMap.mem_pairs ht.pos).mp hmem
    have hin := Nat.mod_lt i ht.pos
    have hhome := BackshiftHashMap.home_add_distance hin
    change ((t.bucketAt i).hash + _) % _ = _ at hhome
    have hkey : e.key = key := (congrArg Prod.fst hpair).symm
    rw [ht.hash_eq i e he, hkey, ← Nat.mod_add_mod] at hhome
    refine hnone hfind _ e (Nat.zero_le _) (BackshiftHashMap.distanceToInitIndex_lt hin) ?_ ?_ hkey
    · rw [BackshiftHashMap.bucketAt, hhome]
      exact he
    · rw [hhome]
  · intro habsent
    by_contra hne
    obtain ⟨q, hq⟩ := Option.ne_none_iff_exists'.mp hne
    obtain ⟨hqn, e, he, rfl⟩ := hsome q hq
    refine habsent e.value ((BackshiftHashMap.mem_pairs ht.pos).mpr ⟨q, e, ?_, rfl⟩)
    rw [BackshiftHashMap.bucketAt, Nat.mod_eq_of_lt hqn, he]

/-- An entry is written `c` away from its home, where the rank before allows it. -/
theorem setBucket (ht : Climbing hashFunction t) {hash c : ℕ} (hc : c < t.numBuckets)
    (hhash : hash = hashFunction e.key) (hnew : e = Entry.new e.key e.value)
    (hhome : (hash + c) % t.numBuckets = p % t.numBuckets)
    (hprev : ∀ j, (j + 1) % t.numBuckets = p % t.numBuckets → c ≤ t.rank j)
    (hnext : t.rank (p + 1) ≤ c + 2) :
    Climbing hashFunction (t.setBucket (p % t.numBuckets) ⟨hash, some e⟩) := by
  have hself : ∀ i, i % t.numBuckets = p % t.numBuckets →
      (t.setBucket (p % t.numBuckets) ⟨hash, some e⟩).rank i = c + 1 :=
    fun i hi => BackshiftHashMap.rank_setBucket ht.pos rfl hi hc hhome
  refine ⟨ht.pos, ht.probing, fun i a ha => ?_, fun i a ha => ?_, fun i => ?_⟩
  · by_cases hi : i % t.numBuckets = p % t.numBuckets
    · rw [BackshiftHashMap.bucketAt_setBucket_self hi] at ha ⊢
      rw [← Option.some.inj ha]
      exact hhash
    · rw [BackshiftHashMap.bucketAt_setBucket_of_ne hi] at ha ⊢
      exact ht.hash_eq i a ha
  · by_cases hi : i % t.numBuckets = p % t.numBuckets
    · rw [BackshiftHashMap.bucketAt_setBucket_self hi] at ha
      rw [← Option.some.inj ha]
      exact hnew
    · rw [BackshiftHashMap.bucketAt_setBucket_of_ne hi] at ha
      exact ht.eq_new i a ha
  · have hrise := ht.rises i
    by_cases hi : i % t.numBuckets = p % t.numBuckets
    · rw [hself i hi]
      by_cases hsucc : (i + 1) % t.numBuckets = p % t.numBuckets
      · rw [hself (i + 1) hsucc]
        omega
      · rw [BackshiftHashMap.rank_setBucket_of_ne hsucc]
        have hrank : t.rank (i + 1) = t.rank (p + 1) :=
          BackshiftHashMap.rank_congr (Nat.ModEq.add_right 1 hi)
        omega
    · rw [BackshiftHashMap.rank_setBucket_of_ne hi]
      by_cases hsucc : (i + 1) % t.numBuckets = p % t.numBuckets
      · rw [hself (i + 1) hsucc]
        have := hprev i hsucc
        omega
      · rwa [BackshiftHashMap.rank_setBucket_of_ne hsucc]

end Climbing

/-! ## Putting an entry -/

/-- The rank before an index whose rank is known. -/
theorem rank_of_succ_mod_eq {n : ℕ} (hn : t.numBuckets = n)
    (h : (j + 1) % n = (i + 1) % n) : t.rank j = t.rank i := by
  subst hn
  exact BackshiftHashMap.rank_congr (Nat.ModEq.add_right_cancel' 1 h)

/-- What the loop of `Put` leads to as long as there is a bucket without an entry ahead. -/
theorem place_spec {h hash c f : ℕ} (ht : Climbing hashFunction t)
    (hhash : hash = hashFunction e.key) (hnew : e = Entry.new e.key e.value)
    (hhome : (hash + c) % t.numBuckets = (h + i) % t.numBuckets)
    (hprev : ∀ j, (j + 1) % t.numBuckets = (h + i) % t.numBuckets → c ≤ t.rank j)
    (hif : i ≤ f) (hfn : f < t.numBuckets) (hfree : t.rank (h + f) = 0) :
    let t' := t.place h e hash c i
    Climbing hashFunction t' ∧ t'.numBuckets = t.numBuckets ∧
      t'.numBucketsUsed = t.numBucketsUsed ∧ t'.pairs = t.pairs + {(e.key, e.value)} := by
  -- the free bucket bounds the ranks before this one
  have hcn : ∀ {t : BackshiftHashMap} {c i : ℕ}, Climbing hashFunction t →
      (∀ j, (j + 1) % t.numBuckets = (h + i) % t.numBuckets → c ≤ t.rank j) → i ≤ f →
      f < t.numBuckets → t.rank (h + f) = 0 → c < t.numBuckets := by
    intro t c i ht hprev hif hfn hfree
    have hlast : h + f + (i + (t.numBuckets - 1) - f) + 1 = h + i + t.numBuckets := by omega
    have hle := hprev (h + f + (i + (t.numBuckets - 1) - f))
      (by rw [hlast, Nat.add_mod_right])
    have hrise := ht.rank_add_le (h + f) (i + (t.numBuckets - 1) - f)
    omega
  fun_induction BackshiftHashMap.place t h e hash c i with
  | case1 t e hash c i hlt index hnone =>
      have hc := hcn ht hprev hif hfn hfree
      have hzero : t.rank (h + i) = 0 := BackshiftHashMap.rank_of_none hnone
      have hrise := ht.rises (h + i)
      have hpairs := BackshiftHashMap.pairs_setBucket ht.pos (h + i) ⟨hash, some e⟩
      have hempty : (t.bucketAt (h + i)).pairs = 0 := by
        rw [Bucket.pairs]
        have hnone' : (t.bucketAt (h + i)).entry = none := hnone
        rw [hnone']
      rw [hempty, add_zero] at hpairs
      refine ⟨ht.setBucket hc hhash hnew hhome hprev (by omega), rfl, rfl, hpairs⟩
  | case2 t e hash c i hlt index entryTemp htemp probeDistance hfar ih =>
      have hc := hcn ht hprev hif hfn hfree
      have htemp' : (t.bucketAt (h + i)).entry = some entryTemp := htemp
      have hrank : t.rank (h + i) = probeDistance + 1 := BackshiftHashMap.rank_of_some htemp'
      have hne : i ≠ f := by
        rintro rfl
        omega
      have hfi : (h + f) % t.numBuckets ≠ (h + i) % t.numBuckets := by
        intro hmod
        exact hne (eq_of_add_mod_eq hfn (by omega) hmod).symm
      have hrise := ht.rises (h + i)
      have hset := ht.setBucket hc hhash hnew hhome hprev (by omega)
      have hin := Nat.mod_lt (h + i) ht.pos
      -- the other entry is at its home or after it, and goes on from here
      have hnext : ((t.bucketAt (h + i)).hash + (probeDistance + 1)) % t.numBuckets =
          (h + (i + 1)) % t.numBuckets := by
        have hhome := BackshiftHashMap.home_add_distance hin
        change ((t.bucketAt (h + i)).hash + probeDistance) % t.numBuckets = _ at hhome
        rw [← Nat.add_assoc, ← Nat.mod_add_mod, hhome, Nat.mod_add_mod, Nat.add_assoc]
      have hprev' : ∀ j, (j + 1) % t.numBuckets = (h + (i + 1)) % t.numBuckets →
          probeDistance + 1 ≤ (t.setBucket ((h + i) % t.numBuckets) ⟨hash, some e⟩).rank j := by
        intro j hj
        have hji : j % t.numBuckets = (h + i) % t.numBuckets := Nat.ModEq.add_right_cancel' 1 hj
        rw [BackshiftHashMap.rank_setBucket ht.pos rfl hji hc hhome]
        omega
      obtain ⟨hclimb, hcount, hused, hpairs⟩ := ih hset (ht.hash_eq _ _ htemp')
        (ht.eq_new _ _ htemp') hnext hprev' (by omega) hfn
        ((BackshiftHashMap.rank_setBucket_of_ne hfi).trans hfree)
      refine ⟨hclimb, hcount, hused, ?_⟩
      have hpairs' := BackshiftHashMap.pairs_setBucket ht.pos (h + i) ⟨hash, some e⟩
      have hold : (t.bucketAt (h + i)).pairs = {(entryTemp.key, entryTemp.value)} := by
        rw [Bucket.pairs, htemp']
      rw [hold] at hpairs'
      exact hpairs.trans hpairs'
  | case3 t e hash c i hlt index entryTemp htemp probeDistance hnear ih =>
      have htemp' : (t.bucketAt (h + i)).entry = some entryTemp := htemp
      have hrank : t.rank (h + i) = probeDistance + 1 := BackshiftHashMap.rank_of_some htemp'
      have hne : i ≠ f := by
        rintro rfl
        omega
      refine ih ht hhash hnew ?_ ?_ (by omega) hfn hfree
      · rw [← Nat.add_assoc, ← Nat.mod_add_mod, hhome, Nat.mod_add_mod]
        rfl
      · intro j hj
        have hji : t.rank j = t.rank (h + i) := rank_of_succ_mod_eq rfl hj
        omega
  | case4 t e hash c i hge =>
      rw [ht.probing] at hge
      omega

/-! ## Between two calls -/

/-- The invariant of a table. -/
structure Sound (hashFunction : Bytes → ℕ) (t : BackshiftHashMap) : Prop
    extends Climbing hashFunction t where
  used : t.numBucketsUsed = t.pairs.card

theorem card_bucket_pairs (b : Bucket) : b.pairs.card = if b.entry.isSome then 1 else 0 := by
  rw [Bucket.pairs]
  cases b.entry <;> rfl

theorem card_pairs (t : BackshiftHashMap) : t.pairs.card =
    (Finset.range t.numBuckets).sum fun i => if (t.buckets i).entry.isSome then 1 else 0 := by
  rw [BackshiftHashMap.pairs, Multiset.card_sum]
  exact Finset.sum_congr rfl fun i _ => card_bucket_pairs _

/-- A table with less pairs than buckets has a bucket without an entry. -/
theorem exists_rank_eq_zero (h : t.pairs.card < t.numBuckets) :
    ∃ i < t.numBuckets, t.rank i = 0 := by
  by_contra hnone
  push Not at hnone
  have hall : ∀ i ∈ Finset.range t.numBuckets,
      (if (t.buckets i).entry.isSome then 1 else 0) = 1 := by
    intro i hi
    have hin := Finset.mem_range.mp hi
    obtain ⟨e, he⟩ := BackshiftHashMap.entry_of_rank_pos (Nat.pos_of_ne_zero (hnone i hin))
    rw [BackshiftHashMap.bucketAt, Nat.mod_eq_of_lt hin] at he
    rw [he]
    rfl
  rw [card_pairs, Finset.sum_congr rfl hall, ← Finset.card_eq_sum_ones, Finset.card_range] at h
  exact h.false

theorem card_pairs_le (t : BackshiftHashMap) : t.pairs.card ≤ t.numBuckets := by
  rw [card_pairs]
  refine (Finset.sum_le_sum (g := fun _ => 1) fun i _ => ?_).trans_eq ?_
  · split_ifs <;> decide
  · rw [← Finset.card_eq_sum_ones, Finset.card_range]

theorem sound_new {n : ℕ} (hn : 0 < n) : Sound hashFunction (BackshiftHashMap.new n) := by
  have hrank : ∀ i, (BackshiftHashMap.new n).rank i = 0 :=
    fun i => BackshiftHashMap.rank_of_none rfl
  refine ⟨⟨hn, rfl, fun i e he => (by cases he), fun i e he => (by cases he), fun i => ?_⟩, ?_⟩
  · rw [hrank]
    exact Nat.zero_le _
  · rw [card_pairs]
    exact (Finset.sum_eq_zero fun i _ => rfl).symm

theorem pairs_new (n : ℕ) : (BackshiftHashMap.new n).pairs = 0 :=
  Finset.sum_eq_zero fun _ _ => rfl

/-- A pair is put into a table that is not full. -/
theorem put_of_lt (key value : Bytes) (ht : Sound hashFunction t)
    (h : t.pairs.card < t.numBuckets) :
    (t.put hashFunction key value).2 = 0 ∧
      (t.put hashFunction key value).1.numBuckets = t.numBuckets ∧
      (t.put hashFunction key value).1.pairs = (key, value) ::ₘ t.pairs ∧
      Sound hashFunction (t.put hashFunction key value).1 := by
  have hne : t.numBucketsUsed ≠ t.numBuckets := by
    rw [ht.used]
    exact h.ne
  obtain ⟨q, hq, hzero⟩ := exists_rank_eq_zero h
  obtain ⟨f, hf, hmod⟩ := exists_add_mod_eq (hashFunction key % t.numBuckets) hq
  have hfree : t.rank (hashFunction key % t.numBuckets + f) = 0 := by
    rw [← hzero]
    exact BackshiftHashMap.rank_congr (by rw [hmod, Nat.mod_eq_of_lt hq])
  have hcount : Climbing hashFunction { t with numBucketsUsed := t.numBucketsUsed + 1 } :=
    ⟨ht.pos, ht.probing, ht.hash_eq, ht.eq_new, ht.rises⟩
  obtain ⟨hclimb, hn, hused, hpairs⟩ := place_spec hcount (e := Entry.new key value)
    (h := hashFunction key % t.numBuckets) (c := 0) (i := 0)
    (congrArg hashFunction (Entry.key_new key value).symm)
    (by rw [Entry.key_new, Entry.value_new]) (Nat.mod_mod _ _).symm (fun j _ => Nat.zero_le _)
    (Nat.zero_le f) hf hfree
  rw [Entry.key_new, Entry.value_new, Multiset.add_comm, Multiset.singleton_add] at hpairs
  rw [BackshiftHashMap.put, if_neg hne]
  refine ⟨rfl, hn, hpairs, hclimb, ?_⟩
  have hcard := congrArg Multiset.card hpairs
  rw [Multiset.card_cons] at hcard
  exact hused.trans ((congrArg (· + 1) ht.used).trans hcard.symm)

theorem put_of_eq (ht : Sound hashFunction t) (h : t.pairs.card = t.numBuckets) :
    t.put hashFunction key value = (t, 1) := by
  rw [BackshiftHashMap.put, if_pos (ht.used.trans h)]

/-! ## Taking an entry out -/

/-- An entry is taken out of its bucket, where the next one is at home or not there. -/
theorem Climbing.clear (ht : Climbing hashFunction t) (hnext : t.rank (p + 1) ≤ 1) :
    Climbing hashFunction (t.clear (p % t.numBuckets)) := by
  have hself : ∀ i, i % t.numBuckets = p % t.numBuckets →
      ((t.clear (p % t.numBuckets)).bucketAt i).entry = none := by
    intro i hi
    rw [BackshiftHashMap.clear, BackshiftHashMap.bucketAt_setBucket_self hi]
  have hrest : ∀ i, i % t.numBuckets ≠ p % t.numBuckets →
      (t.clear (p % t.numBuckets)).bucketAt i = t.bucketAt i :=
    fun i hi => BackshiftHashMap.bucketAt_setBucket_of_ne hi
  refine ⟨ht.pos, ht.probing, fun i a ha => ?_, fun i a ha => ?_, fun i => ?_⟩
  · by_cases hi : i % t.numBuckets = p % t.numBuckets
    · rw [hself i hi] at ha
      cases ha
    · rw [hrest i hi] at ha ⊢
      exact ht.hash_eq i a ha
  · by_cases hi : i % t.numBuckets = p % t.numBuckets
    · rw [hself i hi] at ha
      cases ha
    · rw [hrest i hi] at ha
      exact ht.eq_new i a ha
  · by_cases hsucc : (i + 1) % t.numBuckets = p % t.numBuckets
    · rw [BackshiftHashMap.rank_of_none (hself (i + 1) hsucc)]
      exact Nat.zero_le _
    · have hrank : (t.clear (p % t.numBuckets)).rank (i + 1) = t.rank (i + 1) :=
        BackshiftHashMap.rank_setBucket_of_ne hsucc
      rw [hrank]
      by_cases hi : i % t.numBuckets = p % t.numBuckets
      · rw [BackshiftHashMap.rank_congr (Nat.ModEq.add_right 1 hi)]
        omega
      · have hrank' : (t.clear (p % t.numBuckets)).rank i = t.rank i :=
          BackshiftHashMap.rank_setBucket_of_ne hi
        rw [hrank']
        exact ht.rises i

theorem pairs_clear (hpos : 0 < t.numBuckets) (he : (t.bucketAt p).entry = some e) :
    t.pairs = (e.key, e.value) ::ₘ (t.clear (p % t.numBuckets)).pairs := by
  have hpairs := BackshiftHashMap.pairs_setBucket hpos p
    { t.buckets (p % t.numBuckets) with entry := none }
  have hold : (t.bucketAt p).pairs = {(e.key, e.value)} := by rw [Bucket.pairs, he]
  rw [hold, Multiset.add_comm, Multiset.singleton_add] at hpairs
  exact (add_zero _).symm.trans hpairs.symm

/-- An entry that is not at home is copied to the bucket before, where the entry of `e` was. -/
theorem Climbing.moveBack (ht : Climbing hashFunction t) {a : Entry}
    (he : (t.bucketAt p).entry = some e) (ha : (t.bucketAt (p + 1)).entry = some a)
    (haway : t.rank (p + 1) ≠ 1) :
    let t' := t.setBucket (p % t.numBuckets) (t.bucketAt (p + 1))
    Climbing hashFunction t' ∧
      (e.key, e.value) ::ₘ t'.pairs = (a.key, a.value) ::ₘ t.pairs := by
  have hin := Nat.mod_lt (p + 1) ht.pos
  have hrank := BackshiftHashMap.rank_of_some ha
  have hhome := BackshiftHashMap.home_add_distance hin
  have hdist := BackshiftHashMap.distanceToInitIndex_lt hin
  obtain ⟨d, hd⟩ : ∃ d, t.distanceToInitIndex ((p + 1) % t.numBuckets) = d + 1 :=
    Nat.exists_eq_succ_of_ne_zero (by omega)
  have hrise := ht.rises p
  have hbucket : t.bucketAt (p + 1) = ⟨(t.bucketAt (p + 1)).hash, some a⟩ := by rw [← ha]
  have hback : ((t.bucketAt (p + 1)).hash + d) % t.numBuckets = p % t.numBuckets := by
    rw [hd, ← Nat.add_assoc] at hhome
    exact Nat.ModEq.add_right_cancel' 1 hhome
  constructor
  · rw [hbucket]
    refine ht.setBucket (c := d) (by omega) (ht.hash_eq _ a ha) (ht.eq_new _ a ha) hback ?_
      (by omega)
    intro j hj
    have hprev := ht.rises j
    rw [BackshiftHashMap.rank_congr hj] at hprev
    omega
  · have hpairs := BackshiftHashMap.pairs_setBucket ht.pos p (t.bucketAt (p + 1))
    have hold : (t.bucketAt p).pairs = {(e.key, e.value)} := by rw [Bucket.pairs, he]
    have hnew : (t.bucketAt (p + 1)).pairs = {(a.key, a.value)} := by rw [Bucket.pairs, ha]
    rw [hold, hnew, Multiset.add_comm, Multiset.singleton_add, Multiset.add_comm,
      Multiset.singleton_add] at hpairs
    exact hpairs

/-- The other buckets keep their ranks. -/
theorem rank_setBucket_add {k m : ℕ} (hkm : k < m) (hm : m < t.numBuckets) :
    (t.setBucket ((p + k) % t.numBuckets) b).rank (p + m) = t.rank (p + m) := by
  refine BackshiftHashMap.rank_setBucket_of_ne fun hmod => ?_
  exact hkm.ne' (eq_of_add_mod_eq hm (by omega) hmod)

/-- The second loop of `Remove` ends at the first bucket that is empty or has an entry that is
at home, and takes out the entry of the bucket before the one where it begins. -/
theorem shift_spec {k m : ℕ} (ht : Climbing hashFunction t) (hik : i = k + 1)
    (he : (t.bucketAt (p + k)).entry = some e) (hkm : k < m) (hm : m < t.numBuckets)
    (hstop : t.rank (p + m) ≤ 1) :
    let t' := t.shift p i
    Climbing hashFunction t' ∧ t'.numBuckets = t.numBuckets ∧
      t'.numBucketsUsed = t.numBucketsUsed ∧ t.pairs = (e.key, e.value) ::ₘ t'.pairs := by
  fun_induction BackshiftHashMap.shift t p i generalizing k e with
  | case1 t i hlt previous =>
      rename_i swap hnone
      subst hik
      have hnone' : (t.bucketAt (p + k + 1)).entry = none := Option.isNone_iff_eq_none.mp hnone
      have hzero := BackshiftHashMap.rank_of_none hnone'
      have hclear := ht.clear (show t.rank (p + k + 1) ≤ 1 by omega)
      exact ⟨hclear, rfl, rfl, pairs_clear ht.pos he⟩
  | case2 t i hlt previous =>
      rename_i swap hsome hzero
      subst hik
      obtain ⟨a, ha⟩ := Option.ne_none_iff_exists'.mp (mt Option.isNone_iff_eq_none.mpr hsome)
      have hrank : t.rank (p + k + 1) = t.distanceToInitIndex swap + 1 :=
        BackshiftHashMap.rank_of_some ha
      have hclear := ht.clear (show t.rank (p + k + 1) ≤ 1 by omega)
      exact ⟨hclear, rfl, rfl, pairs_clear ht.pos he⟩
  | case3 t i hlt previous =>
      rename_i swap hsome hzero ih
      subst hik
      obtain ⟨a, ha⟩ := Option.ne_none_iff_exists'.mp (mt Option.isNone_iff_eq_none.mpr hsome)
      have hrank : t.rank (p + k + 1) = t.distanceToInitIndex swap + 1 :=
        BackshiftHashMap.rank_of_some ha
      obtain ⟨hclimb, hpairs⟩ := ht.moveBack he ha (by omega)
      have hne : m ≠ k + 1 := by
        rintro rfl
        rw [← Nat.add_assoc] at hstop
        omega
      -- the bucket that is left keeps a copy of the entry until the next step
      have hcopy : (p + (k + 1)) % t.numBuckets ≠ (p + k) % t.numBuckets := by
        intro hmod
        have := eq_of_add_mod_eq (by omega) (by omega) hmod
        omega
      obtain ⟨hclimb', hn, hused, hpairs'⟩ := ih hclimb rfl
        ((congrArg Bucket.entry (BackshiftHashMap.bucketAt_setBucket_of_ne hcopy)).trans ha)
        (by omega) hm ((rank_setBucket_add (Nat.lt_of_succ_lt (by omega)) hm).trans_le hstop)
      refine ⟨hclimb', hn, hused, ?_⟩
      have hstep : (e.key, e.value) ::ₘ (a.key, a.value) ::ₘ _ = (a.key, a.value) ::ₘ t.pairs :=
        (congrArg ((e.key, e.value) ::ₘ ·) hpairs'.symm).trans hpairs
      rw [Multiset.cons_swap] at hstep
      exact ((Multiset.cons_inj_right _).mp hstep).symm
  | case4 t i hge => omega

/-- The second loop of `Remove` does not end when all the other entries are away from home: the
last one stays in two buckets. -/
theorem card_pairs_shift {k : ℕ} (ht : Climbing hashFunction t) (hik : i = k + 1)
    (he : (t.bucketAt (p + k)).entry = some e)
    (haway : ∀ m, k < m → m < t.numBuckets → 2 ≤ t.rank (p + m)) :
    (t.shift p i).pairs.card = t.pairs.card := by
  fun_induction BackshiftHashMap.shift t p i generalizing k e with
  | case1 t i hlt previous =>
      rename_i swap hnone
      subst hik
      have hnone' : (t.bucketAt (p + (k + 1))).entry = none := Option.isNone_iff_eq_none.mp hnone
      have hrank := haway (k + 1) (Nat.lt_succ_self k) hlt
      rw [BackshiftHashMap.rank_of_none hnone'] at hrank
      omega
  | case2 t i hlt previous =>
      rename_i swap hsome hzero
      subst hik
      obtain ⟨a, ha⟩ := Option.ne_none_iff_exists'.mp (mt Option.isNone_iff_eq_none.mpr hsome)
      have hrank : t.rank (p + (k + 1)) = t.distanceToInitIndex swap + 1 :=
        BackshiftHashMap.rank_of_some ha
      have := haway (k + 1) (Nat.lt_succ_self k) hlt
      omega
  | case3 t i hlt previous =>
      rename_i swap hsome hzero ih
      subst hik
      obtain ⟨a, ha⟩ := Option.ne_none_iff_exists'.mp (mt Option.isNone_iff_eq_none.mpr hsome)
      have hrank : t.rank (p + k + 1) = t.distanceToInitIndex swap + 1 :=
        BackshiftHashMap.rank_of_some ha
      obtain ⟨hclimb, hpairs⟩ := ht.moveBack he ha (by omega)
      have hcopy : (p + (k + 1)) % t.numBuckets ≠ (p + k) % t.numBuckets := by
        intro hmod
        have := eq_of_add_mod_eq hlt (Nat.lt_of_succ_lt hlt) hmod
        omega
      have hcard := congrArg Multiset.card hpairs
      rw [Multiset.card_cons, Multiset.card_cons] at hcard
      have hrest := ih hclimb rfl
        ((congrArg Bucket.entry (BackshiftHashMap.bucketAt_setBucket_of_ne hcopy)).trans ha) ?_
      · exact hrest.trans (Nat.add_right_cancel hcard)
      · intro m hkm hm
        have hkeep : (t.setBucket ((p + k) % t.numBuckets) (t.buckets swap)).rank (p + m) =
            t.rank (p + m) := rank_setBucket_add (Nat.lt_of_succ_lt hkm) hm
        exact (haway m (Nat.lt_of_succ_lt hkm) hm).trans_eq hkeep.symm
  | case4 t i hge => rfl

end Invariant

/-! ## Requests -/

inductive Request where
  | put (key value : Bytes)
  | get (key : Bytes)
  | remove (key : Bytes)

/-- The table after a request. -/
def serve (hashFunction : Bytes → ℕ) (t : BackshiftHashMap) : Request → BackshiftHashMap
  | .put key value => (t.put hashFunction key value).1
  | .get _ => t
  | .remove key => (t.remove hashFunction key).1

/-- What a request returns, and the value that `Get` sets. -/
def answer (hashFunction : Bytes → ℕ) (t : BackshiftHashMap) : Request → ℕ × Option Bytes
  | .put key value => ((t.put hashFunction key value).2, none)
  | .get key => t.get hashFunction key
  | .remove key => ((t.remove hashFunction key).2, none)

/-- What may be returned, and the pairs then, where there is room for `n` of them.  A key may have
several values: any of them is found, and any of them is taken out. -/
inductive Allows (n : ℕ) :
    Multiset (Bytes × Bytes) → Request → ℕ × Option Bytes → Multiset (Bytes × Bytes) → Prop
  | put (m key value) : m.card < n → Allows n m (.put key value) (0, none) ((key, value) ::ₘ m)
  | full (m key value) : m.card = n → Allows n m (.put key value) (1, none) m
  | found (m key value) : (key, value) ∈ m → Allows n m (.get key) (0, some value) m
  | missing (m key) : (∀ value, (key, value) ∉ m) → Allows n m (.get key) (1, none) m
  | removed (m key value) : Allows n ((key, value) ::ₘ m) (.remove key) (0, none) m
  | absent (m key) : (∀ value, (key, value) ∉ m) → Allows n m (.remove key) (1, none) m

/-- The entry that would be taken out is in a table where every other bucket has an entry that is
away from its home. -/
def Jams (hashFunction : Bytes → ℕ) (t : BackshiftHashMap) : Request → Prop
  | .remove key => ∃ q, t.find key (hashFunction key % t.numBuckets) t.numBuckets 0 = some q ∧
      ∀ m, 0 < m → m < t.numBuckets → 2 ≤ t.rank (q + m)
  | _ => False

section Requests

variable {hashFunction : Bytes → ℕ} {t : BackshiftHashMap} {n : ℕ}

/-- Only a full table jams. -/
theorem card_pairs_of_jams (ht : Sound hashFunction t) {r : Request} (h : Jams hashFunction t r) :
    t.pairs.card = t.numBuckets := by
  cases r with
  | put key value => exact h.elim
  | get key => exact h.elim
  | remove key =>
      obtain ⟨q, hq, haway⟩ := h
      obtain ⟨hqn, e, he, -⟩ := (ht.find_spec key _ 0).1 q hq
      refine (card_pairs_le t).antisymm (Nat.le_of_not_lt fun hlt => ?_)
      obtain ⟨i, hi, hzero⟩ := exists_rank_eq_zero hlt
      obtain ⟨m, hm, rfl⟩ := exists_add_mod_eq q hi
      rw [BackshiftHashMap.rank_congr (Nat.mod_mod _ _)] at hzero
      rcases m.eq_zero_or_pos with rfl | hpos
      · rw [← Nat.mod_eq_of_lt hqn] at he
        rw [Nat.add_zero, BackshiftHashMap.rank_of_some he] at hzero
        omega
      · have := haway m hpos hm
        omega

/-- A removal that jams leaves as many pairs as there were. -/
theorem not_allows_of_jams (ht : Sound hashFunction t) {r : Request} (h : Jams hashFunction t r) :
    ¬ Allows n t.pairs r (answer hashFunction t r) (serve hashFunction t r).pairs := by
  cases r with
  | put key value => exact h.elim
  | get key => exact h.elim
  | remove key =>
      obtain ⟨q, hq, haway⟩ := h
      obtain ⟨hqn, e, he, -⟩ := (ht.find_spec key _ 0).1 q hq
      rw [← Nat.mod_eq_of_lt hqn] at he
      have hcard : (t.shift q 1).pairs.card = t.pairs.card :=
        card_pairs_shift (i := 1) (k := 0) ht.toClimbing rfl he haway
      have hserve : (serve hashFunction t (.remove key)).pairs = (t.shift q 1).pairs := by
        rw [serve, BackshiftHashMap.remove, hq]
        rfl
      have hanswer : answer hashFunction t (.remove key) = (0, none) := by
        rw [answer, BackshiftHashMap.remove, hq]
      rw [hserve, hanswer]
      generalize hpairs : t.pairs = pairs, (t.shift q 1).pairs = pairs' at hcard
      intro hallows
      cases hallows with
      | removed _ _ value =>
          rw [Multiset.card_cons] at hcard
          omega

/-- A request that does not jam is answered as it should be. -/
theorem step_of_not_jams (ht : Sound hashFunction t) (hn : t.numBuckets = n) {r : Request}
    (h : ¬ Jams hashFunction t r) :
    Allows n t.pairs r (answer hashFunction t r) (serve hashFunction t r).pairs ∧
      Sound hashFunction (serve hashFunction t r) ∧
      (serve hashFunction t r).numBuckets = n := by
  subst hn
  cases r with
  | put key value =>
      rcases (card_pairs_le t).lt_or_eq with hlt | heq
      · obtain ⟨hstatus, hcount, hpairs, hsound⟩ := put_of_lt key value ht hlt
        rw [serve, answer, hstatus, hpairs]
        exact ⟨.put t.pairs key value hlt, hsound, hcount⟩
      · rw [serve, answer, put_of_eq ht heq]
        exact ⟨.full t.pairs key value heq, ht, rfl⟩
  | get key =>
      refine ⟨?_, ht, rfl⟩
      rw [serve, answer, BackshiftHashMap.get, ht.probing]
      cases hfind : t.find key (hashFunction key % t.numBuckets) t.numBuckets 0 with
      | none => exact .missing t.pairs key ((ht.find_eq_none_iff key).mp hfind)
      | some q =>
          obtain ⟨hqn, e, he, rfl⟩ := (ht.find_spec key _ 0).1 q hfind
          have hmem : (e.key, e.value) ∈ t.pairs := by
            refine (BackshiftHashMap.mem_pairs ht.pos).mpr ⟨q, e, ?_, rfl⟩
            rw [BackshiftHashMap.bucketAt, Nat.mod_eq_of_lt hqn, he]
          dsimp only
          rw [he]
          exact .found t.pairs e.key e.value hmem
  | remove key =>
      cases hfind : t.find key (hashFunction key % t.numBuckets) t.numBuckets 0 with
      | none =>
          rw [serve, answer, BackshiftHashMap.remove, hfind]
          exact ⟨.absent t.pairs key ((ht.find_eq_none_iff key).mp hfind), ht, rfl⟩
      | some q =>
          have hstop : ∃ m, 0 < m ∧ m < t.numBuckets ∧ t.rank (q + m) ≤ 1 := by
            by_contra hall
            push Not at hall
            exact h ⟨q, hfind, hall⟩
          obtain ⟨m, hm, hmn, hstop⟩ := hstop
          obtain ⟨hqn, e, he, rfl⟩ := (ht.find_spec key _ 0).1 q hfind
          rw [← Nat.mod_eq_of_lt hqn] at he
          obtain ⟨hclimb, hcount, hused, hpairs⟩ :=
            shift_spec (i := 1) (k := 0) ht.toClimbing rfl he hm hmn hstop
          rw [serve, answer, BackshiftHashMap.remove, hfind]
          refine ⟨?_, ⟨⟨hclimb.pos, hclimb.probing, hclimb.hash_eq, hclimb.eq_new, hclimb.rises⟩,
            ?_⟩, hcount⟩
          · rw [hpairs]
            exact .removed _ e.key e.value
          · have hcard := congrArg Multiset.card hpairs
            rw [Multiset.card_cons] at hcard
            change (t.shift q 1).numBucketsUsed - 1 = (t.shift q 1).pairs.card
            rw [hused, ht.used]
            omega

end Requests

end LuaAttic.Terra.Backshift
