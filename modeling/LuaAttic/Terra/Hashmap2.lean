import LuaAttic.Support.Fallible
import LuaAttic.Support.LinearProbing
import LuaAttic.Support.Run

/-!
# The open hash table (`hashmap2.t`)

A slot is free when its hash is zero.  Looking for a key puts it into the table if it is not
there, with the value of the new slots; nothing is ever taken out.  The table grows when three
quarters are taken.

A search that does not end, and a table that grows again and again, have no result.
-/

namespace LuaAttic.Terra.Hashmap2

open LuaAttic.Support
open LinearProbing (Probed)
open RobinHood (Distinct filled)

variable {K V : Type}

structure Entry (K V : Type) where
  hash : ℕ
  key : K
  value : V

structure Table (K V : Type) where
  length : ℕ
  occupancy : ℕ
  entries : ℕ → Entry K V

/-- `h(key)` -/
def h (hash : K → ℕ) (key : K) : ℕ := if hash key = 0 then 1 else hash key

/-- `new_entry_list(length)`: all bytes are zero. -/
def newTable [Inhabited K] [Inhabited V] (length : ℕ) : Table K V where
  length := length
  occupancy := 0
  entries _ := ⟨0, default, default⟩

namespace Table

/-- The loop from a slot on, which goes on forever once it has come around. -/
def probe [DecidableEq K] (t : Table K V) (key : K) : ℕ → ℕ → Option ℕ
  | 0, _ => none
  | n + 1, probe =>
      let e := t.entries probe
      if e.hash = 0 then some probe
      else if key = e.key then some probe
      else t.probe key n ((probe + 1) % t.length)

def setValue (t : Table K V) (p : ℕ) (value : V) : Table K V :=
  { t with entries := Function.update t.entries p { t.entries p with value := value } }

/-- A free slot gets the hash and the key. -/
def occupy (t : Table K V) (p : ℕ) (hash : ℕ) (key : K) : Table K V :=
  { t with
    entries := Function.update t.entries p { t.entries p with hash := hash, key := key }
    occupancy := t.occupancy + 1 }

variable [DecidableEq K] [Inhabited K] [Inhabited V]

/-- `grow_table()`, with the search that puts the entries into the new slots. -/
def growTable (find : Table K V → K → ℕ → Option (Table K V × ℕ)) (t : Table K V) :
    Option (Table K V) :=
  (List.range t.length).foldlM (fun t' i =>
    let e := t.entries i
    if e.hash ≠ 0 then do
      let (t', p) ← find t' e.key e.hash
      return t'.setValue p e.value
    else return t') (newTable (t.length * 2))

/-- `find_entry_with_hash(key, hash)`; the number says how often tables may grow within. -/
def findEntryWithHash : ℕ → Table K V → K → ℕ → Option (Table K V × ℕ)
  | 0, _, _, _ => none
  | n + 1, t, key, hash => do
      let p ← t.probe key t.length (hash % t.length)
      if (t.entries p).hash = 0 then
        if 4 * t.occupancy ≥ 3 * t.length then do
          let t' ← t.growTable (findEntryWithHash n)
          findEntryWithHash n t' key hash
        else return (t.occupy p hash key, p)
      else return (t, p)

/-- `find_entry(key)` -/
def findEntry (hash : K → ℕ) (n : ℕ) (t : Table K V) (key : K) : Option (Table K V × ℕ) :=
  t.findEntryWithHash n key (h hash key)

/-- `set(key, value)` -/
def set (hash : K → ℕ) (n : ℕ) (t : Table K V) (key : K) (value : V) : Option (Table K V) := do
  let (t, p) ← t.findEntry hash n key
  return t.setValue p value

/-- `get(key)` -/
def get (hash : K → ℕ) (n : ℕ) (t : Table K V) (key : K) : Option (Table K V × V) := do
  let (t, p) ← t.findEntry hash n key
  return (t, (t.entries p).value)

/-- `init()` -/
def init : Table K V := newTable 8

end Table

/-! ## Slots -/

namespace Table

/-- A slot that is not free. -/
def slot (t : Table K V) (i : ℕ) : Option (Entry K V) :=
  if (t.entries i).hash = 0 then none else some (t.entries i)

variable {t : Table K V} {i : ℕ} {e : Entry K V}

theorem slot_eq_none_iff : t.slot i = none ↔ (t.entries i).hash = 0 := by
  by_cases h : (t.entries i).hash = 0
  · exact iff_of_true (if_pos h) h
  · refine iff_of_false ?_ h
    rw [slot, if_neg h]
    exact Option.some_ne_none _

theorem slot_of_ne (h : (t.entries i).hash ≠ 0) : t.slot i = some (t.entries i) := if_neg h

theorem slot_eq_some_iff : t.slot i = some e ↔ t.entries i = e ∧ e.hash ≠ 0 := by
  constructor
  · intro hslot
    by_cases h : (t.entries i).hash = 0
    · rw [slot_eq_none_iff.mpr h] at hslot
      cases hslot
    · rw [slot_of_ne h] at hslot
      obtain rfl := Option.some.inj hslot
      exact ⟨rfl, h⟩
  · rintro ⟨rfl, hne⟩
    exact slot_of_ne hne

end Table

/-- What the tables have in common that are reached.  A quarter is free, up to the entry that
has been put last. -/
structure Sound [Inhabited V] (hash : K → ℕ) (t : Table K V) : Prop where
  probed : Probed Entry.hash t.length t.slot
  distinct : Distinct Entry.key t.slot
  hash_eq : ∀ i e, t.slot i = some e → e.hash = h hash e.key
  value_eq : ∀ i, t.slot i = none → (t.entries i).value = default
  occupancy : t.occupancy = (filled t.slot t.length).card
  occupancy_lt : 4 * t.occupancy < 3 * t.length + 4
  le_length : 4 ≤ t.length

/-- The table has the values of a map; what is not in the table has the value of new slots. -/
structure Represents [Inhabited V] (hash : K → ℕ) (t : Table K V) (m : K → V) : Prop where
  sound : Sound hash t
  value_eq : ∀ i e, t.slot i = some e → m e.key = e.value
  default_eq : ∀ key, (∀ i e, t.slot i = some e → e.key ≠ key) → m key = default

variable {hash : K → ℕ} {t t' : Table K V} {m : K → V} {key : K} {p : ℕ}

theorem h_ne_zero (hash : K → ℕ) (key : K) : h hash key ≠ 0 := by
  rw [h]
  split_ifs with hz
  · exact one_ne_zero
  · exact hz

theorem represents_newTable [Inhabited K] [Inhabited V] (hash : K → ℕ) {length : ℕ}
    (hlen : 4 ≤ length) : Represents hash (newTable length : Table K V) fun _ => default := by
  have hfree : (newTable length : Table K V).slot = fun _ => none :=
    funext fun _ => Table.slot_eq_none_iff.mpr rfl
  have hnone : ∀ i e, (newTable length : Table K V).slot i ≠ some e := by
    intro i e he
    rw [hfree] at he
    cases he
  refine ⟨⟨?_, ?_, fun i e he => absurd he (hnone i e), fun _ _ => rfl, ?_, ?_, hlen⟩,
    fun i e he => absurd he (hnone i e), fun _ _ => rfl⟩
  · rw [hfree]
    exact LinearProbing.probed_empty _ _
  · rw [hfree]
    exact RobinHood.distinct_empty _
  · rw [hfree, RobinHood.filled_empty]
    rfl
  · change 4 * 0 < 3 * length + 4
    omega

/-! ## Searching -/

section Searching

variable [DecidableEq K]

/-- The loop ends at the first slot from the home on that is free or has the key. -/
theorem exists_probe (key : K) {k d : ℕ} (hfree : t.slot ((k + d) % t.length) = none) {n c : ℕ}
    (hcd : c ≤ d) (hn : d < c + n) :
    ∃ e, c ≤ e ∧ t.probe key n ((k + c) % t.length) = some ((k + e) % t.length) ∧
      (∀ j, c ≤ j → j < e → ∃ a, t.slot ((k + j) % t.length) = some a ∧ a.key ≠ key) ∧
      ∀ a, t.slot ((k + e) % t.length) = some a → a.key = key := by
  induction n generalizing c with
  | zero => omega
  | succ n ih =>
      rw [Table.probe]
      by_cases hzero : (t.entries ((k + c) % t.length)).hash = 0
      · refine ⟨c, le_rfl, if_pos hzero, fun j hj hje => by omega, fun a ha => ?_⟩
        rw [Table.slot_eq_none_iff.mpr hzero] at ha
        cases ha
      · have hslot := Table.slot_of_ne hzero
        by_cases hkey : key = (t.entries ((k + c) % t.length)).key
        · refine ⟨c, le_rfl, ?_, fun j hj hje => by omega, fun a ha => ?_⟩
          · rw [if_neg hzero, if_pos hkey]
          · rw [hslot] at ha
            rw [← Option.some.inj ha]
            exact hkey.symm
        · have hne : c ≠ d := by
            rintro rfl
            rw [hslot] at hfree
            cases hfree
          obtain ⟨e, hce, hprobe, hbefore, hend⟩ := ih (c := c + 1) (by omega) (by omega)
          refine ⟨e, by omega, ?_, fun j hj hje => ?_, hend⟩
          · rw [if_neg hzero, if_neg hkey, Nat.mod_add_mod]
            exact hprobe
          · rcases hj.lt_or_eq with hlt | rfl
            · exact hbefore j hlt hje
            · exact ⟨_, hslot, fun h => hkey h.symm⟩

variable [Inhabited V]

/-- A key is found, or the slot where it belongs. -/
theorem Sound.exists_probe (hs : Sound hash t) (key : K) :
    ∃ d, t.probe key t.length (h hash key % t.length) = some ((h hash key + d) % t.length) ∧
      ((∃ a, t.slot ((h hash key + d) % t.length) = some a ∧ a.key = key) ∨
        t.slot ((h hash key + d) % t.length) = none ∧
          (∀ c < d, t.slot ((h hash key + c) % t.length) ≠ none) ∧
          ∀ i a, t.slot i = some a → a.key ≠ key) := by
  have hocc := hs.occupancy
  have hlt := hs.occupancy_lt
  have hlen := hs.le_length
  obtain ⟨d₀, hd₀, hfree⟩ := LinearProbing.exists_free (s := t.slot) (n := t.length)
    (h := h hash key) (by omega)
  obtain ⟨d, -, hprobe, hbefore, hend⟩ := Hashmap2.exists_probe key hfree (Nat.zero_le d₀)
    (show d₀ < 0 + t.length by omega)
  refine ⟨d, hprobe, ?_⟩
  cases hslot : t.slot ((h hash key + d) % t.length) with
  | some a => exact Or.inl ⟨a, rfl, hend a hslot⟩
  | none =>
      refine Or.inr ⟨rfl, fun c hc => ?_, fun i a ha hkey => ?_⟩
      · obtain ⟨a, ha, -⟩ := hbefore c (Nat.zero_le c) hc
        rw [ha]
        exact Option.some_ne_none a
      · refine hs.probed.ne_of_free hslot (P := fun a => a.key = key ∧ a.hash = h hash key)
          (fun a h => h.2) (fun c hc a ha h => ?_) ha ⟨hkey, by rw [hs.hash_eq i a ha, hkey]⟩
        obtain ⟨b, hb, hne⟩ := hbefore c (Nat.zero_le c) hc
        rw [hb] at ha
        exact hne (Option.some.inj ha ▸ h.1)

omit [DecidableEq K] in
/-- A free slot is occupied. -/
theorem Represents.occupy (hr : Represents hash t m) {d : ℕ}
    (hp : p = (h hash key + d) % t.length) (hfree : t.slot p = none)
    (hbefore : ∀ c < d, t.slot ((h hash key + c) % t.length) ≠ none)
    (hkey : ∀ i a, t.slot i = some a → a.key ≠ key) (hroom : 4 * t.occupancy < 3 * t.length) :
    Represents hash (t.occupy p (h hash key) key) m ∧
      (t.occupy p (h hash key) key).slot p = some ⟨h hash key, key, default⟩ := by
  have hs := hr.sound
  have hvalue := hs.value_eq p hfree
  have hself : (t.occupy p (h hash key) key).entries p = ⟨h hash key, key, default⟩ := by
    rw [← hvalue]
    exact Function.update_self _ _ _
  have hslot : (t.occupy p (h hash key) key).slot =
      Function.update t.slot p (some ⟨h hash key, key, default⟩) := by
    funext i
    by_cases hi : i = p
    · rw [hi, Function.update_self, Table.slot_eq_some_iff]
      exact ⟨hself, h_ne_zero hash key⟩
    · have hsame : (t.occupy p (h hash key) key).entries i = t.entries i :=
        Function.update_of_ne hi _ _
      rw [Function.update_of_ne hi, Table.slot, Table.slot, hsame]
  have hold : ∀ i e, (t.occupy p (h hash key) key).slot i = some e →
      i = p ∧ e = ⟨h hash key, key, default⟩ ∨ i ≠ p ∧ t.slot i = some e := by
    intro i e he
    rw [hslot] at he
    by_cases hi : i = p
    · rw [hi, Function.update_self] at he
      exact Or.inl ⟨hi, (Option.some.inj he).symm⟩
    · rw [Function.update_of_ne hi] at he
      exact Or.inr ⟨hi, he⟩
  have hlen := hs.le_length
  have hlt : p < t.length := by
    rw [hp]
    exact Nat.mod_lt _ (by omega)
  refine ⟨⟨⟨?_, ?_, ?_, ?_, ?_, ?_, hlen⟩, ?_, ?_⟩, ?_⟩
  · rw [hslot, hp]
    exact hs.probed.update (x := ⟨h hash key, key, default⟩) hbefore
  · intro i j a b ha hb hab
    rcases hold i a ha with ⟨rfl, rfl⟩ | ⟨hi, hia⟩ <;>
      rcases hold j b hb with ⟨rfl, rfl⟩ | ⟨hj, hjb⟩
    · rfl
    · exact absurd hab.symm (hkey j b hjb)
    · exact absurd hab (hkey i a hia)
    · exact hs.distinct i j a b hia hjb hab
  · intro i e he
    rcases hold i e he with ⟨rfl, rfl⟩ | ⟨hi, hie⟩
    · rfl
    · exact hs.hash_eq i e hie
  · intro i hi
    rw [hslot] at hi
    by_cases hip : i = p
    · rw [hip, Function.update_self] at hi
      cases hi
    · rw [Function.update_of_ne hip] at hi
      have hsame : (t.occupy p (h hash key) key).entries i = t.entries i :=
        Function.update_of_ne hip _ _
      rw [hsame]
      exact hs.value_eq i hi
  · have hcard := LinearProbing.filled_update (s := t.slot) (x := ⟨h hash key, key, default⟩) hlt
    have hnot : p ∉ filled t.slot t.length := fun hmem => (RobinHood.mem_filled.mp hmem).2 hfree
    rw [hslot]
    change t.occupancy + 1 = (filled _ t.length).card
    rw [hcard, Finset.card_insert_of_notMem hnot, hs.occupancy]
  · change 4 * (t.occupancy + 1) < 3 * t.length + 4
    omega
  · intro i e he
    rcases hold i e he with ⟨rfl, rfl⟩ | ⟨hi, hie⟩
    · exact hr.default_eq key hkey
    · exact hr.value_eq i e hie
  · intro key' hkey'
    refine hr.default_eq key' fun i e he => ?_
    by_cases hi : i = p
    · rw [hi, hfree] at he
      cases he
    · refine hkey' i e ?_
      rw [hslot, Function.update_of_ne hi]
      exact he
  · rw [hslot, Function.update_self]

/-- The value of a key is set. -/
theorem Represents.setValue (hr : Represents hash t m) {e : Entry K V}
    (hp : t.slot p = some e) (value : V) :
    Represents hash (t.setValue p value) (Function.update m e.key value) := by
  have hs := hr.sound
  obtain ⟨heq, hne⟩ := Table.slot_eq_some_iff.mp hp
  have hself : (t.setValue p value).slot p = some { e with value := value } := by
    rw [Table.slot_eq_some_iff, ← heq]
    refine ⟨Function.update_self _ _ _, ?_⟩
    rw [heq]
    exact hne
  have hrest : ∀ i, i ≠ p → (t.setValue p value).slot i = t.slot i := by
    intro i hi
    have hsame : (t.setValue p value).entries i = t.entries i := Function.update_of_ne hi _ _
    rw [Table.slot, Table.slot, hsame]
  have hnone : ∀ i, (t.setValue p value).slot i = none ↔ t.slot i = none := by
    intro i
    by_cases hi : i = p
    · rw [hi, hself, hp]
      exact iff_of_false (Option.some_ne_none _) (Option.some_ne_none _)
    · rw [hrest i hi]
  have hold : ∀ i a, (t.setValue p value).slot i = some a →
      ∃ b, t.slot i = some b ∧ a.hash = b.hash ∧ a.key = b.key ∧
        a.value = if i = p then value else b.value := by
    intro i a ha
    by_cases hi : i = p
    · rw [hi, hself] at ha
      obtain rfl := Option.some.inj ha
      exact ⟨e, hi ▸ hp, rfl, rfl, (if_pos hi).symm⟩
    · rw [hrest i hi] at ha
      exact ⟨a, ha, rfl, rfl, (if_neg hi).symm⟩
  refine ⟨⟨?_, ?_, ?_, ?_, ?_, hs.occupancy_lt, hs.le_length⟩, ?_, ?_⟩
  · intro i a ha
    obtain ⟨b, hb, hhash, -⟩ := hold i a ha
    obtain ⟨d, hd, hfull⟩ := hs.probed i b hb
    rw [hhash]
    exact ⟨d, hd, fun c hc hfree => hfull c hc ((hnone _).mp hfree)⟩
  · intro i j a b ha hb hab
    obtain ⟨a', ha', -, hkey, -⟩ := hold i a ha
    obtain ⟨b', hb', -, hkey', -⟩ := hold j b hb
    exact hs.distinct i j a' b' ha' hb' (by rw [← hkey, ← hkey', hab])
  · intro i a ha
    obtain ⟨b, hb, hhash, hkey, -⟩ := hold i a ha
    rw [hhash, hkey]
    exact hs.hash_eq i b hb
  · intro i hi
    have hip : i ≠ p := by
      rintro rfl
      rw [hself] at hi
      cases hi
    have hsame : (t.setValue p value).entries i = t.entries i := Function.update_of_ne hip _ _
    rw [hsame]
    exact hs.value_eq i ((hnone i).mp hi)
  · have hsome : ∀ i, ((t.setValue p value).slot i).isSome = (t.slot i).isSome := by
      intro i
      rw [Bool.eq_iff_iff, Option.isSome_iff_ne_none, Option.isSome_iff_ne_none, ne_eq, ne_eq,
        hnone]
    have hfilled := RobinHood.filled_congr hsome t.length
    exact hs.occupancy.trans (congrArg Finset.card hfilled).symm
  · intro i a ha
    obtain ⟨b, hb, -, hkey, hvalue⟩ := hold i a ha
    rw [hvalue, hkey]
    split_ifs with hi
    · rw [hi, hp] at hb
      rw [← Option.some.inj hb, Function.update_self]
    · rw [Function.update_of_ne fun hkeys => hi (hs.distinct i p b e hb hp hkeys)]
      exact hr.value_eq i b hb
  · intro key' hkey'
    have hne' : key' ≠ e.key := (hkey' p _ hself).symm
    rw [Function.update_of_ne hne']
    refine hr.default_eq key' fun i a ha => ?_
    by_cases hi : i = p
    · rw [hi, hp] at ha
      rw [← Option.some.inj ha]
      exact hne'.symm
    · exact hkey' i a ((hrest i hi).trans ha)

variable [Inhabited K]

/-- What a search returns: the table has the same values, and the key is at the slot. -/
structure Located (hash : K → ℕ) (t : Table K V) (m : K → V) (key : K) (t' : Table K V) (p : ℕ) :
    Prop where
  represents : Represents hash t' m
  slot : ∃ e, t'.slot p = some e ∧ e.key = key

theorem exists_findEntry_of_room (hr : Represents hash t m)
    (hroom : 4 * t.occupancy < 3 * t.length) (n : ℕ) (key : K) :
    ∃ t' p, t.findEntryWithHash (n + 1) key (h hash key) = some (t', p) ∧
      Located hash t m key t' p ∧ t'.length = t.length ∧ t'.occupancy ≤ t.occupancy + 1 := by
  obtain ⟨d, hprobe, hend⟩ := hr.sound.exists_probe key
  rcases hend with ⟨a, ha, hkey⟩ | ⟨hfree, hbefore, hkey⟩
  · obtain ⟨heq, hne⟩ := Table.slot_eq_some_iff.mp ha
    refine ⟨t, _, ?_, ⟨hr, a, ha, hkey⟩, rfl, Nat.le_succ _⟩
    rw [Table.findEntryWithHash, hprobe]
    change (if (t.entries _).hash = 0 then _ else _) = _
    rw [if_neg (heq ▸ hne)]
    rfl
  · obtain ⟨hr', hslot⟩ := hr.occupy rfl hfree hbefore hkey hroom
    refine ⟨_, _, ?_, ⟨hr', _, hslot, rfl⟩, rfl, le_rfl⟩
    rw [Table.findEntryWithHash, hprobe]
    change (if (t.entries _).hash = 0 then _ else _) = _
    rw [if_pos (Table.slot_eq_none_iff.mp hfree), if_neg (by omega)]
    rfl

/-- The values of the entries below a slot. -/
noncomputable def below (t : Table K V) (m : K → V) (i : ℕ) (key : K) : V :=
  open Classical in
  if ∃ j < i, ∃ e, t.slot j = some e ∧ e.key = key then m key else default

omit [Inhabited K] in
theorem below_succ_of_none {i : ℕ} (hi : t.slot i = none) : below t m (i + 1) = below t m i := by
  funext key
  have hiff : (∃ j < i + 1, ∃ e, t.slot j = some e ∧ e.key = key) ↔
      ∃ j < i, ∃ e, t.slot j = some e ∧ e.key = key := by
    constructor
    · rintro ⟨j, hj, e, he, hkey⟩
      refine ⟨j, lt_of_le_of_ne (Nat.le_of_lt_succ hj) ?_, e, he, hkey⟩
      rintro rfl
      rw [hi] at he
      cases he
    · rintro ⟨j, hj, e, he, hkey⟩
      exact ⟨j, Nat.lt_succ_of_lt hj, e, he, hkey⟩
  rw [below, below]
  simp only [hiff]

omit [Inhabited K] in
theorem below_succ_of_some (hr : Represents hash t m) {i : ℕ} {e : Entry K V}
    (hi : t.slot i = some e) :
    below t m (i + 1) = Function.update (below t m i) e.key e.value := by
  funext key
  by_cases hkey : key = e.key
  · subst hkey
    rw [Function.update_self, below, if_pos ⟨i, Nat.lt_succ_self i, e, hi, rfl⟩]
    exact hr.value_eq i e hi
  · have hiff : (∃ j < i + 1, ∃ a, t.slot j = some a ∧ a.key = key) ↔
        ∃ j < i, ∃ a, t.slot j = some a ∧ a.key = key := by
      constructor
      · rintro ⟨j, hj, a, ha, hakey⟩
        refine ⟨j, lt_of_le_of_ne (Nat.le_of_lt_succ hj) ?_, a, ha, hakey⟩
        rintro rfl
        rw [hi] at ha
        exact hkey (by rw [← hakey, Option.some.inj ha])
      · rintro ⟨j, hj, a, ha, hakey⟩
        exact ⟨j, Nat.lt_succ_of_lt hj, a, ha, hakey⟩
    rw [Function.update_of_ne hkey, below, below]
    simp only [hiff]

/-- The entries are put into twice as many slots, of which three quarters are not taken yet. -/
theorem exists_growTable (hr : Represents hash t m) (n : ℕ) :
    ∃ t', t.growTable (Table.findEntryWithHash (n + 1)) = some t' ∧ Represents hash t' m ∧
      4 * t'.occupancy < 3 * t'.length := by
  have hocc := hr.sound.occupancy
  have hlt := hr.sound.occupancy_lt
  have hlen := hr.sound.le_length
  have hloop : ∀ i ≤ t.length, ∃ t', (List.range i).foldlM (fun t' i =>
      let e := t.entries i
      if e.hash ≠ 0 then do
        let (t', p) ← Table.findEntryWithHash (n + 1) t' e.key e.hash
        return t'.setValue p e.value
      else return t') (newTable (t.length * 2)) = some t' ∧
      Represents hash t' (below t m i) ∧ t'.length = t.length * 2 ∧
      t'.occupancy ≤ (filled t.slot i).card := by
    intro i
    induction i with
    | zero =>
        intro _
        have hnone : below t m 0 = fun _ => default := by
          funext key
          exact if_neg fun h => Nat.not_lt_zero _ h.choose_spec.1
        rw [hnone]
        exact ⟨_, rfl, represents_newTable hash (by omega), rfl, Nat.zero_le _⟩
    | succ i ih =>
        intro hi
        obtain ⟨t', hfold, hr', hlen', hocc'⟩ := ih (by omega)
        rw [List.range_succ, List.foldlM_append, hfold]
        by_cases hzero : (t.entries i).hash = 0
        · have hslot := Table.slot_eq_none_iff.mpr hzero
          refine ⟨t', ?_, by rwa [below_succ_of_none hslot], hlen', ?_⟩
          · change ((if (t.entries i).hash ≠ 0 then _ else _ : Option (Table K V)) >>= pure) = _
            rw [if_neg (not_not.mpr hzero)]
            rfl
          · rw [RobinHood.card_filled_succ]
            omega
        · have hslot := Table.slot_of_ne hzero
          have hcard := RobinHood.card_filled_succ (s := t.slot) i
          rw [hslot, Option.isSome_some, if_pos rfl] at hcard
          have hle : (filled t.slot (i + 1)).card ≤ (filled t.slot t.length).card := by
            refine Finset.card_le_card fun j hj => ?_
            obtain ⟨hlt, hne⟩ := RobinHood.mem_filled.mp hj
            exact RobinHood.mem_filled.mpr ⟨by omega, hne⟩
          obtain ⟨t₁, p, hfind, ⟨hr₁, a, ha, hkey⟩, hlen₁, hocc₁⟩ :=
            exists_findEntry_of_room hr' (by omega) n (t.entries i).key
          have hset := hr₁.setValue ha (t.entries i).value
          rw [hkey, ← below_succ_of_some hr hslot] at hset
          refine ⟨_, ?_, hset, hlen₁.trans hlen', ?_⟩
          · change ((if (t.entries i).hash ≠ 0 then _ else _ : Option (Table K V)) >>= pure) = _
            rw [if_pos hzero, hr.sound.hash_eq i _ hslot, hfind]
            rfl
          · change t₁.occupancy ≤ _
            omega
  obtain ⟨t', hfold, hr', hlen', hocc'⟩ := hloop t.length le_rfl
  have hall : below t m t.length = m := by
    funext key
    by_cases hthere : ∃ j < t.length, ∃ e, t.slot j = some e ∧ e.key = key
    · exact if_pos hthere
    · rw [below, if_neg hthere]
      refine (hr.default_eq key fun i e he hkey => hthere ⟨i, ?_, e, he, hkey⟩).symm
      obtain ⟨d, rfl, -⟩ := hr.sound.probed i e he
      exact Nat.mod_lt _ (by omega)
  rw [hall] at hr'
  exact ⟨t', hfold, hr', by omega⟩

/-- A search ends, also where the table grows. -/
theorem exists_findEntry (hr : Represents hash t m) {n : ℕ} (hn : 2 ≤ n) (key : K) :
    ∃ t' p, t.findEntry hash n key = some (t', p) ∧ Located hash t m key t' p := by
  obtain ⟨n, rfl⟩ := Nat.exists_eq_add_of_le' hn
  by_cases hroom : 4 * t.occupancy < 3 * t.length
  · obtain ⟨t', p, hfind, hlocated, -⟩ := exists_findEntry_of_room hr hroom (n + 1) key
    exact ⟨t', p, hfind, hlocated⟩
  · obtain ⟨t₁, hgrow, hr₁, hroom₁⟩ := exists_growTable hr n
    obtain ⟨t', p, hfind, hlocated, -⟩ := exists_findEntry_of_room hr₁ hroom₁ n key
    obtain ⟨d, hprobe, hend⟩ := hr.sound.exists_probe key
    rcases hend with ⟨a, ha, hkey⟩ | ⟨hfree, -⟩
    · obtain ⟨heq, hne⟩ := Table.slot_eq_some_iff.mp ha
      refine ⟨t, _, ?_, hr, a, ha, hkey⟩
      rw [Table.findEntry, Table.findEntryWithHash, hprobe]
      change (if (t.entries _).hash = 0 then _ else _) = _
      rw [if_neg (heq ▸ hne)]
      rfl
    · refine ⟨t', p, ?_, hlocated.represents, hlocated.slot⟩
      rw [Table.findEntry, Table.findEntryWithHash, hprobe]
      change (if (t.entries _).hash = 0 then _ else _) = _
      rw [if_pos (Table.slot_eq_none_iff.mp hfree), if_pos (not_lt.mp hroom), hgrow]
      exact hfind

end Searching

/-! ## Runs -/

inductive Request (K V : Type)
  | set (key : K) (value : V)
  | get (key : K)

section Runs

variable [DecidableEq K] [Inhabited K] [Inhabited V]

/-- The table after a request and what it returns; nothing if it does not end. -/
def perform (hash : K → ℕ) (n : ℕ) (t : Table K V) : Request K V → Option (Table K V × Option V)
  | .set key value => (t.set hash n key value).map fun t => (t, none)
  | .get key => (t.get hash n key).map fun r => (r.1, some r.2)

def serve (hash : K → ℕ) (n : ℕ) (t : Table K V) (r : Request K V) : Table K V :=
  ((perform hash n t r).map Prod.fst).getD t

def answer (hash : K → ℕ) (n : ℕ) (t : Table K V) (r : Request K V) : Option (Option V) :=
  (perform hash n t r).map Prod.snd

/-- The map after a request. -/
def served (m : K → V) : Request K V → K → V
  | .set key value => Function.update m key value
  | .get _ => m

omit [DecidableEq K] [Inhabited K] [Inhabited V] in
/-- What a map returns. -/
def answered (m : K → V) : Request K V → Option (Option V)
  | .set _ _ => some none
  | .get key => some (some (m key))

theorem Represents.step {hash : K → ℕ} {t : Table K V} {m : K → V} (hr : Represents hash t m)
    {n : ℕ} (hn : 2 ≤ n) (r : Request K V) :
    Represents hash (serve hash n t r) (served m r) ∧ answer hash n t r = answered m r := by
  cases r with
  | set key value =>
      obtain ⟨t', p, hfind, hr', a, ha, rfl⟩ := exists_findEntry hr hn key
      have hperform : perform hash n t (.set a.key value) = some (t'.setValue p value, none) := by
        rw [perform, Table.set, hfind]
        rfl
      rw [serve, answer, hperform]
      exact ⟨hr'.setValue ha value, rfl⟩
  | get key =>
      obtain ⟨t', p, hfind, hr', a, ha, rfl⟩ := exists_findEntry hr hn key
      have hperform : perform hash n t (.get a.key) = some (t', some (t'.entries p).value) := by
        rw [perform, Table.get, hfind]
        rfl
      rw [serve, answer, hperform, (Table.slot_eq_some_iff.mp ha).1]
      exact ⟨hr', congrArg (fun v => some (some v)) (hr'.value_eq p a ha).symm⟩

/-- In every run from a new table all requests end, and return what a map returns that starts
with the value of new slots everywhere. -/
theorem outputs_init (hash : K → ℕ) {n : ℕ} (hn : 2 ≤ n) (requests : List (Request K V)) :
    outputs (serve hash n) (answer hash n) requests (Table.init : Table K V) =
      outputs served answered requests fun _ => default := by
  have hstep : ∀ (t : Table K V) m r, Represents hash t m →
      Represents hash (serve hash n t r) (served m (id r)) ∧
        answer hash n t r = answered m (id r) := fun t m r hr => hr.step hn r
  have hsim := outputs_eq_of_simulation hstep requests
    (represents_newTable hash (show 4 ≤ 8 by decide))
  rw [List.map_id] at hsim
  exact hsim.2

/-- Twenty keys make the table grow twice. -/
theorem outputs_init_twenty :
    outputs (serve (fun k : ℕ => k % 3) 2) (answer (fun k : ℕ => k % 3) 2)
        ((List.range 20).map fun k => Request.set k (k * 3)) (Table.init : Table ℕ ℕ) =
      outputs served answered ((List.range 20).map fun k => Request.set k (k * 3))
        fun _ => default :=
  outputs_init (fun k => k % 3) (le_refl 2) ((List.range 20).map fun k => Request.set k (k * 3))

end Runs

end LuaAttic.Terra.Hashmap2
