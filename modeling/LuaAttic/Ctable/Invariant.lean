import LuaAttic.Ctable.Slots

/-!
# The invariant of a table

In a table with room left, the loops for a key stop inside the slots.  They find the key, or
where it belongs, and what is written there or taken out keeps the invariant.
-/

namespace LuaAttic.Ctable

open LuaAttic.Support
open RobinHood (Packed Distinct Place put drop filled)

variable {K V : Type}

/-- A size with which fewer entries are allowed than there are homes.  This is what keeps the
loops inside the slots. -/
def Roomy (o : Params K) (size : ℚ) : Prop :=
  ∃ n : ℕ, size = n ∧ o.occupancyHi n < n ∧ 1 ≤ n * o.maxOccupancyRate

/-- What the tables have in common that are reached by adding and removing entries. -/
structure Sound (o : Params K) (t : CTable K V) : Prop where
  packed : Packed Entry.hash (hashToIndex t.size) t.slot
  distinct : Distinct Entry.key t.slot
  hash_eq : ∀ i e, t.slot i = some e → e.hash = o.hashFn e.key
  displacement : ∀ i e, t.slot i = some e → i ≤ hashToIndex t.size e.hash + t.maxDisplacement
  occupancy : t.occupancy = (filled t.slot t.count).card
  occupancy_le : (t.occupancy : ℤ) ≤ o.occupancyHi t.size
  maxDisplacement_lt : (t.maxDisplacement : ℤ) < o.occupancyHi t.size
  roomy : Roomy o t.size

/-- The entry of a key and a value. -/
def Params.entry (o : Params K) (key : K) (value : V) : Entry K V := ⟨o.hashFn key, key, value⟩

/-- The slot of a key that is not there. -/
structure Missing (o : Params K) (t : CTable K V) (key : K) (p : ℕ) : Prop where
  hash_ne : (t.entries p).hash ≠ o.hashFn key
  place : Place Entry.hash (hashToIndex t.size) t.slot (o.hashFn key) p
  key_ne : ∀ i e, t.slot i = some e → e.key ≠ key

namespace Sound

variable {o : Params K} {t : CTable K V} {i p : ℕ} {e : Entry K V} {key : K} {value : V}
  (hs : Sound o t)

include hs

theorem mono : Monotone (hashToIndex t.size) := by
  obtain ⟨n, hn, -⟩ := hs.roomy
  rw [hn]
  exact hashToIndex_mono (Nat.cast_nonneg n)

theorem eq_entry (h : t.slot i = some e) : e = o.entry e.key e.value := by
  obtain ⟨hash, key, value⟩ := e
  exact congrArg (fun hash => Entry.mk hash key value) (hs.hash_eq i _ h)

variable (hfn : ∀ key, o.hashFn key < hashMax)

include hfn

/-- After the home of a key there is a free slot, and all slots up to it are not free. -/
theorem exists_free (key : K) :
    ∃ e, hashToIndex t.size (o.hashFn key) ≤ e ∧ e < t.count ∧ t.slot e = none ∧
      ∀ k, hashToIndex t.size (o.hashFn key) ≤ k → k < e → t.slot k ≠ none := by
  obtain ⟨n, hn, hroom, -⟩ := hs.roomy
  have hhome : hashToIndex t.size (o.hashFn key) ≤ n := by
    rw [hn]
    exact hashToIndex_le (hfn key)
  have hcount := CTable.count_of_size hn
  have hocc := hs.occupancy
  have hle := hs.occupancy_le
  rw [hn] at hle
  obtain ⟨e, he, hle', hfree, hfull⟩ := RobinHood.exists_empty (s := t.slot) (n := t.count)
    (p := hashToIndex t.size (o.hashFn key)) (by omega)
  exact ⟨e, he, by omega, hfree, hfull⟩

theorem lt_count (h : t.slot i = some e) : i < t.count := by
  obtain ⟨n, hn, hroom, -⟩ := hs.roomy
  have hhome : hashToIndex t.size e.hash ≤ n := by
    rw [hn, hs.hash_eq i e h]
    exact hashToIndex_le (hfn e.key)
  have hdisp := hs.displacement i e h
  have hlt := hs.maxDisplacement_lt
  rw [hn] at hlt
  rw [CTable.count_of_size hn]
  omega

/-- The loops for a key end at its slot, or where it belongs. -/
theorem exists_scan [DecidableEq K] (key : K) :
    ∃ q p, t.skipWhile (fun e => e.hash < o.hashFn key)
        (hashToIndex t.size (o.hashFn key)) = .ok q ∧
      t.skipWhile (fun e => e.hash = o.hashFn key ∧ key ≠ e.key) q = .ok p ∧
      ((∃ value, t.slot p = some (o.entry key value)) ∨ Missing o t key p) := by
  have hlt := hfn key
  obtain ⟨stop, hstart, hcount, hfree, -⟩ := hs.exists_free hfn key
  rw [CTable.slot_eq_none_iff] at hfree
  obtain ⟨q, hq, hhome, hqs, hqfalse, hqtrue⟩ := CTable.exists_skipWhile
    (fun e => e.hash < o.hashFn key) hstart hcount (by
      rw [decide_eq_false_iff_not, hfree]
      omega)
  obtain ⟨p, hp, hqp, -, hpfalse, hptrue⟩ := CTable.exists_skipWhile
    (fun e => e.hash = o.hashFn key ∧ key ≠ e.key) hqs hcount (by
      rw [decide_eq_false_iff_not, hfree]
      omega)
  simp only [decide_eq_false_iff_not, not_and, not_not, decide_eq_true_iff, not_lt]
    at hqfalse hqtrue hpfalse hptrue
  refine ⟨q, p, hq, hp, ?_⟩
  by_cases hhash : (t.entries p).hash = o.hashFn key
  · left
    have hslot := CTable.slot_of_ne (t := t) (i := p) (by omega)
    have heq := hs.eq_entry hslot
    rw [← hpfalse hhash] at heq
    exact ⟨(t.entries p).value, by rw [hslot, ← heq]⟩
  · right
    -- before the slot no hash is greater than that of the key
    have hbefore : ∀ k, hashToIndex t.size (o.hashFn key) ≤ k → k < p →
        (t.entries k).hash ≤ o.hashFn key := by
      intro k hk hkp
      rcases Nat.lt_or_ge k q with hkq | hkq
      · exact (hqtrue k hk hkq).le
      · exact (hptrue k hkq hkp).1.le
    have hgt : ∀ b, t.slot p = some b → o.hashFn key < b.hash := by
      intro b hb
      obtain ⟨rfl, -⟩ := CTable.slot_eq_some_iff.mp hb
      rcases hqp.lt_or_eq with hlt' | rfl
      · have hprev := (hptrue (p - 1) (by omega) (by omega)).1
        have hslot := CTable.slot_of_ne (t := t) (i := p - 1) (by omega)
        have := hs.packed.sorted (p - 1) p _ _ (by omega) hslot hb
        omega
      · omega
    refine ⟨hhash, ⟨by omega, fun k hk hkp => ?_, hgt⟩, fun i e he hkey => ?_⟩
    · have := hbefore k hk hkp
      exact ⟨_, CTable.slot_of_ne (by omega), this⟩
    · subst hkey
      have hhash' := hs.hash_eq i e he
      have hle := hs.packed.home_le i e he
      rw [hhash'] at hle
      obtain ⟨rfl, -⟩ := CTable.slot_eq_some_iff.mp he
      rcases lt_trichotomy i p with hip | rfl | hip
      · rcases Nat.lt_or_ge i q with hiq | hiq
        · have := hqtrue i (by omega) hiq
          omega
        · exact (hptrue i hiq hip).2 rfl
      · exact hhash hhash'
      · obtain ⟨b, hb, hble⟩ := hs.packed.exists_between (k := p) he (by rw [hhash']; omega) hip.le
        have := hgt b hb
        omega

/-! ## Writing a value -/

/-- An entry is written again with another value. -/
theorem setEntry {old : V} (h : t.slot p = some (o.entry key old)) (value : V) :
    Sound o (t.setEntry p (o.entry key value)) ∧
      ∀ e, (∃ i, (t.setEntry p (o.entry key value)).slot i = some e) ↔
        e = o.entry key value ∨ ∃ i, i ≠ p ∧ t.slot i = some e := by
  have hlt := hfn key
  have hself : (t.setEntry p (o.entry key value)).slot p = some (o.entry key value) := by
    rw [CTable.slot_eq_some_iff]
    exact ⟨Function.update_self _ _ _, hlt.ne⟩
  have hrest : ∀ i, i ≠ p → (t.setEntry p (o.entry key value)).slot i = t.slot i :=
    fun i hi => CTable.slot_congr (Function.update_of_ne hi _ _)
  have hmap : ∀ i, ((t.setEntry p (o.entry key value)).slot i).map (fun e => (e.hash, e.key)) =
      (t.slot i).map fun e => (e.hash, e.key) := by
    intro i
    by_cases hi : i = p
    · rw [hi, hself, h]
      rfl
    · rw [hrest i hi]
  have hold : ∀ i e, (t.setEntry p (o.entry key value)).slot i = some e →
      ∃ e', t.slot i = some e' ∧ e'.hash = e.hash ∧ e'.key = e.key := by
    intro i e he
    have hi := hmap i
    rw [he, Option.map_some] at hi
    obtain ⟨e', he', heq⟩ := Option.map_eq_some_iff.mp hi.symm
    exact ⟨e', he', congrArg Prod.fst heq, congrArg Prod.snd heq⟩
  have hsome : ∀ i, ((t.setEntry p (o.entry key value)).slot i).isSome = (t.slot i).isSome := by
    intro i
    have hi := congrArg Option.isSome (hmap i)
    rwa [Option.isSome_map, Option.isSome_map] at hi
  have hfilled := RobinHood.filled_congr hsome t.count
  refine ⟨⟨?_, ?_, ?_, ?_, ?_, hs.occupancy_le, hs.maxDisplacement_lt, hs.roomy⟩, fun e => ?_⟩
  · refine hs.packed.of_map_eq fun i => ?_
    have hi := congrArg (Option.map Prod.fst) (hmap i)
    rwa [Option.map_map, Option.map_map] at hi
  · intro i j a b ha hb hab
    obtain ⟨a', ha', -, hkey⟩ := hold i a ha
    obtain ⟨b', hb', -, hkey'⟩ := hold j b hb
    exact hs.distinct i j a' b' ha' hb' (by rw [hkey, hkey', hab])
  · intro i e he
    obtain ⟨e', he', hhash, hkey⟩ := hold i e he
    rw [← hhash, ← hkey]
    exact hs.hash_eq i e' he'
  · intro i e he
    obtain ⟨e', he', hhash, -⟩ := hold i e he
    rw [← hhash]
    exact hs.displacement i e' he'
  · exact hs.occupancy.trans (congrArg Finset.card hfilled).symm
  · constructor
    · rintro ⟨i, hi⟩
      by_cases hip : i = p
      · rw [hip, hself] at hi
        exact Or.inl (Option.some.inj hi).symm
      · exact Or.inr ⟨i, hip, (hrest i hip).symm.trans hi⟩
    · rintro (rfl | ⟨i, hip, hi⟩)
      · exact ⟨p, hself⟩
      · exact ⟨i, (hrest i hip).trans hi⟩

/-! ## Putting an entry in its place -/

/-- An entry is put where its key belongs, when one more is allowed. -/
theorem put_entry (hroom : (t.occupancy + 1 : ℤ) ≤ o.occupancyHi t.size)
    (hp : Missing o t key p) (hle : p < t.count) {empty : ℕ} (hpe : p ≤ empty)
    (hcount : empty < t.count) (hfree : t.slot empty = none)
    (hfull : ∀ k, p ≤ k → k < empty → t.slot k ≠ none) (value : V) {t' : CTable K V}
    (ht' : t' =
      let moved := (t.displace (p - hashToIndex t.size (o.hashFn key))).moveUp p empty
      { moved.setEntry p (o.entry key value) with occupancy := moved.occupancy + 1 }) :
    Sound o t' ∧ t'.entries p = o.entry key value ∧ t'.size = t.size ∧
      t'.occupancy = t.occupancy + 1 ∧
      ∀ e, (∃ i, t'.slot i = some e) ↔ e = o.entry key value ∨ ∃ i, t.slot i = some e := by
  obtain ⟨hentries, hsize, hocc, hmax, hdisp, hbound⟩ :=
    CTable.moveUp_spec (t.displace (p - hashToIndex t.size (o.hashFn key))) p empty
  set moved := (t.displace (p - hashToIndex t.size (o.hashFn key))).moveUp p empty
  have hself : t'.entries p = o.entry key value := by
    rw [ht']
    exact Function.update_self _ _ _
  have hrest : ∀ i, i ≠ p → t'.entries i = if p < i ∧ i ≤ empty then t.entries (i - 1)
      else t.entries i := by
    intro i hi
    rw [ht']
    exact (Function.update_of_ne hi _ _).trans (hentries i)
  have hslot : t'.slot = put t.slot p empty (o.entry key value) := by
    funext i
    rcases lt_trichotomy i p with hi | rfl | hi
    · rw [RobinHood.put_of_lt hi]
      exact CTable.slot_congr ((hrest i hi.ne).trans (if_neg (by omega)))
    · rw [RobinHood.put_self, CTable.slot_eq_some_iff]
      exact ⟨hself, (hfn key).ne⟩
    · rcases Nat.lt_or_ge empty i with hie | hie
      · rw [RobinHood.put_of_gt hpe hie]
        exact CTable.slot_congr ((hrest i hi.ne').trans (if_neg (by omega)))
      · rw [RobinHood.put_moved hi hie]
        exact CTable.slot_congr ((hrest i hi.ne').trans (if_pos ⟨hi, hie⟩))
  have hsize' : t'.size = t.size := by
    rw [ht']
    exact hsize
  have hmax' : t'.maxDisplacement = moved.maxDisplacement := by rw [ht']; rfl
  have hocc' : t'.occupancy = t.occupancy + 1 := by
    rw [ht']
    exact congrArg (· + 1) hocc
  have hcount' : t'.count = t.count := by rw [CTable.count, CTable.count, hsize']
  have hpacked := RobinHood.packed_put (x := o.entry key value) hs.mono hs.packed hp.place hpe
    hfull
  have hcard : (filled (put t.slot p empty (o.entry key value)) t.count).card =
      t.occupancy + 1 := by
    rw [RobinHood.filled_put hpe hcount hfull, hs.occupancy]
    exact Finset.card_insert_of_notMem fun h => (RobinHood.mem_filled.mp h).2 hfree
  -- as far as the entries are from home, there are entries before them
  have hfar : ∀ i e, i < t.count → put t.slot p empty (o.entry key value) i = some e →
      i ≤ hashToIndex t.size e.hash + (o.occupancyHi t.size - 1).toNat := by
    intro i e hi he
    have := hpacked.displacement_lt he hi
    rw [hcard] at this
    omega
  have hbelow := hbound (o.occupancyHi t.size - 1).toNat
    (max_le (by have := hs.maxDisplacement_lt; omega)
      (by have : p ≤ hashToIndex t.size (o.hashFn key) + _ :=
            hfar p _ hle RobinHood.put_self
          omega))
    (fun i hi hie => by
      have hne := hfull (i - 1) (by omega) (by omega)
      have hsome := CTable.slot_of_ne fun h => hne (CTable.slot_eq_none_iff.mpr h)
      exact hfar i _ (by omega) ((RobinHood.put_moved hi hie).trans hsome))
  have hdispl : max t.maxDisplacement (p - hashToIndex t.size (o.hashFn key)) ≤
      moved.maxDisplacement := hmax
  refine ⟨⟨?_, ?_, ?_, ?_, ?_, ?_, ?_, ?_⟩, hself, hsize', hocc', fun e => ?_⟩
  · rw [hslot, hsize']
    exact hpacked
  · rw [hslot]
    exact RobinHood.distinct_put hs.distinct hpe hp.key_ne
  · intro i e he
    rw [hslot] at he
    rcases (RobinHood.exists_put_iff hpe hfree).mp ⟨i, he⟩ with rfl | ⟨j, hj⟩
    · rfl
    · exact hs.hash_eq j e hj
  · intro i e he
    rw [hslot] at he
    rw [hsize', hmax']
    rcases RobinHood.put_cases hpe he with ⟨-, h⟩ | ⟨rfl, rfl⟩ | ⟨hpi, hie, h⟩ | ⟨-, h⟩
    · have := hs.displacement i e h
      omega
    · change i ≤ hashToIndex t.size (o.hashFn key) + _
      omega
    · obtain ⟨rfl, -⟩ := CTable.slot_eq_some_iff.mp h
      exact hdisp i hpi hie
    · have := hs.displacement i e h
      omega
  · rw [hocc', hslot, hcount', hcard]
  · rw [hocc', hsize']
    exact_mod_cast hroom
  · have := hs.maxDisplacement_lt
    rw [hmax', hsize']
    omega
  · rw [hsize']
    exact hs.roomy
  · rw [hslot]
    exact RobinHood.exists_put_iff hpe hfree

/-! ## Taking an entry out -/

/-- The slot of an entry is made free, and the entries after it are moved back. -/
theorem take_entry (h : t.slot p = some e) :
    ∃ t', { t.setEntry p { t.entries p with hash := hashMax } with
        occupancy := t.occupancy - 1 }.moveDown p = .ok t' ∧
      Sound o t' ∧ t'.size = t.size ∧ t'.occupancy = t.occupancy - 1 ∧
      ∀ e, (∃ i, t'.slot i = some e) ↔ ∃ i, i ≠ p ∧ t.slot i = some e := by
  have hhash := hs.hash_eq p e h
  have hhome := hs.packed.home_le p e h
  obtain ⟨stop, hstart, hcount, hfree, hfull⟩ := hs.exists_free hfn e.key
  rw [← hhash] at hstart hfull
  -- the slots up to that of the entry are not free
  have hstop : p < stop := by
    by_contra hle
    exact hs.packed.full p e stop h hstart (by omega) hfree
  let freed : CTable K V := { t.setEntry p { t.entries p with hash := hashMax } with
    occupancy := t.occupancy - 1 }
  have hat : freed.entries p = { t.entries p with hash := hashMax } := Function.update_self _ _ _
  have hself : freed.slot p = none := by rw [CTable.slot_eq_none_iff, hat]
  have hentries : ∀ i, i ≠ p → freed.entries i = t.entries i :=
    fun i hi => Function.update_of_ne hi _ _
  have hrest : ∀ i, i ≠ p → freed.slot i = t.slot i :=
    fun i hi => CTable.slot_congr (hentries i hi)
  have hstays : ∀ i, i ≠ p → (freed.Stays i ↔ t.Stays i) := by
    intro i hi
    rw [CTable.Stays, CTable.Stays, hentries i hi]
    rfl
  obtain ⟨q, t', hok, hpq, hqs, hqstays, hmoved, hslot, hsize, hocc, hmax⟩ :=
    CTable.exists_moveDown (t := freed) hstop hcount
      ((hstays stop hstop.ne').mpr (Or.inl (CTable.slot_eq_none_iff.mp hfree)))
  rw [hstays q (by omega)] at hqstays
  have hdrop : t'.slot = drop t.slot p q :=
    (hslot hself).trans (RobinHood.drop_congr hpq hrest)
  have haway : ∀ k, p < k → k < q → ∃ a, t.slot k = some a ∧
      hashToIndex t.size a.hash ≠ k := by
    intro k hk hkq
    have hnot := fun hstay => hmoved k hk hkq ((hstays k (by omega)).mpr hstay)
    exact ⟨_, CTable.slot_of_ne fun hk => hnot (Or.inl hk), fun hk => hnot (Or.inr hk)⟩
  have hfull' : ∀ k, p < k → k < q → t.slot k ≠ none :=
    fun k hk hkq => hfull k (by omega) (by omega)
  have hcount' : t'.count = t.count := by
    rw [CTable.count, hsize]
    rfl
  have hfilled : filled (drop t.slot p q) t.count = (filled t.slot t.count).erase (q - 1) :=
    RobinHood.filled_drop hpq (hqs.trans (le_of_lt hcount)) (by rw [h]; exact Option.some_ne_none e)
      hfull'
  have hmem : q - 1 ∈ filled t.slot t.count := by
    have hlt : stop < t.count := hcount
    exact RobinHood.mem_filled.mpr ⟨by omega, hfull (q - 1) (by omega) (by omega)⟩
  have hcases := fun i e (he : t'.slot i = some e) => RobinHood.drop_cases hpq (hdrop ▸ he)
  refine ⟨t', hok, ⟨?_, ?_, ?_, ?_, ?_, ?_, ?_, ?_⟩, hsize, hocc, fun e => ?_⟩
  · rw [hdrop, hsize]
    refine RobinHood.packed_drop hs.mono hs.packed hpq haway fun a ha => ?_
    obtain ⟨rfl, hne⟩ := CTable.slot_eq_some_iff.mp ha
    exact hqstays.resolve_left hne
  · rw [hdrop]
    exact RobinHood.distinct_drop hs.distinct hpq
  · intro i e he
    rcases hcases i e he with ⟨-, h⟩ | ⟨-, -, h⟩ | ⟨-, h⟩
    all_goals exact hs.hash_eq _ e h
  · intro i e he
    rw [hsize, hmax]
    change i ≤ hashToIndex t.size e.hash + t.maxDisplacement
    rcases hcases i e he with ⟨-, h⟩ | ⟨-, -, h⟩ | ⟨-, h⟩
    all_goals
      have := hs.displacement _ e h
      omega
  · rw [hocc, hdrop, hcount', hfilled, Finset.card_erase_of_mem hmem, ← hs.occupancy]
  · have hle := hs.occupancy_le
    rw [hocc, hsize]
    change ((t.occupancy - 1 : ℕ) : ℤ) ≤ o.occupancyHi t.size
    omega
  · rw [hmax, hsize]
    exact hs.maxDisplacement_lt
  · rw [hsize]
    exact hs.roomy
  · rw [hdrop]
    exact RobinHood.exists_drop_iff hpq

end Sound

end LuaAttic.Ctable
