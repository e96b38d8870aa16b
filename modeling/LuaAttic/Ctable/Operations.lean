import Mathlib.Tactic.Linarith
import LuaAttic.Ctable.Invariant
import LuaAttic.Support.Fallible

/-!
# The operations of a table

What `lookup_ptr`, `insert`, `remove_ptr` and `resize` do to the entries of a table with
the invariant.
-/

namespace LuaAttic.Ctable

open LuaAttic.Support

variable {K V : Type} {o : Params K} {t : CTable K V} {p : ℕ} {e : Entry K V} {key : K}
  {value old : V}

/-- The entry is in one of the slots. -/
def CTable.Holds (t : CTable K V) (e : Entry K V) : Prop := ∃ i, t.slot i = some e

theorem Missing.key_ne_of_holds (h : Missing o t key p) (he : t.Holds e) : e.key ≠ key := by
  obtain ⟨i, hi⟩ := he
  exact h.key_ne i e hi

/-- The table `t'` is `t` with an entry for the key, at `p`. -/
structure Stored (o : Params K) (t : CTable K V) (key : K) (value : V) (p : ℕ)
    (t' : CTable K V) : Prop where
  sound : Sound o t'
  entries_eq : t'.entries p = o.entry key value
  size_eq : t'.size = t.size
  holds_iff : ∀ e, t'.Holds e ↔ e = o.entry key value ∨ e.key ≠ key ∧ t.Holds e

/-- The other slots are those with another key. -/
theorem Sound.exists_ne_iff (hs : Sound o t) (h : t.slot p = some (o.entry key value)) :
    (∃ i, i ≠ p ∧ t.slot i = some e) ↔ e.key ≠ key ∧ t.Holds e := by
  constructor
  · rintro ⟨i, hip, hi⟩
    exact ⟨fun hkey => hip (hs.distinct i p _ _ hi h hkey), i, hi⟩
  · rintro ⟨hkey, i, hi⟩
    refine ⟨i, ?_, hi⟩
    rintro rfl
    rw [h] at hi
    exact hkey (congrArg Entry.key (Option.some.inj hi)).symm

theorem length_filter_entries (t : CTable K V) (n : ℕ) :
    (((List.range n).map t.entries).filter fun e => e.hash ≠ hashMax).length =
      (RobinHood.filled t.slot n).card := by
  induction n with
  | zero => rfl
  | succ n ih =>
      rw [List.range_succ, List.map_append, List.filter_append, List.length_append, ih,
        RobinHood.card_filled_succ]
      congr 1
      by_cases h : (t.entries n).hash = hashMax
      · rw [CTable.slot_eq_none_iff.mpr h]
        simp [h]
      · rw [CTable.slot_of_ne h]
        simp [h]

theorem sound_blank [Inhabited K] [Inhabited V] {size : ℚ} (hroomy : Roomy o size) :
    Sound o (blank size : CTable K V) := by
  have hfree : (blank size : CTable K V).slot = fun _ => none :=
    funext fun _ => CTable.slot_eq_none_iff.mpr rfl
  obtain ⟨n, rfl, hlt, hone⟩ := hroomy
  have hpos : 0 < o.occupancyHi n := Int.ceil_pos.mpr (by linarith)
  refine ⟨?_, ?_, ?_, ?_, ?_, hpos.le, hpos, ⟨n, rfl, hlt, hone⟩⟩
  · rw [hfree]
    exact RobinHood.packed_empty
  · rw [hfree]
    exact RobinHood.distinct_empty _
  · intro i e he
    rw [hfree] at he
    cases he
  · intro i e he
    rw [hfree] at he
    cases he
  · rw [hfree, RobinHood.filled_empty]
    rfl

section Keys

variable [DecidableEq K] (hfn : ∀ key, o.hashFn key < hashMax) (hs : Sound o t)

include hfn hs

theorem lookupPtr_of_holds (h : t.Holds (o.entry key value)) :
    ∃ i, lookupPtr o t key = .ok (some i) ∧ t.slot i = some (o.entry key value) := by
  obtain ⟨j, hj⟩ := h
  have hend : ∀ i v, t.slot i = some (o.entry key v) → t.slot i = some (o.entry key value) := by
    intro i v hi
    rwa [hs.distinct i j _ _ hi hj rfl]
  have hread : t.read (hashToIndex t.size (o.hashFn key)) =
      .ok (t.entries (hashToIndex t.size (o.hashFn key))) := by
    have hle : hashToIndex t.size (o.hashFn key) ≤ j := hs.packed.home_le j _ hj
    have hlt := hs.lt_count hfn hj
    exact if_pos (by omega)
  obtain ⟨q, p, hq, hp, hscan⟩ := hs.exists_scan hfn key
  rw [lookupPtr, hread]
  simp only [ok_bind]
  split_ifs with hfast
  · refine ⟨_, rfl, hend _ (t.entries (hashToIndex t.size (o.hashFn key))).value ?_⟩
    have hslot := CTable.slot_of_ne (t := t) (i := hashToIndex t.size (o.hashFn key))
      (hfast.1 ▸ (hfn key).ne)
    rw [hslot, hs.eq_entry hslot, ← hfast.2]
    rfl
  · rw [hq]
    simp only [ok_bind]
    rw [hp]
    simp only [ok_bind]
    rcases hscan with ⟨v, hv⟩ | hmiss
    · have hhash : (t.entries p).hash = o.hashFn key :=
        congrArg Entry.hash (CTable.slot_eq_some_iff.mp hv).1
      rw [if_pos hhash]
      exact ⟨p, rfl, hend p v hv⟩
    · exact absurd rfl (hmiss.key_ne j _ hj)

theorem lookupPtr_of_absent (h : ∀ e, t.Holds e → e.key ≠ key) :
    lookupPtr o t key = .ok none := by
  obtain ⟨stop, hstart, hcount, -, -⟩ := hs.exists_free hfn key
  have hread : t.read (hashToIndex t.size (o.hashFn key)) =
      .ok (t.entries (hashToIndex t.size (o.hashFn key))) := if_pos (by omega)
  obtain ⟨q, p, hq, hp, hscan⟩ := hs.exists_scan hfn key
  rw [lookupPtr, hread]
  simp only [ok_bind]
  have hslow : ¬ (o.hashFn key = (t.entries (hashToIndex t.size (o.hashFn key))).hash ∧
      key = (t.entries (hashToIndex t.size (o.hashFn key))).key) := by
    rintro ⟨hhash, hkey⟩
    exact h _ ⟨_, CTable.slot_of_ne (hhash ▸ (hfn key).ne)⟩ hkey.symm
  rw [if_neg hslow, hq]
  simp only [ok_bind]
  rw [hp]
  simp only [ok_bind]
  rcases hscan with ⟨v, hv⟩ | hmiss
  · exact absurd rfl (h _ ⟨p, hv⟩)
  · rw [if_neg hmiss.hash_ne]
    rfl

/-! ## Inserting -/

theorem insertEntry_of_holds (h : t.Holds (o.entry key old)) (value : V) :
    ∃ p t', Stored o t key value p t' ∧ ∀ updates,
      insertEntry (o.hashFn key) key value updates t =
        if updates = .none then .error .keyPresent t else .ok p t' := by
  obtain ⟨q, p, hq, hp, hscan⟩ := hs.exists_scan hfn key
  rcases hscan with ⟨v, hv⟩ | hmiss
  · obtain ⟨hsound, hholds⟩ := hs.setEntry hfn hv value
    have heq := (CTable.slot_eq_some_iff.mp hv).1
    refine ⟨p, t.setEntry p (o.entry key value), ⟨hsound, Function.update_self _ _ _, rfl, ?_⟩,
      fun updates => ?_⟩
    · exact fun e => (hholds e).trans (or_congr_right (hs.exists_ne_iff hv))
    · have hentry : { t.entries p with key := key, value := value } = o.entry key value := by
        rw [heq]
        rfl
      rw [insertEntry, get_bind_apply]
      simp only [hq, hp, ofExcept_ok_bind]
      have hhash : (t.entries p).hash = o.hashFn key := congrArg Entry.hash heq
      rw [if_pos hhash, hentry]
      split_ifs <;> rfl
  · exact absurd rfl (hmiss.key_ne_of_holds h)

theorem insertEntry_of_absent (hroom : (t.occupancy + 1 : ℤ) ≤ o.occupancyHi t.size)
    (h : ∀ e, t.Holds e → e.key ≠ key) (value : V) :
    ∃ p t', Stored o t key value p t' ∧ t'.occupancy = t.occupancy + 1 ∧ ∀ updates,
      insertEntry (o.hashFn key) key value updates t =
        if updates = .required then .error .keyNotFound t else .ok p t' := by
  obtain ⟨q, p, hq, hp, hscan⟩ := hs.exists_scan hfn key
  rcases hscan with ⟨v, hv⟩ | hmiss
  · exact absurd rfl (h _ ⟨p, hv⟩)
  · obtain ⟨stop, hstart, hcount, hfree, hfull⟩ := hs.exists_free hfn key
    have hps : p ≤ stop := by
      by_contra hlt
      obtain ⟨b, hb, -⟩ := hmiss.place.before stop hstart (not_le.mp hlt)
      rw [hfree] at hb
      cases hb
    obtain ⟨empty, hempty, hpe, hes, hend, hbefore⟩ := CTable.exists_skipWhile
      (t := t.displace (p - hashToIndex t.size (o.hashFn key))) (fun e => e.hash ≠ hashMax)
      hps hcount (by
        rw [decide_eq_false_iff_not, not_not]
        exact CTable.slot_eq_none_iff.mp hfree)
    simp only [decide_eq_false_iff_not, not_not, decide_eq_true_iff] at hend hbefore
    have hhome := hmiss.place.home_le
    obtain ⟨hsound, hentries, hsize, hocc, hholds⟩ := hs.put_entry hfn hroom hmiss (by omega) hpe
      (by omega) (CTable.slot_eq_none_iff.mpr hend)
      (fun k hk hke hnone => hbefore k hk hke (CTable.slot_eq_none_iff.mp hnone)) value rfl
    refine ⟨p, _, ⟨hsound, hentries, hsize, fun e => (hholds e).trans (or_congr_right ?_)⟩, hocc,
      fun updates => ?_⟩
    · exact (and_iff_right_of_imp (h e)).symm
    · rw [insertEntry, get_bind_apply]
      simp only [hq, hp, ofExcept_ok_bind]
      rw [if_neg hmiss.hash_ne]
      split_ifs with hrequired hmoved
      · rfl
      · simp only [hempty, ofExcept_ok_bind]
        rfl
      · -- the slot is free itself
        obtain rfl : p = empty := by
          by_contra hne
          exact hbefore p le_rfl (by omega) (not_not.mp hmoved)
        rw [CTable.moveUp_self]
        rfl

/-! ## Other slots -/

/-- Entries with other keys are put into slots with room for them. -/
theorem exists_reinsertAll {l : List (Entry K V)}
    (hentry : ∀ e ∈ l, e.hash ≠ hashMax → e = o.entry e.key e.value)
    (hdistinct : (l.filter fun e => e.hash ≠ hashMax).Pairwise fun a b => a.key ≠ b.key)
    (hnew : ∀ e ∈ l, e.hash ≠ hashMax → ∀ e', t.Holds e' → e'.key ≠ e.key)
    (hroom : (t.occupancy + (l.filter fun e => e.hash ≠ hashMax).length : ℤ) ≤
      o.occupancyHi t.size) :
    ∃ t', reinsertAll o l t = .ok () t' ∧ Sound o t' ∧ t'.size = t.size ∧
      t'.occupancy = t.occupancy + (l.filter fun e => e.hash ≠ hashMax).length ∧
      ∀ e, t'.Holds e ↔ e ∈ l ∧ e.hash ≠ hashMax ∨ t.Holds e := by
  induction l generalizing t with
  | nil =>
      refine ⟨t, rfl, hs, rfl, rfl, fun e => (or_iff_right ?_).symm⟩
      exact fun h => List.not_mem_nil h.1
  | cons entry rest ih =>
      obtain ⟨hentry', hrest⟩ := List.forall_mem_cons.mp hentry
      obtain ⟨hnew', hnewrest⟩ := List.forall_mem_cons.mp hnew
      by_cases hfree : entry.hash = hashMax
      · have hskip : reinsert o entry t = .ok () t := by
          rw [reinsert, get_bind_apply, if_pos hfree]
          rfl
        rw [List.filter_cons_of_neg (by simpa using hfree)] at hdistinct hroom ⊢
        obtain ⟨t', hok, hs', hsize, hocc, hholds⟩ := ih hs hrest hdistinct hnewrest hroom
        refine ⟨t', (bind_of_ok hskip).trans hok, hs', hsize, hocc, fun e => (hholds e).trans ?_⟩
        refine or_congr_left (and_congr_left fun hne => ?_)
        rw [List.mem_cons, or_iff_right]
        rintro rfl
        exact hne hfree
      · have heq := hentry' hfree
        have hkeys := hnew' hfree
        rw [List.filter_cons_of_pos (by simpa using hfree)] at hdistinct hroom ⊢
        obtain ⟨hfirst, hdistinct⟩ := List.pairwise_cons.mp hdistinct
        rw [List.length_cons] at hroom ⊢
        obtain ⟨p, t₁, hstored, hocc₁, hinsert⟩ :=
          insertEntry_of_absent hfn hs (by omega) hkeys entry.value
        have hput : reinsert o entry t = .ok () t₁ := by
          have hins := hinsert .none
          rw [if_neg (by decide), show o.hashFn entry.key = entry.hash by rw [heq]; rfl] at hins
          rw [reinsert, get_bind_apply, if_neg hfree, if_neg (by omega)]
          exact bind_of_ok hins
        have hsize₁ := hstored.size_eq
        have hholds₁ : ∀ e, t₁.Holds e ↔ e = entry ∨ t.Holds e := by
          intro e
          rw [hstored.holds_iff, ← heq]
          exact or_congr_right (and_iff_right_of_imp (hkeys e))
        obtain ⟨t', hok, hs', hsize, hocc, hholds⟩ := ih hstored.sound hrest hdistinct (by
          intro e he hne e' he'
          rcases (hholds₁ e').mp he' with rfl | he'
          · exact hfirst e (List.mem_filter.mpr ⟨he, decide_eq_true hne⟩)
          · exact hnewrest e he hne e' he') (by rw [hsize₁]; omega)
        refine ⟨t', (bind_of_ok hput).trans hok, hs', hsize.trans hsize₁, by omega, fun e => ?_⟩
        rw [hholds, hholds₁, List.mem_cons]
        constructor
        · rintro (⟨he, hne⟩ | rfl | he)
          · exact Or.inl ⟨Or.inr he, hne⟩
          · exact Or.inl ⟨Or.inl rfl, hfree⟩
          · exact Or.inr he
        · rintro (⟨rfl | he, hne⟩ | he)
          · exact Or.inr (Or.inl rfl)
          · exact Or.inl ⟨he, hne⟩
          · exact Or.inr (Or.inr he)

end Keys

section Sizes

theorem Roomy.rate_pos {size : ℚ} (h : Roomy o size) : 0 < o.maxOccupancyRate := by
  obtain ⟨n, -, -, hone⟩ := h
  by_contra hle
  have := mul_nonpos_of_nonneg_of_nonpos (Nat.cast_nonneg (α := ℚ) n) (not_lt.mp hle)
  linarith

theorem Roomy.double {size : ℚ} (h : Roomy o size) : Roomy o (size * 2) := by
  obtain ⟨n, rfl, hlt, hone⟩ := h
  refine ⟨2 * n, by push_cast; ring, ?_, by push_cast; linarith⟩
  have hle : o.occupancyHi (2 * n : ℕ) ≤ 2 * o.occupancyHi n := by
    refine Int.ceil_le.mpr ?_
    have := Int.le_ceil ((n : ℚ) * o.maxOccupancyRate)
    rw [Params.occupancyHi]
    push_cast
    linarith
  push_cast at hle ⊢
  omega

/-- Twice the size holds one more entry. -/
theorem Roomy.occupancyHi_lt {size : ℚ} (h : Roomy o size) :
    o.occupancyHi size < o.occupancyHi (size * 2) := by
  obtain ⟨n, rfl, -, hone⟩ := h
  have hle : (n : ℚ) * o.maxOccupancyRate + 1 ≤ n * 2 * o.maxOccupancyRate := by linarith
  have := Int.ceil_le_ceil hle
  rw [Int.ceil_add_one] at this
  exact Int.lt_of_add_one_le this

theorem Roomy.le_double {size : ℚ} (h : Roomy o size) {n : ℕ} (hn : (n : ℤ) ≤ o.occupancyHi size) :
    (n : ℚ) ≤ size * 2 * o.maxOccupancyRate := by
  obtain ⟨m, rfl, -, hone⟩ := h
  have hceil := Int.ceil_lt_add_one ((m : ℚ) * o.maxOccupancyRate)
  have hcast : (n : ℚ) ≤ ⌈(m : ℚ) * o.maxOccupancyRate⌉ := by exact_mod_cast hn
  linarith

end Sizes

section Tables

variable [DecidableEq K] [Inhabited K] [Inhabited V] (hfn : ∀ key, o.hashFn key < hashMax)

include hfn

/-- `resize` keeps the entries. -/
theorem exists_resize (hs : Sound o t) {size : ℚ} (hroomy : Roomy o size)
    (hle : (t.occupancy : ℚ) ≤ size * o.maxOccupancyRate) :
    ∃ t', resize o size t = .ok () t' ∧ Sound o t' ∧ t'.size = size ∧
      t'.occupancy = t.occupancy ∧ ∀ e, t'.Holds e ↔ t.Holds e := by
  have hlist : ∀ e, e ∈ (List.range t.count).map t.entries ∧ e.hash ≠ hashMax ↔ t.Holds e := by
    intro e
    constructor
    · rintro ⟨he, hne⟩
      obtain ⟨i, -, rfl⟩ := List.mem_map.mp he
      exact ⟨i, CTable.slot_of_ne hne⟩
    · rintro ⟨i, hi⟩
      obtain ⟨rfl, hne⟩ := CTable.slot_eq_some_iff.mp hi
      exact ⟨List.mem_map_of_mem (List.mem_range.mpr (hs.lt_count hfn hi)), hne⟩
  have hlength := length_filter_entries t t.count
  rw [← hs.occupancy] at hlength
  have hnone : ∀ e, ¬ (blank size : CTable K V).Holds e := by
    rintro e ⟨i, hi⟩
    exact (CTable.slot_eq_some_iff.mp hi).2 (by rw [← (CTable.slot_eq_some_iff.mp hi).1]; rfl)
  obtain ⟨t', hok, hs', hsize, hocc, hholds⟩ := exists_reinsertAll hfn
    (sound_blank hroomy : Sound o (blank size : CTable K V))
    (l := (List.range t.count).map t.entries)
    (fun e he hne => by
      obtain ⟨i, hi⟩ := (hlist e).mp ⟨he, hne⟩
      exact hs.eq_entry hi)
    (by
      rw [List.pairwise_filter, List.pairwise_map]
      refine List.pairwise_lt_range.imp fun hij hi hj hkey => hij.ne ?_
      exact hs.distinct _ _ _ _ (CTable.slot_of_ne (of_decide_eq_true hi))
        (CTable.slot_of_ne (of_decide_eq_true hj)) hkey)
    (fun e he hne e' he' => absurd he' (hnone e'))
    (by
      rw [hlength]
      change ((0 : ℕ) + t.occupancy : ℤ) ≤ ⌈size * o.maxOccupancyRate⌉
      have : (t.occupancy : ℚ) ≤ ⌈size * o.maxOccupancyRate⌉ := hle.trans (Int.le_ceil _)
      rw [Nat.cast_zero, zero_add]
      exact_mod_cast this)
  refine ⟨t', ?_, hs', hsize, ?_, fun e => ?_⟩
  · have hassert : size ≥ t.occupancy / o.maxOccupancyRate :=
      (div_le_iff₀ hroomy.rate_pos).mpr hle
    rw [resize, get_bind_apply, if_neg (not_not.mpr hassert)]
    exact hok
  · rw [hocc, hlength]
    exact Nat.zero_add _
  · rw [hholds, hlist]
    exact or_iff_left (hnone e)

/-- The table grows if it is full. -/
theorem exists_grown (hs : Sound o t) :
    ∃ t', (if (t.occupancy + 1 : ℤ) > o.occupancyHi t.size then resize o (t.size * 2)
        else pure () : Program K V Unit) t = .ok () t' ∧ Sound o t' ∧
      (t'.occupancy + 1 : ℤ) ≤ o.occupancyHi t'.size ∧ ∀ e, t'.Holds e ↔ t.Holds e := by
  split_ifs with hfull
  · have hle := hs.occupancy_le
    obtain ⟨t', hok, hs', hsize, hocc, hholds⟩ :=
      exists_resize hfn hs hs.roomy.double (hs.roomy.le_double hle)
    have hlt := hs.roomy.occupancyHi_lt
    exact ⟨t', hok, hs', by rw [hocc, hsize]; omega, hholds⟩
  · exact ⟨t, rfl, hs, not_lt.mp hfull, fun e => Iff.rfl⟩

/-- `remove_ptr`, in a table that does not shrink. -/
theorem exists_removePtr (hmin : o.minOccupancyRate ≤ 0) (hs : Sound o t)
    (h : t.slot p = some (o.entry key value)) :
    ∃ t', removePtr o p t = .ok () t' ∧ Sound o t' ∧
      ∀ e, t'.Holds e ↔ e.key ≠ key ∧ t.Holds e := by
  obtain ⟨heq, hne⟩ := CTable.slot_eq_some_iff.mp h
  obtain ⟨t', hmoved, hs', hsize, -, hholds⟩ := hs.take_entry hfn h
  have hbound : (p : ℚ) ≤ t.size + t.maxDisplacement := by
    obtain ⟨n, hn, -⟩ := hs.roomy
    have hdisp := hs.displacement p _ h
    have hhome : hashToIndex t.size (o.entry key value).hash ≤ n := by
      rw [hn]
      exact hashToIndex_le (hfn key)
    rw [hn]
    exact_mod_cast hdisp.trans (Nat.add_le_add_right hhome _)
  have hkeeps : ¬ (t'.occupancy : ℤ) < o.occupancyLo t'.size := by
    obtain ⟨n, hn, -⟩ := hs'.roomy
    have hlo : o.occupancyLo t'.size ≤ 0 := by
      rw [hn, Params.occupancyLo, ← Int.cast_le (R := ℚ)]
      refine (Int.floor_le _).trans ?_
      exact_mod_cast mul_nonpos_of_nonneg_of_nonpos (Nat.cast_nonneg n) hmin
    omega
  refine ⟨t', ?_, hs', fun e => (hholds e).trans (hs.exists_ne_iff h)⟩
  rw [removePtr, get_bind_apply, if_neg (not_not.mpr ⟨hbound, heq ▸ hne⟩)]
  simp only [hmoved, ofExcept_ok_bind]
  rw [set_bind_apply, if_neg hkeeps]
  rfl

end Tables

end LuaAttic.Ctable
