import LuaAttic.Ctable.Refinement

/-!
# Going through a table

The check that a table makes of itself passes in all states that are reached.  The loop over
its entries stays inside the slots, and gives every pair once.
-/

namespace LuaAttic.Ctable

open LuaAttic.Support

variable {K V : Type} {o : Params K} {t : CTable K V}

/-! ## The check -/

/-- The check of a slot, after those before it. -/
theorem exists_checkSlot (hs : Sound o t) {c : Checked} {i : ℕ}
    (hprev : c.prev = if i = 0 then 0 else (t.entries (i - 1)).hash)
    (hmax : c.maxDisplacement ≤ t.maxDisplacement) :
    ∃ c', checkSlot o t c i = some c' ∧ c'.prev = (t.entries i).hash ∧
      c'.occupancy = c.occupancy + (if (t.slot i).isSome then 1 else 0) ∧
      c'.maxDisplacement ≤ t.maxDisplacement := by
  by_cases hfree : (t.entries i).hash = hashMax
  · refine ⟨{ c with prev := (t.entries i).hash }, if_neg (not_not.mpr hfree), rfl, ?_, hmax⟩
    rw [CTable.slot_eq_none_iff.mpr hfree]
    rfl
  · have hslot := CTable.slot_of_ne hfree
    have horder : if c.prev = hashMax then hashToIndex t.size (t.entries i).hash = i
        else c.prev ≤ (t.entries i).hash := by
      by_cases hi : i = 0
      · rw [if_pos hi] at hprev
        rw [hprev, if_neg (by decide)]
        exact Nat.zero_le _
      · rw [if_neg hi] at hprev
        rw [hprev]
        split_ifs with hbefore
        · -- after a free slot an entry is at home
          have hlt := hs.packed.lt_home (CTable.slot_eq_none_iff.mpr hbefore) hslot (by omega)
          have hle := hs.packed.home_le i _ hslot
          omega
        · exact hs.packed.sorted (i - 1) i _ _ (by omega) (CTable.slot_of_ne hbefore) hslot
    have hdisp := hs.displacement i _ hslot
    refine ⟨⟨(t.entries i).hash, c.occupancy + 1,
      max c.maxDisplacement (i - hashToIndex t.size (t.entries i).hash)⟩, ?_, rfl, ?_, ?_⟩
    · rw [checkSlot, if_pos hfree, if_pos ⟨(hs.hash_eq i _ hslot).symm, horder⟩]
    · rw [hslot]
      rfl
    · exact max_le hmax (by omega)

theorem exists_checkSlots (hs : Sound o t) (n : ℕ) :
    ∃ c, (List.range n).foldlM (checkSlot o t) {} = some c ∧
      c.prev = (if n = 0 then 0 else (t.entries (n - 1)).hash) ∧
      c.occupancy = (RobinHood.filled t.slot n).card ∧
      c.maxDisplacement ≤ t.maxDisplacement := by
  induction n with
  | zero => exact ⟨{}, rfl, rfl, rfl, Nat.zero_le _⟩
  | succ n ih =>
      obtain ⟨c, hc, hprev, hocc, hmax⟩ := ih
      obtain ⟨c', hc', hprev', hocc', hmax'⟩ := exists_checkSlot hs hprev hmax
      refine ⟨c', ?_, ?_, ?_, hmax'⟩
      · rw [List.range_succ, List.foldlM_append, hc]
        change (checkSlot o t c n).bind (fun c => [].foldlM (checkSlot o t) c) = some c'
        rw [hc']
        rfl
      · rw [if_neg (Nat.succ_ne_zero n)]
        exact hprev'
      · rw [hocc', hocc, RobinHood.card_filled_succ]

theorem selfcheck_of_sound (hs : Sound o t) : selfcheck o t = some () := by
  obtain ⟨c, hc, -, hocc, hmax⟩ := exists_checkSlots hs t.count
  rw [selfcheck, hc]
  change guard (c.occupancy = t.occupancy ∧ c.maxDisplacement ≤ t.maxDisplacement) = some ()
  rw [hocc, hs.occupancy]
  exact if_pos ⟨rfl, hmax⟩

/-! ## The loop -/

/-- The slots from one on that are not free. -/
def CTable.usedFrom (t : CTable K V) (j : ℕ) : List ℕ :=
  (List.range' j (t.count - j)).filter fun i => (t.entries i).hash ≠ hashMax

theorem usedFrom_of_lt {j : ℕ} (hj : j < t.count) :
    t.usedFrom j = if (t.entries j).hash = hashMax then t.usedFrom (j + 1)
      else j :: t.usedFrom (j + 1) := by
  have hsucc : t.count - j = t.count - (j + 1) + 1 := by omega
  rw [CTable.usedFrom, hsucc, List.range'_succ]
  split_ifs with hfree
  · exact List.filter_cons_of_neg (by simpa using hfree)
  · exact List.filter_cons_of_pos (by simpa using hfree)

theorem mem_usedFrom {j i : ℕ} :
    i ∈ t.usedFrom j ↔ j ≤ i ∧ i < t.count ∧ (t.entries i).hash ≠ hashMax := by
  rw [CTable.usedFrom, List.mem_filter, List.mem_range'_1, decide_eq_true_iff, ← and_assoc]
  exact and_congr_left fun _ => by omega

section Loop

variable (hfn : ∀ key, o.hashFn key < hashMax) (hs : Sound o t)

include hfn hs

/-- The next entry after a slot is the first one that is not free. -/
theorem nextEntry_spec {n : ℕ} (hn : t.size = n) {j : ℕ} (hj : j ≤ n + t.maxDisplacement + 2) :
    (t.usedFrom j = [] ∧
        nextEntry t (t.size + t.maxDisplacement) ((j : ℤ) - 1) = .ok none) ∨
      ∃ i, i ≤ n + t.maxDisplacement ∧ t.usedFrom j = i :: t.usedFrom (i + 1) ∧
        nextEntry t (t.size + t.maxDisplacement) ((j : ℤ) - 1) = .ok (some i) := by
  have hlast : ∀ i, (t.entries i).hash ≠ hashMax → i ≤ n + t.maxDisplacement := by
    intro i hne
    have hslot := CTable.slot_of_ne hne
    have hdisp := hs.displacement i _ hslot
    have hhome : hashToIndex t.size (t.entries i).hash ≤ n := by
      rw [hn, hs.hash_eq i _ hslot]
      exact hashToIndex_le (hfn _)
    omega
  induction hd : n + t.maxDisplacement + 2 - j generalizing j with
  | zero =>
      left
      constructor
      · rw [List.eq_nil_iff_forall_not_mem]
        intro i hi
        obtain ⟨hji, -, hne⟩ := mem_usedFrom.mp hi
        have := hlast i hne
        omega
      · obtain rfl : j = n + t.maxDisplacement + 2 := by omega
        rw [nextEntry, if_neg]
        rw [hn]
        push_cast
        linarith
  | succ d ih =>
      have hcount : j < t.count := by
        obtain ⟨n', hn', hlt, -⟩ := hs.roomy
        have hmax := hs.maxDisplacement_lt
        have hsize := CTable.count_of_size hn
        have heq : (n' : ℚ) = n := hn'.symm.trans hn
        rw [hn'] at hmax
        rw [Nat.cast_inj] at heq
        omega
      have hle : (((j : ℤ) - 1 : ℤ) : ℚ) ≤ t.size + t.maxDisplacement := by
        have : j ≤ n + t.maxDisplacement + 1 := by omega
        have hcast : (j : ℚ) ≤ n + t.maxDisplacement + 1 := by exact_mod_cast this
        rw [hn]
        push_cast
        linarith
      have hnext : ((j : ℤ) - 1 + 1).toNat = j := by omega
      rw [nextEntry, if_pos hle]
      simp only [hnext]
      rw [dif_pos ⟨hcount, by omega⟩, usedFrom_of_lt hcount]
      by_cases hfree : (t.entries j).hash = hashMax
      · rw [if_pos hfree, if_neg (not_not.mpr hfree)]
        have hih := ih (j := j + 1) (by omega) (by omega)
        have hstep : (j : ℤ) - 1 + 1 = ((j + 1 : ℕ) : ℤ) - 1 := by push_cast; ring
        rw [hstep]
        exact hih
      · rw [if_neg hfree, if_pos hfree]
        exact Or.inr ⟨j, hlast j hfree, rfl, by rw [Int.sub_add_cancel]⟩

/-- The loop gives the slots that are not free, in order. -/
theorem yields_usedFrom {n : ℕ} (hn : t.size = n) {c : Option ℤ} {j : ℕ}
    (hc : c.getD (-1) = (j : ℤ) - 1) (hj : j ≤ n + t.maxDisplacement + 2) :
    Yields (iterate t) c () ((t.usedFrom j).map Nat.cast) := by
  induction hl : t.usedFrom j generalizing j c with
  | nil =>
      refine Yields.done (?_ : iterate t c () = .ok (none, ()))
      rcases nextEntry_spec hfn hs hn hj with ⟨-, hnext⟩ | ⟨i, -, hcons, -⟩
      · rw [iterate, hc, hnext]
        rfl
      · rw [hl] at hcons
        cases hcons
  | cons i rest ih =>
      rcases nextEntry_spec hfn hs hn hj with ⟨hnil, -⟩ | ⟨i', hle, hcons, hnext⟩
      · rw [hl] at hnil
        cases hnil
      · rw [hl] at hcons
        obtain ⟨rfl, hrest⟩ := List.cons.inj hcons
        rw [List.map_cons]
        refine Yields.step (?_ : iterate t c () = .ok (some (i : ℤ), ()))
          (ih (j := i + 1) ?_ (by omega) hrest.symm)
        · rw [iterate, hc, hnext]
          rfl
        · rw [Option.getD_some]
          push_cast
          ring

end Loop

/-- The pair at a slot. -/
def CTable.pairAt (t : CTable K V) (i : ℤ) : K × V :=
  ((t.entries i.toNat).key, (t.entries i.toNat).value)

theorem exists_yields_of_represents {m : K → Option V}
    (hfn : ∀ key, o.hashFn key < hashMax) (h : Represents o t m) :
    ∃ l, Yields (iterate t) none () l ∧ (l.map t.pairAt).Nodup ∧
      ∀ key value, (key, value) ∈ l.map t.pairAt ↔ m key = some value := by
  obtain ⟨n, hn, -⟩ := h.sound.roomy
  have hpair : ∀ i : ℕ, t.pairAt i = ((t.entries i).key, (t.entries i).value) := fun _ => rfl
  refine ⟨_, yields_usedFrom hfn h.sound hn (j := 0) rfl (Nat.zero_le _), ?_, ?_⟩
  · rw [List.map_map, List.nodup_map_iff_inj_on]
    · intro i hi j hj heq
      obtain ⟨-, -, hne⟩ := mem_usedFrom.mp hi
      obtain ⟨-, -, hne'⟩ := mem_usedFrom.mp hj
      exact h.sound.distinct i j _ _ (CTable.slot_of_ne hne) (CTable.slot_of_ne hne')
        (congrArg Prod.fst heq)
    · exact List.Nodup.filter _ List.nodup_range'
  · intro key value
    rw [h.eq_some_iff, List.map_map, List.mem_map]
    constructor
    · rintro ⟨i, hi, heq⟩
      obtain ⟨-, -, hne⟩ := mem_usedFrom.mp hi
      have hslot := CTable.slot_of_ne hne
      have hkey : (t.entries i).key = key := congrArg Prod.fst heq
      have hvalue : (t.entries i).value = value := congrArg Prod.snd heq
      have hentry := h.sound.eq_entry hslot
      rw [hkey, hvalue] at hentry
      exact ⟨i, hentry ▸ hslot⟩
    · rintro ⟨i, hi⟩
      obtain ⟨heq, hne⟩ := CTable.slot_eq_some_iff.mp hi
      refine ⟨i, mem_usedFrom.mpr ⟨Nat.zero_le i, h.sound.lt_count hfn hi, heq ▸ hne⟩, ?_⟩
      rw [Function.comp_apply, hpair, heq]
      rfl

end LuaAttic.Ctable
