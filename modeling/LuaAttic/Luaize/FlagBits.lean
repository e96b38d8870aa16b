import LuaAttic.Luaize.Flags

/-!
# When flags are what the options say

Options that are set to false are not cleared, and in strict mode no option is
set.  The result is what the options say only where this makes no difference.
-/

namespace LuaAttic.Luaize

open LuaAttic.Lua

/-! ## What is asked for -/

section Applied

variable (masks : Masks) (arg : Arg)

/-- The bits of the options set to true are set, those of the options set to
false are cleared, and all others are as they were. -/
structure Applied (cur r : Bits) : Prop where
  set : ∀ n b p, arg.Sets n true → masks n = some b → b.getLsbD p = true →
    r.getLsbD p = true
  clear : ∀ n b p, arg.Sets n false → masks n = some b → b.getLsbD p = true →
    r.getLsbD p = false
  kept : ∀ p, (∀ n b v, arg.Sets n v → masks n = some b → b.getLsbD p = false) →
    r.getLsbD p = cur.getLsbD p

/-- The names have bits that no other name has. -/
def DisjointMasks : Prop :=
  ∀ n n' b b', n ≠ n' → masks n = some b → masks n' = some b' → b &&& b' = 0

/-- All options have bits. -/
def Known : Prop := ∀ n v, arg.Sets n v → (masks n).isSome

/-- The options are not in the cache. -/
def Arg.Fresh (cache : Cache) : Prop :=
  match arg with
  | .string s => cache s = none
  | _ => True

/-- No option is set: the call is strict, or the first one with the string was. -/
def Arg.Dropped (strict : Bool) (cache : Cache) : Prop :=
  match arg with
  | .string s =>
      match cache s with
      | some (bits, _) => bits = 0
      | none => strict = true
  | _ => strict = true

/-- What is set to false is clear, and what is set to true but dropped is set;
in strict mode nothing is set to false. -/
structure Settles (cur : Bits) (strict : Bool) (cache : Cache) : Prop where
  enabled : strict = true → arg.Fresh cache → ∀ n, ¬ arg.Sets n false
  cleared : ∀ n b, arg.Sets n false → masks n = some b → b &&& cur = 0
  present : arg.Dropped strict cache → ∀ n b, arg.Sets n true → masks n = some b →
    b &&& cur = b

end Applied

/-! ## Options as a table -/

/-- The table of the options. -/
def Arg.options : Arg → Table Key Value
  | .table t => t
  | .string s => stringTable s
  | _ => .empty

section Tables

variable {t : Table Key Value} {arg : Arg} {n : Bytes}

theorem get_stringTable_iff {s : Bytes} {k : Key} {v : Value} :
    (stringTable s).get k = some v ↔
      ∃ n b, k = .name n ∧ v = .bool b ∧ (words s).reverse.lookup n = some b := by
  rw [get_stringTable]
  cases k with
  | number i => simp
  | name n => simp [eq_comm, and_comm]

theorem sets_iff (hoptions : arg.IsOptions) {b : Bool} :
    arg.Sets n b ↔ (Arg.table arg.options).Sets n b := by
  cases arg with
  | table t => exact Iff.rfl
  | string s =>
      simp only [Arg.Sets, Arg.options, get_stringTable_iff]
      simp
  | _ => exact hoptions.elim

theorem options_cases (hoptions : arg.IsOptions) :
    ByName arg.options ∨ IsList arg.options := by
  cases arg with
  | table t => exact hoptions
  | string s =>
      refine .inl fun k v hv => ?_
      obtain ⟨n, b, hk, hb, -⟩ := get_stringTable_iff.mp hv
      exact ⟨n, b, hk, hb⟩
  | _ => exact hoptions.elim

theorem gives_iff (ht : ByName t ∨ IsList t) :
    Gives t n ↔ (Arg.table t).Sets n true := by
  constructor
  · rintro ⟨k, v, hv, hflag⟩
    rcases ht with ht | ht
    · obtain ⟨m, b, rfl, rfl⟩ := ht k v hv
      cases b with
      | false => simp [flagOf] at hflag
      | true =>
          obtain rfl : m = n := by simpa [flagOf] using hflag
          exact .inl hv
    · obtain ⟨i, m, rfl, rfl⟩ := ht k v hv
      obtain rfl : m = n := by simpa [flagOf] using hflag
      exact .inr ⟨rfl, i, hv⟩
  · rintro (hv | ⟨-, i, hv⟩)
    · exact ⟨_, _, hv, by simp [flagOf]⟩
    · exact ⟨_, _, hv, by simp [flagOf]⟩

theorem exists_unset_iff (ht : ByName t ∨ IsList t) :
    (∃ k v, t.get k = some v ∧ flagOf k v = none) ↔ ∃ n, (Arg.table t).Sets n false := by
  constructor
  · rintro ⟨k, v, hv, hflag⟩
    rcases ht with ht | ht
    · obtain ⟨m, b, rfl, rfl⟩ := ht k v hv
      cases b with
      | false => exact ⟨m, .inl hv⟩
      | true => simp [flagOf] at hflag
    · obtain ⟨i, m, rfl, rfl⟩ := ht k v hv
      simp [flagOf] at hflag
  · rintro ⟨m, hv | ⟨hfalse, -⟩⟩
    · exact ⟨_, _, hv, by simp [flagOf]⟩
    · cases hfalse

/-- No option is set to both. -/
theorem not_sets_both (hoptions : arg.IsOptions) (htrue : arg.Sets n true) :
    ¬ arg.Sets n false := by
  rw [sets_iff hoptions] at htrue ⊢
  rintro (hfalse | ⟨hfalse, -⟩)
  · rcases htrue with htrue | ⟨-, i, htrue⟩
    · rw [hfalse] at htrue
      simp at htrue
    · rcases options_cases hoptions with h | h
      · obtain ⟨m, b, hk, -⟩ := h _ _ htrue
        cases hk
      · obtain ⟨i', m, hk, -⟩ := h _ _ hfalse
        cases hk
  · cases hfalse

end Tables

/-! ## The bits that are used -/

section Used

variable {order : Order Key} {masks : Masks} {arg : Arg} {cache : Cache} {strict : Bool}
  {bits mask cur : Bits}

/-- The bits are those of the options set to true. -/
def TrueBits (masks : Masks) (arg : Arg) (bits : Bits) : Prop :=
  ∀ p, bits.getLsbD p = true ↔
    ∃ n b, arg.Sets n true ∧ masks n = some b ∧ b.getLsbD p = true

/-- What is computed for options: all that is set to true, or nothing if nothing
is set to false. -/
def Entry (masks : Masks) (arg : Arg) (strict : Bool) (bits mask : Bits) : Prop :=
  mask = bits ∧ ((strict = false ∧ TrueBits masks arg bits) ∨
    strict = true ∧ bits = 0 ∧ ∀ n, ¬ arg.Sets n false)

theorem entry_of_tableFlags (hoptions : arg.IsOptions)
    (h : tableFlags order arg.options masks strict = .ok (bits, mask)) :
    Entry masks arg strict bits mask := by
  cases strict with
  | false =>
      obtain ⟨T, hrun, hT⟩ := tableFlags_lenient order arg.options masks
      obtain ⟨rfl, rfl⟩ := Prod.mk.inj (Except.ok.inj (hrun.symm.trans h))
      refine ⟨rfl, .inl ⟨rfl, fun p => (hT p).trans ?_⟩⟩
      simp only [gives_iff (options_cases hoptions), sets_iff hoptions]
  | true =>
      rw [tableFlags_strict] at h
      split at h
      · next hall =>
          obtain ⟨rfl, rfl⟩ := Prod.mk.inj (Except.ok.inj h)
          refine ⟨rfl, .inr ⟨rfl, rfl, fun n hn => ?_⟩⟩
          rw [sets_iff hoptions] at hn
          obtain ⟨k, v, hv, hflag⟩ :=
            (exists_unset_iff (options_cases hoptions)).mpr ⟨n, hn⟩
          have hsome := hall k (mem_order_iff.mpr (by rw [hv]; rfl)) v hv
          rw [hflag] at hsome
          cases hsome
      · cases h

/-- What is raised is so for an option that is set to false or not known. -/
theorem unset_of_tableFlags (hoptions : arg.IsOptions) (hknown : Known masks arg) {e : Error}
    (h : tableFlags order arg.options masks strict = .error e) :
    strict = true ∧ ∃ n, arg.Sets n false := by
  cases strict with
  | false =>
      obtain ⟨T, hrun, -⟩ := tableFlags_lenient order arg.options masks
      cases hrun.symm.trans h
  | true =>
      refine ⟨rfl, ?_⟩
      rw [tableFlags_strict] at h
      split at h
      · cases h
      · next hall =>
          push Not at hall
          obtain ⟨k, -, v, hv, hnone⟩ := hall
          simp only [sets_iff hoptions]
          refine (exists_unset_iff (options_cases hoptions)).mp ⟨k, v, hv, ?_⟩
          cases hflag : flagOf k v with
          | none => rfl
          | some n =>
              have hsets : arg.Sets n true :=
                (sets_iff hoptions).mpr ((gives_iff (options_cases hoptions)).mp ⟨k, v, hv, hflag⟩)
              have hsome := hknown n true hsets
              rw [hflag] at hnone
              simp_all

/-- The caches that calls leave. -/
inductive Reached (masks : Masks) : Cache → Prop
  | empty : Reached masks fun _ => none
  | call {cache : Cache} (order : Order Key) (arg : Arg) (cur : Option Bits) (strict : Bool)
      (h : Reached masks cache) : Reached masks (flags order masks arg cur strict cache).2

/-- What is in the cache was computed for its string. -/
theorem Reached.entry (h : Reached masks cache) {s : Bytes} (hs : cache s = some (bits, mask)) :
    ∃ strict, Entry masks (.string s) strict bits mask := by
  induction h generalizing bits mask with
  | empty => cases hs
  | @call cache order arg cur strict _ ih =>
      cases arg with
      | string s' =>
          simp only [flags] at hs
          split at hs
          · exact ih hs
          · split at hs
            · next hrun =>
                change Function.update cache s' _ s = _ at hs
                by_cases hne : s = s'
                · subst hne
                  rw [Function.update_self] at hs
                  obtain ⟨rfl, rfl⟩ := Prod.mk.inj (Option.some.inj hs)
                  have hoptions : (Arg.string s).IsOptions := trivial
                  exact ⟨strict, entry_of_tableFlags hoptions hrun⟩
                · rw [Function.update_of_ne hne] at hs
                  exact ih hs
            · exact ih hs
      | table t =>
          simp only [flags] at hs
          split at hs <;> exact ih hs
      | _ => exact ih hs

/-- Options that are not in the cache are computed. -/
theorem flags_fresh (hoptions : arg.IsOptions) (hfresh : arg.Fresh cache) (order : Order Key)
    (cur : Option Bits) :
    (flags order masks arg cur strict cache).1 =
        (tableFlags order arg.options masks strict).map (fun r => setbits r.1 r.2 cur) ∧
      (arg.Dropped strict cache ↔ strict = true) := by
  cases arg with
  | string s =>
      have hnone : cache s = none := hfresh
      refine ⟨?_, by simp [Arg.Dropped, hnone]⟩
      simp only [flags, hnone, stringFlags, Arg.options]
      cases tableFlags order (stringTable s) masks strict <;> rfl
  | table t =>
      refine ⟨?_, Iff.rfl⟩
      simp only [flags, Arg.options]
      cases tableFlags order t masks strict <;> rfl
  | _ => exact hoptions.elim

/-- A call raises where strict mode meets an option that is set to false; else it
sets the bits of what is set to true, or none if these are dropped. -/
theorem flags_cases (hoptions : arg.IsOptions) (hcache : Reached masks cache)
    (hknown : strict = true → Known masks arg) (order : Order Key) (cur : Option Bits) :
    (strict = true ∧ arg.Fresh cache ∧ (∃ n, arg.Sets n false) ∧
      ∃ e, (flags order masks arg cur strict cache).1 = .error e) ∨
    ∃ bits, (flags order masks arg cur strict cache).1 = .ok (setbits bits bits cur) ∧
      (arg.Dropped strict cache → bits = 0) ∧
      (TrueBits masks arg bits ∨ arg.Dropped strict cache) ∧
      (strict = true → arg.Fresh cache → ∀ n, ¬ arg.Sets n false) := by
  by_cases hfresh : arg.Fresh cache
  · obtain ⟨hrun, hdropped⟩ := flags_fresh hoptions hfresh order cur
    rw [hrun, hdropped]
    cases htable : tableFlags order arg.options masks strict with
    | error e =>
        have hunset : strict = true ∧ ∃ n, arg.Sets n false := by
          cases strict with
          | true => exact unset_of_tableFlags hoptions (hknown rfl) htable
          | false =>
              obtain ⟨T, hok, -⟩ := tableFlags_lenient order arg.options masks
              cases hok.symm.trans htable
        exact .inl ⟨hunset.1, hfresh, hunset.2, e, rfl⟩
    | ok r =>
        obtain ⟨bits, mask⟩ := r
        obtain ⟨rfl, hentry⟩ := entry_of_tableFlags hoptions htable
        refine .inr ⟨mask, rfl, ?_⟩
        rcases hentry with ⟨rfl, hbits⟩ | ⟨rfl, rfl, hnone⟩
        · simp [hbits]
        · exact ⟨fun _ => rfl, .inr rfl, fun _ _ => hnone⟩
  · cases arg with
    | string s =>
        obtain ⟨⟨bits, mask⟩, hs⟩ := Option.ne_none_iff_exists'.mp hfresh
        obtain ⟨strict', rfl, hentry⟩ := hcache.entry hs
        refine .inr ⟨mask, by simp [flags, hs], ?_, ?_, fun _ h => absurd h hfresh⟩
        · simp [Arg.Dropped, hs]
        · rcases hentry with ⟨-, hbits⟩ | ⟨-, hzero, -⟩
          · exact .inl hbits
          · exact .inr (by simpa [Arg.Dropped, hs] using hzero)
    | _ => exact absurd trivial hfresh

theorem getLsbD_setbits (p : ℕ) (cur : Option Bits) :
    (setbits bits bits cur).getLsbD p = (bits.getLsbD p || (cur.getD 0).getLsbD p) := by
  cases cur with
  | none => simp [setbits]
  | some cur =>
      by_cases hp : p < 32
      · simp [setbits, hp]
        cases bits[p] <;> simp
      · simp [setbits, BitVec.getLsbD_of_ge cur p (Nat.le_of_not_lt hp)]

/-- The bits that are set are what the options say where none of them has to be
cleared, and those that are dropped are there. -/
theorem applied_setbits_iff {dropped : Prop} (cur : Option Bits) (hdisjoint : DisjointMasks masks)
    (hoptions : arg.IsOptions) (hzero : dropped → bits = 0)
    (hbits : TrueBits masks arg bits ∨ dropped) :
    Applied masks arg (cur.getD 0) (setbits bits bits cur) ↔
      (∀ n b, arg.Sets n false → masks n = some b → b &&& cur.getD 0 = 0) ∧
      (dropped → ∀ n b, arg.Sets n true → masks n = some b → b &&& cur.getD 0 = b) := by
  have hresult : ∀ p, (setbits bits bits cur).getLsbD p =
      (bits.getLsbD p || (cur.getD 0).getLsbD p) := fun p => getLsbD_setbits p cur
  have howner : ∀ p, bits.getLsbD p = true →
      ∃ n b, arg.Sets n true ∧ masks n = some b ∧ b.getLsbD p = true := by
    intro p hp
    rcases hbits with htrue | hdropped
    · exact (htrue p).mp hp
    · rw [hzero hdropped] at hp
      simp at hp
  constructor
  · rintro ⟨hset, hclear, -⟩
    refine ⟨fun n b hn hb => and_eq_zero_iff.mpr fun p hp => ?_,
      fun hdropped n b hn hb => and_eq_left_iff.mpr fun p hp => ?_⟩
    · have hoff := hclear n b p hn hb hp
      rw [hresult, Bool.or_eq_false_iff] at hoff
      exact hoff.2
    · have hon := hset n b p hn hb hp
      rw [hresult, hzero hdropped] at hon
      simpa using hon
  · rintro ⟨hcleared, hpresent⟩
    refine ⟨fun n b p hn hb hp => ?_, fun n b p hn hb hp => ?_, fun p hfree => ?_⟩
    · rw [hresult, Bool.or_eq_true]
      rcases hbits with htrue | hdropped
      · exact .inl ((htrue p).mpr ⟨n, b, hn, hb, hp⟩)
      · exact .inr (and_eq_left_iff.mp (hpresent hdropped n b hn hb) p hp)
    · rw [hresult, Bool.or_eq_false_iff]
      refine ⟨Bool.eq_false_iff.mpr fun hon => ?_,
        and_eq_zero_iff.mp (hcleared n b hn hb) p hp⟩
      obtain ⟨n', b', hn', hb', hp'⟩ := howner p hon
      have hne : n ≠ n' := by
        rintro rfl
        exact not_sets_both hoptions hn' hn
      have hoff := and_eq_zero_iff.mp (hdisjoint n n' b b' hne hb hb') p hp
      rw [hp'] at hoff
      cases hoff
    · have hoff : bits.getLsbD p = false := by
        refine Bool.eq_false_iff.mpr fun hon => ?_
        obtain ⟨n, b, hn, hb, hp⟩ := howner p hon
        rw [hfree n b true hn hb] at hp
        cases hp
      rw [hresult, hoff, Bool.false_or]

end Used

/-! ## Results -/

/-- `flags` does what the options say exactly where what it leaves out makes no
difference: options that are set to false are not set already, those that are
dropped are, and strict mode meets none that is set to false. -/
theorem exists_applied_iff (order : Order Key) (masks : Masks) (arg : Arg)
    (cur : Option Bits) (strict : Bool) (cache : Cache) (hdisjoint : DisjointMasks masks)
    (hoptions : arg.IsOptions) (hcache : Reached masks cache)
    (hknown : strict = true → Known masks arg) :
    (∃ r, (flags order masks arg cur strict cache).1 = .ok r ∧
        Applied masks arg (cur.getD 0) r) ↔
      Settles masks arg (cur.getD 0) strict cache := by
  rcases flags_cases hoptions hcache hknown order cur with
    ⟨hstrict, hfresh, ⟨n, hn⟩, e, hrun⟩ | ⟨bits, hrun, hzero, hbits, henabled⟩
  · constructor
    · rintro ⟨r, hr, -⟩
      cases hr.symm.trans hrun
    · intro h
      exact absurd hn (h.enabled hstrict hfresh n)
  · have happlied := applied_setbits_iff cur hdisjoint hoptions hzero hbits
    constructor
    · rintro ⟨r, hr, hall⟩
      obtain rfl := Except.ok.inj (hrun.symm.trans hr)
      obtain ⟨hcleared, hpresent⟩ := happlied.mp hall
      exact ⟨henabled, hcleared, hpresent⟩
    · rintro ⟨-, hcleared, hpresent⟩
      exact ⟨_, hrun, happlied.mpr ⟨hcleared, hpresent⟩⟩

/-- `{a = 1, b = 2}` -/
def masksAB : Masks := fun n =>
  if n = lit "a" then some 1 else if n = lit "b" then some 2 else none

theorem disjoint_masksAB : DisjointMasks masksAB := by
  intro n n' b b' hne hb hb'
  unfold masksAB at hb hb'
  split_ifs at hb hb' <;> simp_all
  · rw [← hb, ← hb']
    decide
  · rw [← hb, ← hb']
    decide

/-- `{a = v}` -/
def onlyA (v : Bool) : Table Key Value := Table.empty.set (.name (lit "a")) (.bool v)

theorem get_onlyA_iff {v : Bool} {k : Key} {w : Value} :
    (onlyA v).get k = some w ↔ k = .name (lit "a") ∧ w = .bool v := by
  by_cases hk : k = .name (lit "a")
  · subst hk
    simp [onlyA, eq_comm]
  · simp [onlyA, get_set_of_ne hk, hk]

theorem byName_onlyA (v : Bool) : ByName (onlyA v) := by
  intro k w h
  obtain ⟨hk, hw⟩ := get_onlyA_iff.mp h
  exact ⟨_, _, hk, hw⟩

theorem sets_onlyA_iff {v b : Bool} {n : Bytes} :
    (Arg.table (onlyA v)).Sets n b ↔ n = lit "a" ∧ b = v := by
  simp [Arg.Sets, get_onlyA_iff]

/-- `{a = true}` over a bit that no name has. -/
theorem onlyA_applied :
    ∃ r, (flags ⟨id, fun _ => .rfl⟩ masksAB (.table (onlyA true)) (some 4) false
        fun _ => none).1 = .ok r ∧ Applied masksAB (.table (onlyA true)) 4 r := by
  refine (exists_applied_iff _ _ (.table (onlyA true)) _ _ _ disjoint_masksAB
    (Or.inl (byName_onlyA true)) .empty (by simp)).mpr
    ⟨by simp, fun n b hn => ?_, by simp [Arg.Dropped]⟩
  cases (sets_onlyA_iff.mp hn).2

/-- An option that is set to false is not cleared. -/
theorem not_applied :
    ¬ ∀ (order : Order Key) (masks : Masks) (arg : Arg) (cur : Option Bits) (strict : Bool)
      (cache : Cache), DisjointMasks masks → arg.IsOptions → Reached masks cache →
      (strict = true → Known masks arg) →
      ∃ r, (flags order masks arg cur strict cache).1 = .ok r ∧
        Applied masks arg (cur.getD 0) r := by
  intro hclaim
  obtain ⟨r, hr, happlied⟩ := hclaim ⟨id, fun _ => .rfl⟩ masksAB (.table (onlyA false))
    (some 3) false (fun _ => none) disjoint_masksAB (Or.inl (byName_onlyA false)) .empty (by simp)
  have hrun : (flags ⟨id, fun _ => .rfl⟩ masksAB (.table (onlyA false)) (some 3) false
      fun _ => none).1 = .ok 3 := by decide
  obtain rfl := Except.ok.inj (hrun.symm.trans hr)
  have hcleared := happlied.clear (lit "a") 1 0 (sets_onlyA_iff.mpr ⟨rfl, rfl⟩) rfl rfl
  cases hcleared

end LuaAttic.Luaize
