import LuaAttic.Luaize.Flags

/-!
# Bit masks with fields (`luaize.lua`)

A field is a flag with one mask, or a choice with a mask for each of its values.
The masks are numbers, and a number that is compared with the result of a bit
operation is compared with a signed word.
-/

namespace LuaAttic.Luaize

open LuaAttic.Lua LuaAttic.Support

/-! ## Fields -/

/-- What a field is set to: the name of a choice, or a boolean. -/
inductive Choice
  | bool (b : Bool)
  | name (s : Bytes)
  deriving DecidableEq

/-- `mask | choicemask` -/
inductive FieldMask
  | single (mask : ℤ)
  | choice (choices : Table Choice ℤ)

/-- `bitmask(fields)` -/
structure Bitmask where
  fields : Table Bytes FieldMask

/-- The word for a number. -/
def bitsOf (n : ℤ) : Bits := BitVec.ofInt 32 n

section Class

variable (order : Order Bytes) (choiceOrder : Order Choice)

/-- `compute_mask(mask)` for a choice mask. -/
def choicesMask (choices : Table Choice ℤ) : Bits :=
  (choiceOrder.apply choices.keys).foldl
    (fun v c => v ||| ((choices.get c).map bitsOf).getD 0) 0

/-- What a field adds to the mask. -/
def FieldMask.bits : FieldMask → Bits
  | .single mask => bitsOf mask
  | .choice choices => choicesMask choiceOrder choices

/-- `compute_mask()` -/
def Bitmask.computeMask (c : Bitmask) : Bits :=
  (order.apply c.fields.keys).foldl
    (fun v k => v ||| ((c.fields.get k).map (FieldMask.bits choiceOrder)).getD 0) 0

/-- The global function `setbit`, which may be nil. -/
abbrev Setbit := Option (Bits → ℤ → Choice → Bits)

/-- `setbit(over, k, v)` -/
def Bitmask.setbit (c : Bitmask) (setbit : Setbit) (overBits : Bits) (k : Bytes) (v : Choice) :
    Except Error Bits :=
  match c.fields.get k with
  | none => .error .assertionFailed
  | some (.choice choices) =>
      .ok (setbits overBits (choicesMask choiceOrder choices)
        (some (bitsOf ((choices.get v).getD 0))))
  | some (.single mask) =>
      match setbit with
      | some f => .ok (f overBits mask v)
      | none => .error .nilCall

/-- `set(over, t)` -/
def Bitmask.set (c : Bitmask) (setbit : Setbit) (overBits : Bits)
    (t : Option (Bytes → Option Choice)) : Except Error Bits :=
  match t with
  | none => .ok overBits
  | some t =>
      (order.apply c.fields.keys).foldlM
        (fun overBits k =>
          match t k with
          | some v => c.setbit choiceOrder setbit overBits k v
          | none => .ok overBits) overBits

/-- The loop over the choices: the first one that is found, or the default one. -/
def findChoice (choices : Table Choice ℤ) (bits : Bits) :
    List Choice → Option Choice → Option Choice
  | [], default => default
  | c :: cs, default =>
      match choices.get c with
      | some mask =>
          if bits &&& bitsOf mask ≠ 0 then some c
          else findChoice choices bits cs (if mask = 0 then some c else default)
      | none => findChoice choices bits cs default

/-- `getbit(from, k)` -/
def Bitmask.getbit (c : Bitmask) (bits : Bits) (k : Bytes) : Except Error (Option Choice) :=
  match c.fields.get k with
  | none => .error .assertionFailed
  | some (.choice choices) =>
      .ok (findChoice choices bits (choiceOrder.apply choices.keys) none)
  | some (.single mask) => .ok (some (.bool ((bits &&& bitsOf mask).toInt = mask)))

/-- `get(from, into)` -/
def Bitmask.get (c : Bitmask) (bits : Bits) (into : Bytes → Option Choice) :
    Except Error (Bytes → Option Choice) :=
  (order.apply c.fields.keys).foldlM
    (fun t k => do return Function.update t k (← c.getbit choiceOrder bits k)) into

end Class

/-!
## When what is set is got

The function that sets a flag is not defined, and a choice is never set.  What
is set is got again only where nothing had to be set.
-/

/-! ### What is asked for -/

/-- The bits of a field. -/
def FieldMask.Has : FieldMask → ℕ → Prop
  | .single mask, p => (bitsOf mask).getLsbD p = true
  | .choice choices, p => ∃ v n, choices.get v = some n ∧ (bitsOf n).getLsbD p = true

/-- The choices are distinct single bits, and one may be zero. -/
structure IsChoice (choices : Table Choice ℤ) : Prop where
  bit : ∀ v n, choices.get v = some n → n = 0 ∨ ∃ p < 32, bitsOf n = BitVec.twoPow 32 p
  distinct : ∀ v v' n n', choices.get v = some n → choices.get v' = some n' →
    bitsOf n = bitsOf n' → v = v'

/-- The fields have no bits in common. -/
structure Bitmask.IsClass (c : Bitmask) : Prop where
  disjoint : ∀ k k' m m' p, k ≠ k' → c.fields.get k = some m → c.fields.get k' = some m' →
    m.Has p → ¬ m'.Has p
  choice : ∀ k choices, c.fields.get k = some (.choice choices) → IsChoice choices

/-- A value for a field. -/
def FieldMask.IsValue : FieldMask → Choice → Prop
  | .single _, v => ∃ b, v = .bool b
  | .choice choices, v => (choices.get v).isSome

/-- `setbit` sets or clears the bits of a mask. -/
def SetsBit (setbit : Setbit) : Prop :=
  ∀ f ∈ setbit, ∀ overBits mask b, f overBits mask (.bool b) =
    if b then overBits ||| bitsOf mask else overBits &&& ~~~bitsOf mask

section Asked

variable (order : Order Bytes) (choiceOrder : Order Choice) (c : Bitmask)
  (t : Bytes → Option Choice)

/-- The fields that are given have their values, the other ones those they had,
and the bits that no field has are as they were. -/
structure RoundTrip (overBits r : Bits) (old got : Bytes → Option Choice) : Prop where
  given : ∀ k v, (c.fields.get k).isSome → t k = some v → got k = some v
  others : ∀ k, (c.fields.get k).isSome → t k = none → got k = old k
  outside : ∀ p, (c.computeMask order choiceOrder).getLsbD p = false →
    r.getLsbD p = overBits.getLsbD p

/-- A choice has its bit. -/
def hasBit (choices : Table Choice ℤ) (bits : Bits) (v : Choice) : Bool :=
  ((choices.get v).map fun n => decide (bits &&& bitsOf n ≠ 0)).getD false

/-- The value is the first choice that has its bit, or none has and it is the
one without a bit. -/
def Decodes (choices : Table Choice ℤ) (bits : Bits) (v : Choice) : Prop :=
  (choiceOrder.apply choices.keys).find? (hasBit choices bits) = some v ∨
    (∀ w, hasBit choices bits w = false) ∧ choices.get v = some 0

/-- Flags are given only if `setbit` is defined, those that are set have masks
that are signed words, and those that are cleared have bits.  Choices are what
they were. -/
structure Keeps (setbit : Setbit) (overBits : Bits) : Prop where
  defined : ∀ k mask v, c.fields.get k = some (.single mask) → t k = some v → setbit.isSome
  signed : ∀ k mask, c.fields.get k = some (.single mask) → t k = some (.bool true) →
    -2 ^ 31 ≤ mask ∧ mask < 2 ^ 31
  nonzero : ∀ k mask, c.fields.get k = some (.single mask) → t k = some (.bool false) →
    mask ≠ 0
  choice : ∀ k choices v, c.fields.get k = some (.choice choices) → t k = some v →
    Decodes choiceOrder choices overBits v

end Asked

/-! ### Masks -/

section Masks

variable {order : Order Bytes} {choiceOrder : Order Choice} {c : Bitmask}

theorem getLsbD_foldl_or {A : Type} (f : A → Bits) (l : List A) (v : Bits) (p : ℕ) :
    (l.foldl (fun v a => v ||| f a) v).getLsbD p = true ↔
      v.getLsbD p = true ∨ ∃ a ∈ l, (f a).getLsbD p = true := by
  induction l generalizing v with
  | nil => simp
  | cons a l ih => simp [ih, or_assoc]

theorem getLsbD_zero_word (p : ℕ) : (0 : Bits).getLsbD p = false := by simp

theorem getLsbD_bits {m : FieldMask} {p : ℕ} :
    (m.bits choiceOrder).getLsbD p = true ↔ m.Has p := by
  cases m with
  | single mask => exact Iff.rfl
  | choice choices =>
      simp only [FieldMask.bits, choicesMask, getLsbD_foldl_or, getLsbD_zero_word, FieldMask.Has,
        (choiceOrder.perm choices.keys).mem_iff, choices.mem_keys]
      constructor
      · rintro (h | ⟨v, hv, hp⟩)
        · cases h
        · obtain ⟨n, hn⟩ := Option.isSome_iff_exists.mp hv
          exact ⟨v, n, hn, by simpa [hn] using hp⟩
      · rintro ⟨v, n, hn, hp⟩
        exact .inr ⟨v, by simp [hn], by simpa [hn] using hp⟩

theorem getLsbD_computeMask {p : ℕ} :
    (c.computeMask order choiceOrder).getLsbD p = true ↔
      ∃ k m, c.fields.get k = some m ∧ m.Has p := by
  simp only [Bitmask.computeMask, getLsbD_foldl_or, getLsbD_zero_word,
    (order.perm c.fields.keys).mem_iff, c.fields.mem_keys]
  constructor
  · rintro (h | ⟨k, hk, hp⟩)
    · cases h
    · obtain ⟨m, hm⟩ := Option.isSome_iff_exists.mp hk
      exact ⟨k, m, hm, getLsbD_bits.mp (by simpa [hm] using hp)⟩
  · rintro ⟨k, m, hm, hp⟩
    exact .inr ⟨k, by simp [hm], by simpa [hm] using getLsbD_bits.mpr hp⟩

end Masks

/-! ### Getting -/

section Getting

variable {order : Order Bytes} {choiceOrder : Order Choice} {c : Bitmask}

/-- The value of a field. -/
def FieldMask.decode (choiceOrder : Order Choice) (bits : Bits) : FieldMask → Option Choice
  | .single mask => some (.bool ((bits &&& bitsOf mask).toInt = mask))
  | .choice choices => findChoice choices bits (choiceOrder.apply choices.keys) none

/-- All fields are read. -/
theorem get_eq (order : Order Bytes) (choiceOrder : Order Choice) (c : Bitmask) (bits : Bits)
    (into : Bytes → Option Choice) :
    c.get order choiceOrder bits into = .ok fun k =>
      match c.fields.get k with
      | some m => m.decode choiceOrder bits
      | none => into k := by
  have hloop : ∀ (ks : List Bytes) (into : Bytes → Option Choice),
      (∀ k ∈ ks, (c.fields.get k).isSome) →
      ks.foldlM (fun t k => do return Function.update t k (← c.getbit choiceOrder bits k)) into =
        (.ok fun k =>
          if k ∈ ks then (c.fields.get k).bind (·.decode choiceOrder bits) else into k :
            Except Error (Bytes → Option Choice)) := by
    intro ks
    induction ks with
    | nil =>
        intro into _
        simp
        rfl
    | cons k ks ih =>
        intro into hks
        obtain ⟨m, hm⟩ := Option.isSome_iff_exists.mp (hks k List.mem_cons_self)
        have hget : c.getbit choiceOrder bits k = .ok (m.decode choiceOrder bits) := by
          cases m <;> simp [Bitmask.getbit, hm, FieldMask.decode]
        rw [List.foldlM_cons, hget]
        refine (ih _ fun k' hk' => hks k' (List.mem_cons_of_mem k hk')).trans ?_
        congr 1
        funext k'
        by_cases hk' : k' = k
        · subst hk'
          simp [hm]
        · simp [hk']
  rw [Bitmask.get, hloop]
  · congr 1
    funext k
    have hmem : k ∈ order.apply c.fields.keys ↔ (c.fields.get k).isSome := by
      rw [(order.perm c.fields.keys).mem_iff, c.fields.mem_keys]
    cases hk : c.fields.get k <;> simp [hmem, hk]
  · intro k hk
    rwa [(order.perm c.fields.keys).mem_iff, c.fields.mem_keys] at hk

theorem and_bitsOf_congr {bits bits' : Bits} {n : ℤ}
    (h : ∀ p, (bitsOf n).getLsbD p = true → bits.getLsbD p = bits'.getLsbD p) :
    bits &&& bitsOf n = bits' &&& bitsOf n := by
  refine BitVec.eq_of_getLsbD_eq fun p _ => ?_
  rw [BitVec.getLsbD_and, BitVec.getLsbD_and]
  cases hp : (bitsOf n).getLsbD p with
  | false => simp
  | true => rw [h p hp]

/-- A field is read from its own bits. -/
theorem decode_congr {bits bits' : Bits} {m : FieldMask}
    (h : ∀ p, m.Has p → bits.getLsbD p = bits'.getLsbD p) :
    m.decode choiceOrder bits = m.decode choiceOrder bits' := by
  cases m with
  | single mask => rw [FieldMask.decode, FieldMask.decode, and_bitsOf_congr h]
  | choice choices =>
      rw [FieldMask.decode, FieldMask.decode]
      generalize choiceOrder.apply choices.keys = cs
      generalize (none : Option Choice) = default
      induction cs generalizing default with
      | nil => rfl
      | cons v cs ih =>
          cases hv : choices.get v with
          | none => simp only [findChoice, hv, ih]
          | some n =>
              have hn : bits &&& bitsOf n = bits' &&& bitsOf n :=
                and_bitsOf_congr fun p hp => h p ⟨v, n, hv, hp⟩
              simp only [findChoice, hv, hn, ih]

/-- The first choice that has its bit, or else the last one without a bit. -/
theorem findChoice_eq (choices : Table Choice ℤ) (bits : Bits) (cs : List Choice)
    (default : Option Choice) :
    findChoice choices bits cs default =
      (cs.find? (hasBit choices bits)).or
        ((cs.reverse.find? fun v => choices.get v = some 0).or default) := by
  induction cs generalizing default with
  | nil => rfl
  | cons v cs ih =>
      simp only [findChoice, List.find?_cons, List.reverse_cons, List.find?_append, ih,
        List.find?_nil]
      cases hv : choices.get v with
      | none =>
          have hbit : hasBit choices bits v = false := by simp [hasBit, hv]
          simp [hbit]
      | some n =>
          have hbit : hasBit choices bits v = decide (bits &&& bitsOf n ≠ 0) := by
            simp only [hasBit, hv, Option.map_some, Option.getD_some]
          by_cases hset : bits &&& bitsOf n ≠ 0
          · simp only [hbit, if_pos hset, decide_eq_true hset, Option.some_or]
          · simp only [hbit, if_neg hset, decide_eq_false hset]
            by_cases hn : n = 0 <;> simp [hn]

theorem decode_choice_iff {choices : Table Choice ℤ} {bits : Bits} {v : Choice}
    (hchoices : IsChoice choices) :
    (FieldMask.choice choices).decode choiceOrder bits = some v ↔
      Decodes choiceOrder choices bits v := by
  have hmem : ∀ w, w ∈ choiceOrder.apply choices.keys ↔ (choices.get w).isSome := fun w => by
    rw [(choiceOrder.perm choices.keys).mem_iff, choices.mem_keys]
  rw [FieldMask.decode, findChoice_eq, Decodes]
  cases hfind : (choiceOrder.apply choices.keys).find? (hasBit choices bits) with
  | some w =>
      have hw := List.find?_some hfind
      constructor
      · exact fun h => .inl h
      · rintro (h | ⟨hnone, -⟩)
        · exact h
        · rw [hnone w] at hw
          cases hw
  | none =>
      have hnone : ∀ w, hasBit choices bits w = false := by
        intro w
        cases hw : choices.get w with
        | none => simp [hasBit, hw]
        | some n =>
            have hin := (hmem w).mpr (by simp [hw])
            exact Bool.eq_false_iff.mpr (List.find?_eq_none.mp hfind w hin)
      rw [Option.none_or, Option.or_none]
      constructor
      · intro h
        have hv := List.find?_some h
        exact .inr ⟨hnone, of_decide_eq_true hv⟩
      · rintro (h | ⟨-, hv⟩)
        · cases h
        · have hin := List.mem_reverse.mpr ((hmem v).mpr (by simp [hv]))
          cases hlast : (choiceOrder.apply choices.keys).reverse.find?
              fun w => choices.get w = some 0 with
          | none =>
              have hnot := List.find?_eq_none.mp hlast v hin
              exact absurd (decide_eq_true hv) hnot
          | some w =>
              have hw : choices.get w = some 0 := by simpa using List.find?_some hlast
              rw [hchoices.distinct w v 0 0 hw hv rfl]

theorem decode_set_iff {bits : Bits} {mask : ℤ}
    (h : ∀ p, (bitsOf mask).getLsbD p = true → bits.getLsbD p = true) :
    (FieldMask.single mask).decode choiceOrder bits = some (.bool true) ↔
      -2 ^ 31 ≤ mask ∧ mask < 2 ^ 31 := by
  have hbits : bits &&& bitsOf mask = bitsOf mask := by
    rw [BitVec.and_comm]
    exact and_eq_left_iff.mpr h
  have hword : (bitsOf mask).toInt = mask ↔ -2 ^ 31 ≤ mask ∧ mask < 2 ^ 31 := by
    rw [bitsOf, BitVec.toInt_ofInt, Int.bmod_def]
    omega
  simp [FieldMask.decode, hbits, hword]

theorem decode_clear_iff {bits : Bits} {mask : ℤ}
    (h : ∀ p, (bitsOf mask).getLsbD p = true → bits.getLsbD p = false) :
    (FieldMask.single mask).decode choiceOrder bits = some (.bool false) ↔ mask ≠ 0 := by
  have hbits : bits &&& bitsOf mask = 0 := by
    rw [BitVec.and_comm]
    exact and_eq_zero_iff.mpr h
  simp [FieldMask.decode, hbits, eq_comm]

end Getting

/-! ### Setting -/

section Setting

variable {choiceOrder : Order Choice} {c : Bitmask} {setbit : Setbit}
  {t : Bytes → Option Choice} {k : Bytes} {overBits : Bits}

/-- Only values for the fields are given. -/
def Bitmask.TakesValues (c : Bitmask) (t : Bytes → Option Choice) : Prop :=
  ∀ k m v, c.fields.get k = some m → t k = some v → m.IsValue v

/-- A flag is given. -/
def Bitmask.Puts (c : Bitmask) (t : Bytes → Option Choice) (k : Bytes) (mask : ℤ) (b : Bool) :
    Prop :=
  c.fields.get k = some (.single mask) ∧ t k = some (.bool b)

/-- A bit is given a value by one field only. -/
theorem Bitmask.Puts.value_unique (hclass : c.IsClass) {k' : Bytes} {mask mask' : ℤ}
    {b b' : Bool} {p : ℕ} (h : c.Puts t k mask b) (h' : c.Puts t k' mask' b')
    (hp : (bitsOf mask).getLsbD p = true) (hp' : (bitsOf mask').getLsbD p = true) :
    b = b' := by
  by_cases hk : k = k'
  · subst hk
    have hvalue := h.2.symm.trans h'.2
    simpa using hvalue
  · exact absurd hp' (hclass.disjoint k k' _ _ p hk h.1 h'.1 hp)

/-- One field, in the loop of `set`. -/
def Bitmask.put (c : Bitmask) (choiceOrder : Order Choice) (setbit : Setbit)
    (t : Bytes → Option Choice) (overBits : Bits) (k : Bytes) : Except Error Bits :=
  match t k with
  | some v => c.setbit choiceOrder setbit overBits k v
  | none => .ok overBits

/-- The arguments for a choice do not match: its bits are taken out of the mask
that is to be set. -/
theorem setbits_choice (choices : Table Choice ℤ) (v : Choice) :
    setbits overBits (choicesMask choiceOrder choices)
      (some (bitsOf ((choices.get v).getD 0))) = overBits := by
  have hout : bitsOf ((choices.get v).getD 0) &&& ~~~choicesMask choiceOrder choices = 0 := by
    refine and_eq_zero_iff.mpr fun p hp => ?_
    cases hv : choices.get v with
    | none => simp [hv, bitsOf] at hp
    | some n =>
        have hmask : (choicesMask choiceOrder choices).getLsbD p = true :=
          getLsbD_bits.mpr (show (FieldMask.choice choices).Has p from
            ⟨v, n, hv, by simpa [hv] using hp⟩)
        simp [hmask]
  rw [setbits, hout]
  simp

/-- A flag that is given is set if `setbit` is defined; all else changes nothing. -/
theorem put_cases (hsetbit : SetsBit setbit) (ht : c.TakesValues t)
    (hk : (c.fields.get k).isSome) :
    (∃ mask b, c.Puts t k mask b ∧ setbit = none ∧
      c.put choiceOrder setbit t overBits k = .error .nilCall) ∨
    (∃ mask b over', c.Puts t k mask b ∧ setbit.isSome ∧
      c.put choiceOrder setbit t overBits k = .ok over' ∧
      ∀ p, over'.getLsbD p = if (bitsOf mask).getLsbD p = true then b else overBits.getLsbD p) ∨
    (∀ mask b, ¬ c.Puts t k mask b) ∧ c.put choiceOrder setbit t overBits k = .ok overBits := by
  obtain ⟨m, hm⟩ := Option.isSome_iff_exists.mp hk
  cases hv : t k with
  | none =>
      refine .inr (.inr ⟨fun mask b h => ?_, by simp [Bitmask.put, hv]⟩)
      have hnone := hv.symm.trans h.2
      cases hnone
  | some v =>
      cases m with
      | choice choices =>
          refine .inr (.inr ⟨fun mask b h => ?_, ?_⟩)
          · have hmask := hm.symm.trans h.1
            simp at hmask
          · simp [Bitmask.put, hv, Bitmask.setbit, hm, setbits_choice]
      | single mask =>
          obtain ⟨b, rfl⟩ := ht k _ v hm hv
          cases hf : setbit with
          | none =>
              exact .inl ⟨mask, b, ⟨hm, hv⟩, rfl, by simp [Bitmask.put, hv, Bitmask.setbit, hm]⟩
          | some f =>
              refine .inr (.inl ⟨mask, b, f overBits mask (.bool b), ⟨hm, hv⟩, rfl,
                by simp [Bitmask.put, hv, Bitmask.setbit, hm], fun p => ?_⟩)
              rw [hsetbit f hf overBits mask b]
              cases b with
              | true => cases hp : (bitsOf mask).getLsbD p <;> simp [hp]
              | false =>
                  by_cases hlt : p < 32
                  · cases hp : (bitsOf mask).getLsbD p <;>
                      simp only [Bool.false_eq_true, if_false, if_true, BitVec.getLsbD_and,
                        BitVec.getLsbD_not, hp, hlt, decide_true, Bool.not_true, Bool.not_false,
                        Bool.and_true, Bool.and_false]
                  · have hge := Nat.le_of_not_lt hlt
                    simp [BitVec.getLsbD_of_ge _ p hge]

/-- What a run over fields leaves. -/
theorem foldlM_put (choiceOrder : Order Choice) (hclass : c.IsClass)
    (hsetbit : SetsBit setbit) (ht : c.TakesValues t)
    (ks : List Bytes) (hks : ∀ k ∈ ks, (c.fields.get k).isSome) (overBits : Bits)
    (hdefined : ∀ k ∈ ks, ∀ mask b, c.Puts t k mask b → setbit.isSome) :
    ∃ r, ks.foldlM (c.put choiceOrder setbit t) overBits = .ok r ∧
      (∀ k ∈ ks, ∀ mask b p, c.Puts t k mask b → (bitsOf mask).getLsbD p = true →
        r.getLsbD p = b) ∧
      ∀ p, (∀ k ∈ ks, ∀ mask b, c.Puts t k mask b → (bitsOf mask).getLsbD p = false) →
        r.getLsbD p = overBits.getLsbD p := by
  induction ks generalizing overBits with
  | nil => exact ⟨overBits, rfl, by simp, fun _ _ => rfl⟩
  | cons k ks ih =>
      have hrest := fun over' => ih (fun k' hk' => hks k' (List.mem_cons_of_mem k hk')) over'
        fun k' hk' => hdefined k' (List.mem_cons_of_mem k hk')
      rcases put_cases hsetbit ht (hks k List.mem_cons_self) with
        ⟨mask, b, hput, hnone, -⟩ | ⟨mask, b, over', hput, -, hstep, hover⟩ | ⟨hnot, hstep⟩
      · have hsome := hdefined k List.mem_cons_self mask b hput
        rw [hnone] at hsome
        cases hsome
      · obtain ⟨r, hrun, hset, hkept⟩ := hrest over'
        refine ⟨r, by rw [List.foldlM_cons, hstep]; exact hrun, fun k' hk' => ?_, fun p hp => ?_⟩
        · intro mask' b' p hput' hp
          by_cases hlater : ∃ k' ∈ ks, ∃ mask b, c.Puts t k' mask b ∧
              (bitsOf mask).getLsbD p = true
          · obtain ⟨k₁, hk₁, mask₁, b₁, hput₁, hp₁⟩ := hlater
            rw [hput'.value_unique hclass hput₁ hp hp₁]
            exact hset k₁ hk₁ mask₁ b₁ p hput₁ hp₁
          · push Not at hlater
            have hin : k' = k := by
              rcases List.mem_cons.mp hk' with rfl | hin
              · rfl
              · exact absurd hp (hlater k' hin mask' b' hput')
            subst hin
            have hmask : mask' = mask := by simpa using hput'.1.symm.trans hput.1
            subst hmask
            rw [hkept p fun k₁ hk₁ mask₁ b₁ hput₁ =>
              Bool.eq_false_iff.mpr (hlater k₁ hk₁ mask₁ b₁ hput₁), hover, if_pos hp]
            exact hput.value_unique hclass hput' hp hp
        · have hoff := hp k List.mem_cons_self mask b hput
          rw [hkept p fun k' hk' => hp k' (List.mem_cons_of_mem k hk'), hover, hoff]
          rfl
      · obtain ⟨r, hrun, hset, hkept⟩ := hrest overBits
        refine ⟨r, by rw [List.foldlM_cons, hstep]; exact hrun, fun k' hk' mask b p hput => ?_,
          fun p hp => hkept p fun k' hk' => hp k' (List.mem_cons_of_mem k hk')⟩
        rcases List.mem_cons.mp hk' with rfl | hin
        · exact absurd hput (hnot mask b)
        · exact hset k' hin mask b p hput

/-- A run that ends has called `setbit` for each flag that is given. -/
theorem defined_of_foldlM (hsetbit : SetsBit setbit) (ht : c.TakesValues t) {ks : List Bytes}
    (hks : ∀ k ∈ ks, (c.fields.get k).isSome) {r : Bits}
    (h : ks.foldlM (c.put choiceOrder setbit t) overBits = .ok r) :
    ∀ k ∈ ks, ∀ mask b, c.Puts t k mask b → setbit.isSome := by
  induction ks generalizing overBits with
  | nil => simp
  | cons k ks ih =>
      rw [List.foldlM_cons] at h
      obtain ⟨over', hstep, hrest⟩ := bind_eq_ok_iff.mp h
      rw [List.forall_mem_cons]
      refine ⟨fun mask b hput => ?_, ih (fun k' hk' => hks k' (List.mem_cons_of_mem k hk')) hrest⟩
      rcases put_cases hsetbit ht (hks k List.mem_cons_self) with
        ⟨_, _, -, -, herror⟩ | ⟨_, _, _, -, hsome, -⟩ | ⟨hnot, -⟩
      · cases herror.symm.trans hstep
      · exact hsome
      · exact absurd hput (hnot mask b)

theorem mem_fields {order : Order Bytes} :
    k ∈ order.apply c.fields.keys ↔ (c.fields.get k).isSome := by
  rw [(order.perm c.fields.keys).mem_iff, c.fields.mem_keys]

theorem Bitmask.Puts.mem {order : Order Bytes} {mask : ℤ} {b : Bool} (h : c.Puts t k mask b) :
    k ∈ order.apply c.fields.keys :=
  mem_fields.mpr (by simp [h.1])

/-- `set` sets the flags that are given, and nothing else. -/
theorem set_eq (order : Order Bytes) (choiceOrder : Order Choice) (hclass : c.IsClass)
    (hsetbit : SetsBit setbit) (ht : c.TakesValues t) (overBits : Bits)
    (hdefined : ∀ k mask b, c.Puts t k mask b → setbit.isSome) :
    ∃ r, c.set order choiceOrder setbit overBits (some t) = .ok r ∧
      (∀ k mask b p, c.Puts t k mask b → (bitsOf mask).getLsbD p = true → r.getLsbD p = b) ∧
      (∀ k m, c.fields.get k = some m → (∀ mask b, ¬ c.Puts t k mask b) →
        ∀ p, m.Has p → r.getLsbD p = overBits.getLsbD p) ∧
      ∀ p, (c.computeMask order choiceOrder).getLsbD p = false →
        r.getLsbD p = overBits.getLsbD p := by
  obtain ⟨r, hrun, hset, hkept⟩ := foldlM_put choiceOrder hclass hsetbit ht
    (order.apply c.fields.keys) (fun k hk => mem_fields.mp hk) overBits
    fun k _ mask b => hdefined k mask b
  refine ⟨r, hrun, fun k mask b p hput => hset k hput.mem mask b p hput, ?_, ?_⟩
  · intro k m hm hnot p hp
    refine hkept p fun k' _ mask b hput => Bool.eq_false_iff.mpr ?_
    have hne : k ≠ k' := by
      rintro rfl
      exact hnot mask b hput
    exact hclass.disjoint k k' m _ p hne hm hput.1 hp
  · intro p hp
    refine hkept p fun k _ mask b hput => Bool.eq_false_iff.mpr fun hmask => ?_
    rw [getLsbD_computeMask.mpr ⟨k, _, hput.1, hmask⟩] at hp
    cases hp

end Setting

/-! ### Results -/

/-- What is set is got again exactly where `set` has nothing to do for choices,
and flags are given only if there is a function that sets them, with masks that
can be compared. -/
theorem exists_roundTrip_iff (order : Order Bytes) (choiceOrder : Order Choice) (c : Bitmask)
    (setbit : Setbit) (overBits : Bits) (t : Bytes → Option Choice) (hclass : c.IsClass)
    (hsetbit : SetsBit setbit) (ht : c.TakesValues t) :
    (∃ r old got, c.set order choiceOrder setbit overBits (some t) = .ok r ∧
        c.get order choiceOrder overBits (fun _ => none) = .ok old ∧
        c.get order choiceOrder r (fun _ => none) = .ok got ∧
        RoundTrip order choiceOrder c t overBits r old got) ↔
      Keeps choiceOrder c t setbit overBits := by
  have hget := get_eq order choiceOrder c
  have hgot : ∀ {r got}, c.get order choiceOrder r (fun _ => none) = .ok got →
      ∀ k m, c.fields.get k = some m → got k = m.decode choiceOrder r := by
    intro r got h k m hm
    rw [← Except.ok.inj ((hget r _).symm.trans h)]
    simp only [hm]
  constructor
  · rintro ⟨r, old, got, hrun, -, hread, hgiven, -, -⟩
    have hdefined : ∀ k mask b, c.Puts t k mask b → setbit.isSome :=
      fun k mask b hput => defined_of_foldlM hsetbit ht (fun k hk => mem_fields.mp hk) hrun
        k hput.mem mask b hput
    obtain ⟨r', hrun', hset, hkept, -⟩ :=
      set_eq order choiceOrder hclass hsetbit ht overBits hdefined
    obtain rfl := Except.ok.inj (hrun'.symm.trans hrun)
    have hvalue : ∀ k m v, c.fields.get k = some m → t k = some v →
        m.decode choiceOrder r' = some v := fun k m v hm hv =>
      (hgot hread k m hm).symm.trans (hgiven k v (by simp [hm]) hv)
    refine ⟨fun k mask v hm hv => ?_, fun k mask hm hv => ?_, fun k mask hm hv => ?_,
      fun k choices v hm hv => ?_⟩
    · obtain ⟨b, rfl⟩ := ht k _ v hm hv
      exact hdefined k mask b ⟨hm, hv⟩
    · exact (decode_set_iff fun p => hset k mask true p ⟨hm, hv⟩).mp (hvalue k _ _ hm hv)
    · exact (decode_clear_iff fun p => hset k mask false p ⟨hm, hv⟩).mp (hvalue k _ _ hm hv)
    · have hsame := hkept k _ hm fun mask b hput => by simpa using hm.symm.trans hput.1
      rw [← decode_choice_iff (hclass.choice k choices hm), ← decode_congr hsame]
      exact hvalue k _ v hm hv
  · intro h
    obtain ⟨r, hrun, hset, hkept, houtside⟩ :=
      set_eq order choiceOrder hclass hsetbit ht overBits
        fun k mask b hput => h.defined k mask _ hput.1 hput.2
    refine ⟨r, _, _, hrun, hget overBits _, hget r _, fun k v hk hv => ?_, fun k hk hv => ?_,
      houtside⟩
    · obtain ⟨m, hm⟩ := Option.isSome_iff_exists.mp hk
      simp only [hm]
      cases m with
      | single mask =>
          obtain ⟨b, rfl⟩ := ht k _ v hm hv
          have hbits : ∀ p, (bitsOf mask).getLsbD p = true → r.getLsbD p = b :=
            fun p => hset k mask b p ⟨hm, hv⟩
          cases b with
          | true => exact (decode_set_iff hbits).mpr (h.signed k mask hm hv)
          | false => exact (decode_clear_iff hbits).mpr (h.nonzero k mask hm hv)
      | choice choices =>
          have hsame := hkept k _ hm fun mask b hput => by simpa using hm.symm.trans hput.1
          rw [decode_congr hsame, decode_choice_iff (hclass.choice k choices hm)]
          exact h.choice k choices v hm hv
    · obtain ⟨m, hm⟩ := Option.isSome_iff_exists.mp hk
      simp only [hm]
      exact decode_congr (hkept k m hm fun mask b hput => by simpa using hv.symm.trans hput.2)

/-- `{on = 1}` -/
def onlyOn : Bitmask where
  fields := Table.empty.set (lit "on") (.single 1)

/-- `{on = b}` -/
def putOn (b : Bool) : Bytes → Option Choice :=
  fun k => if k = lit "on" then some (.bool b) else none

/-- What `setbit` is called for. -/
def simpleSetbit (overBits : Bits) (mask : ℤ) (v : Choice) : Bits :=
  if v = .bool true then overBits ||| bitsOf mask else overBits &&& ~~~bitsOf mask

theorem get_onlyOn_iff {k : Bytes} {m : FieldMask} :
    onlyOn.fields.get k = some m ↔ k = lit "on" ∧ m = .single 1 := by
  by_cases hk : k = lit "on"
  · subst hk
    simp [onlyOn, eq_comm]
  · simp [onlyOn, get_set_of_ne hk, hk]

theorem isClass_onlyOn : onlyOn.IsClass where
  disjoint k k' m m' p hne hk hk' := by
    rw [get_onlyOn_iff] at hk hk'
    exact absurd (hk.1.trans hk'.1.symm) hne
  choice k choices hk := by
    rw [get_onlyOn_iff] at hk
    cases hk.2

theorem takesValues_putOn (b : Bool) : onlyOn.TakesValues (putOn b) := by
  intro k m v hk hv
  obtain ⟨rfl, rfl⟩ := get_onlyOn_iff.mp hk
  exact ⟨b, by simpa [putOn, eq_comm] using hv⟩

theorem setsBit_simpleSetbit : SetsBit (some simpleSetbit) := by
  intro f hf overBits mask b
  obtain rfl := Option.some.inj hf
  cases b <;> simp [simpleSetbit]

/-- A flag that is set, with a function `setbit`. -/
theorem putOn_roundTrip :
    ∃ r old got, onlyOn.set ⟨id, fun _ => .rfl⟩ ⟨id, fun _ => .rfl⟩ (some simpleSetbit) 6
        (some (putOn true)) = .ok r ∧
      onlyOn.get ⟨id, fun _ => .rfl⟩ ⟨id, fun _ => .rfl⟩ 6 (fun _ => none) = .ok old ∧
      onlyOn.get ⟨id, fun _ => .rfl⟩ ⟨id, fun _ => .rfl⟩ r (fun _ => none) = .ok got ∧
      RoundTrip ⟨id, fun _ => .rfl⟩ ⟨id, fun _ => .rfl⟩ onlyOn (putOn true) 6 r old got := by
  refine (exists_roundTrip_iff _ _ _ _ _ _ isClass_onlyOn setsBit_simpleSetbit
    (takesValues_putOn true)).mpr ⟨fun _ _ _ _ _ => rfl, fun k mask hk _ => ?_,
      fun k mask hk hv => ?_, fun k choices v hk _ => ?_⟩
  · obtain ⟨-, hmask⟩ := get_onlyOn_iff.mp hk
    cases hmask
    decide
  · obtain ⟨rfl, -⟩ := get_onlyOn_iff.mp hk
    simp [putOn] at hv
  · obtain ⟨-, hchoice⟩ := get_onlyOn_iff.mp hk
    cases hchoice

/-- `{size = {small = 1, large = 2}}` -/
def onlySize : Bitmask where
  fields := Table.empty.set (lit "size")
    (.choice ((Table.empty.set (.name (lit "small")) 1).set (.name (lit "large")) 2))

/-- `{size = 'large'}` -/
def putLarge : Bytes → Option Choice :=
  fun k => if k = lit "size" then some (.name (lit "large")) else none

theorem get_sizes_iff {v : Choice} {n : ℤ} :
    ((Table.empty.set (.name (lit "small")) (1 : ℤ)).set (.name (lit "large")) 2).get v = some n ↔
      v = .name (lit "small") ∧ n = 1 ∨ v = .name (lit "large") ∧ n = 2 := by
  by_cases hlarge : v = .name (lit "large")
  · subst hlarge
    have hne : lit "large" ≠ lit "small" := by decide
    simp [hne, eq_comm]
  · by_cases hsmall : v = .name (lit "small")
    · subst hsmall
      rw [get_set_of_ne hlarge, get_set_self]
      simp [hlarge, eq_comm]
    · rw [get_set_of_ne hlarge, get_set_of_ne hsmall]
      simp [hlarge, hsmall]

theorem isClass_onlySize : onlySize.IsClass where
  disjoint k k' m m' p hne hk hk' := by
    have hkey : ∀ k m, onlySize.fields.get k = some m → k = lit "size" := by
      intro k m h
      by_contra hk
      simp [onlySize, get_set_of_ne hk] at h
    exact absurd ((hkey k m hk).trans (hkey k' m' hk').symm) hne
  choice k choices hk := by
    by_cases hkey : k = lit "size"
    · subst hkey
      rw [onlySize, get_set_self, Option.some.injEq, FieldMask.choice.injEq] at hk
      subst hk
      refine ⟨fun v n hv => .inr ?_, fun v v' n n' hv hv' h => ?_⟩
      · rcases get_sizes_iff.mp hv with ⟨-, rfl⟩ | ⟨-, rfl⟩
        · exact ⟨0, by decide, rfl⟩
        · exact ⟨1, by decide, rfl⟩
      · rcases get_sizes_iff.mp hv with ⟨rfl, rfl⟩ | ⟨rfl, rfl⟩ <;>
          rcases get_sizes_iff.mp hv' with ⟨rfl, rfl⟩ | ⟨rfl, rfl⟩
        · rfl
        · exact absurd h (by decide)
        · exact absurd h (by decide)
        · rfl
    · simp [onlySize, get_set_of_ne hkey] at hk

/-- A choice stays what it was. -/
theorem not_roundTrip :
    ¬ ∀ (order : Order Bytes) (choiceOrder : Order Choice) (c : Bitmask) (setbit : Setbit)
      (overBits : Bits) (t : Bytes → Option Choice), c.IsClass → SetsBit setbit →
      c.TakesValues t →
      ∃ r old got, c.set order choiceOrder setbit overBits (some t) = .ok r ∧
        c.get order choiceOrder overBits (fun _ => none) = .ok old ∧
        c.get order choiceOrder r (fun _ => none) = .ok got ∧
        RoundTrip order choiceOrder c t overBits r old got := by
  intro hclaim
  have htakes : onlySize.TakesValues putLarge := by
    intro k m v hk hv
    by_cases hkey : k = lit "size"
    · subst hkey
      rw [onlySize, get_set_self] at hk
      obtain rfl := Option.some.inj hk
      have hvalue : v = .name (lit "large") := by simpa [putLarge, eq_comm] using hv
      rw [FieldMask.IsValue, hvalue, get_set_self]
      rfl
    · simp [putLarge, hkey] at hv
  obtain ⟨r, old, got, hrun, -, hgot, hgiven, -⟩ := hclaim ⟨id, fun _ => .rfl⟩
    ⟨id, fun _ => .rfl⟩ onlySize (some simpleSetbit) 1 putLarge isClass_onlySize
    setsBit_simpleSetbit htakes
  have hset : onlySize.set ⟨id, fun _ => .rfl⟩ ⟨id, fun _ => .rfl⟩ (some simpleSetbit) 1
      (some putLarge) = .ok 1 := by decide
  have hget : (onlySize.get ⟨id, fun _ => .rfl⟩ ⟨id, fun _ => .rfl⟩ 1 fun _ => none).map
      (fun t => t (lit "size")) = .ok (some (.name (lit "small"))) := by decide
  obtain rfl := Except.ok.inj (hset.symm.trans hrun)
  have hsize := hgiven (lit "size") (.name (lit "large")) rfl rfl
  rw [hgot] at hget
  have hsmall := hsize.symm.trans (Except.ok.inj hget)
  revert hsmall
  decide

end LuaAttic.Luaize
