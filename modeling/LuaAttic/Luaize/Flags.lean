import Mathlib.Data.Rat.Floor
import LuaAttic.Lua.Glue
import LuaAttic.Lua.Tables

/-!
# Flags (`luaize.lua`)

Options are given by name, as a list or as a string, and become bits of a mask.
The result for a string is kept in a cache.  The bit operations are those on
32-bit words.
-/

namespace LuaAttic.Luaize

open LuaAttic.Lua LuaAttic.Support

abbrev Bits := BitVec 32

theorem and_eq_zero_iff {a b : Bits} :
    a &&& b = 0 ↔ ∀ p, a.getLsbD p = true → b.getLsbD p = false := by
  constructor
  · intro h p ha
    have hp := congrArg (·.getLsbD p) h
    simpa [ha] using hp
  · intro h
    refine BitVec.eq_of_getLsbD_eq fun p _ => ?_
    cases ha : a.getLsbD p with
    | false => simp [ha]
    | true => simp [h p ha]

theorem and_eq_left_iff {a b : Bits} :
    a &&& b = a ↔ ∀ p, a.getLsbD p = true → b.getLsbD p = true := by
  constructor
  · intro h p ha
    rw [← h, BitVec.getLsbD_and, Bool.and_eq_true] at ha
    exact ha.2
  · intro h
    refine BitVec.eq_of_getLsbD_eq fun p _ => ?_
    cases ha : a.getLsbD p with
    | false => simp [ha]
    | true => simp [ha, h p ha]

/-! ## Tables of options -/

/-- A key of a table of options. -/
inductive Key
  | name (s : Bytes)
  | number (n : ℚ)
  deriving DecidableEq

/-- A value in a table of options; `other` is one that is neither false nor a
string. -/
inductive Value
  | bool (b : Bool)
  | string (s : Bytes)
  | other
  deriving DecidableEq

/-- `masks`: the bits of each name that is known. -/
abbrev Masks := Bytes → Option Bits

/-- `flag`, which may be nil. -/
def flagOf : Key → Value → Option Bytes
  | .name k, v => if v ≠ .bool false then some k else none
  | .number n, .string s => if (⌊n⌋ : ℚ) = n then some s else none
  | .number _, _ => none

/-- What one entry of the table adds to `bits, mask`. -/
def addFlag (masks : Masks) (strict : Bool) (acc : Bits × Bits) (k : Key) (v : Value) :
    Except Error (Bits × Bits) :=
  let flag := flagOf k v
  let bitmask := flag.bind masks
  if strict then
    if bitmask.isSome then .ok acc else .error .assertionFailed
  else
    match bitmask with
    | some b => .ok (if flag.isSome then acc.1 ||| b else acc.1, acc.2 ||| b)
    | none => .ok acc

/-- One key, with its value. -/
def addKey (t : Table Key Value) (masks : Masks) (strict : Bool) (acc : Bits × Bits)
    (k : Key) : Except Error (Bits × Bits) :=
  match t.get k with
  | some v => addFlag masks strict acc k v
  | none => .ok acc

/-- `table_flags(t, masks, strict)` -/
def tableFlags (order : Order Key) (t : Table Key Value) (masks : Masks) (strict : Bool) :
    Except Error (Bits × Bits) :=
  (order.apply t.keys).foldlM (addKey t masks strict) (0, 0)

/-! ## Strings of options -/

/-- `[^ ,]+` -/
def wordPattern : Pattern where
  items := [.plus (noneOf " ,")]

/-- `^([%+%-]?)(.*)$` -/
def signPattern : Pattern where
  items := [.capStart, .opt (oneOf "+-"), .capStop, .capStart, .star anyChar, .capStop, .atEnd]
  anchored := true

/-- `t[s] = m ~= '-'` for one word. -/
def setWord (t : Table Key Value) (w : Bytes) : Table Key Value :=
  let values := (signPattern.values w).getD []
  let m := values.getD 0 []
  let s := values.getD 1 []
  t.set (.name s) (.bool (m ≠ lit "-"))

/-- The table that a string stands for. -/
def stringTable (s : Bytes) : Table Key Value :=
  (gmatch wordPattern s).foldl (fun t values => setWord t (values.headD [])) .empty

/-- `string_flags(s, masks, strict)` -/
def stringFlags (order : Order Key) (s : Bytes) (masks : Masks) (strict : Bool) :
    Except Error (Bits × Bits) :=
  tableFlags order (stringTable s) masks strict

/-! ## Flags -/

/-- `setbits(bits, mask, over)` -/
def setbits (bits mask : Bits) (overBits : Option Bits) : Bits :=
  match overBits with
  | some overBits => bits ||| (overBits &&& ~~~mask)
  | none => bits

/-- `cache[masks]`: the bits and the mask of a string. -/
abbrev Cache := Bytes → Option (Bits × Bits)

/-- What `flags` is called with. -/
inductive Arg
  | string (s : Bytes)
  | table (t : Table Key Value)
  | number (n : Bits)
  | nil
  | other

/-- `flags(arg, masks, cur_bits, strict)` for a table of masks, with the cache
after it. -/
def flags (order : Order Key) (masks : Masks) (arg : Arg) (cur : Option Bits)
    (strict : Bool) (cache : Cache) : Except Error Bits × Cache :=
  match arg with
  | .string s =>
      match cache s with
      | some (bits, mask) => (.ok (setbits bits mask cur), cache)
      | none =>
          match stringFlags order s masks strict with
          | .ok (bits, mask) =>
              (.ok (setbits bits mask cur), Function.update cache s (some (bits, mask)))
          | .error e => (.error e, cache)
  | .table t =>
      match tableFlags order t masks strict with
      | .ok (bits, mask) => (.ok (setbits bits mask cur), cache)
      | .error e => (.error e, cache)
  | .number n => (.ok n, cache)
  | .nil => (.ok 0, cache)
  | .other => (.error .assertionFailed, cache)

/-!
## What options say

An option is set to true or to false by its name.  In a string the words are
separated by spaces and commas, and the last word with a name decides.
-/

/-! ### Words -/

/-- The name in a word, and whether there is no `'-'` before it. -/
def optionWord : Bytes → Bytes × Bool
  | [] => ([], true)
  | b :: w => if b = 45 then (w, false) else if b = 43 then (w, true) else (b :: w, true)

/-- The options of a string. -/
def words (s : Bytes) : List (Bytes × Bool) :=
  ((splitRuns (oneOf " ,") s).filter (· ≠ [])).map optionWord

/-- An option is set to true or to false. -/
def Arg.Sets : Arg → Bytes → Bool → Prop
  | .table t, n, b =>
      t.get (.name n) = some (.bool b) ∨
        b = true ∧ ∃ i : ℤ, t.get (.number i) = some (.string n)
  | .string s, n, b => (words s).reverse.lookup n = some b
  | _, _, _ => False

/-- A table of booleans by name. -/
def ByName (t : Table Key Value) : Prop :=
  ∀ k v, t.get k = some v → ∃ n b, k = .name n ∧ v = .bool b

/-- A list of names. -/
def IsList (t : Table Key Value) : Prop :=
  ∀ k v, t.get k = some v → ∃ (i : ℤ) (n : Bytes), k = .number i ∧ v = .string n

/-- The three notations. -/
def Arg.IsOptions : Arg → Prop
  | .table t => ByName t ∨ IsList t
  | .string _ => True
  | _ => False

/-! ### Reading words -/

theorem sign_cases (b : UInt8) :
    b = 43 ∨ b = 45 ∨ ¬ oneOf "+-" b = true ∧ b ≠ 43 ∧ b ≠ 45 := by
  have hclass : oneOf "+-" b = (b == 43 || b == 45) := by
    simp [oneOf, lit]
    rfl
  by_cases hplus : b = 43
  · exact .inl hplus
  · by_cases hminus : b = 45
    · exact .inr (.inl hminus)
    · exact .inr (.inr ⟨by simp [hclass, hplus, hminus], hplus, hminus⟩)

theorem values_signPattern (w : Bytes) :
    ∃ m s, signPattern.values w = some [m, s] ∧ (s, decide (m ≠ lit "-")) = optionWord w := by
  have hrest : ∀ m s : Bytes,
      matchItems [.capStart, .star anyChar, .capStop, .atEnd] [.closed m] s =
        some ([], [.closed m, .closed s]) := by
    intro m s
    rw [matchItems, matchItems, maxExpand_of_isSome]
    · simp [matchItems, closeLast]
    · simp [matchItems]
  have hvalues : ∀ m s : Bytes, matchItems signPattern.items [] w =
      some ([], [.closed m, .closed s]) → signPattern.values w = some [m, s] := by
    intro m s h
    have hmatch : signPattern.matchHere w = some ⟨w, [m, s], []⟩ := by
      simp [Pattern.matchHere, h, Capture.value]
    rw [Pattern.values, Pattern.find.eq_def, hmatch]
    rfl
  cases w with
  | nil => exact ⟨[], [], hvalues [] [] (hrest [] []), by decide⟩
  | cons b w =>
      by_cases hb : oneOf "+-" b = true
      · refine ⟨[b], w, hvalues _ _ ?_, ?_⟩
        · have hclose : closeLast w [.opened (b :: w)] = [.closed [b]] := by simp [closeLast]
          rw [signPattern, matchItems, matchItems, if_pos hb, matchItems, List.nil_append,
            hclose, hrest, Option.some_or]
        · revert hb
          rcases sign_cases b with rfl | rfl | ⟨hnot, -, -⟩
          · exact fun _ => rfl
          · exact fun _ => rfl
          · exact fun hb => absurd hb hnot
      · refine ⟨[], b :: w, hvalues _ _ ?_, ?_⟩
        · have hclose : closeLast (b :: w) [.opened (b :: w)] = [.closed []] := by
            simp [closeLast]
          rw [signPattern, matchItems, matchItems, if_neg hb, matchItems, List.nil_append,
            hclose, hrest]
        · rcases sign_cases b with rfl | rfl | ⟨-, hplus, hminus⟩
          · exact absurd rfl hb
          · exact absurd rfl hb
          · rw [optionWord, if_neg hminus, if_neg hplus]
            rfl

theorem setWord_eq (t : Table Key Value) (w : Bytes) :
    setWord t w = t.set (.name (optionWord w).1) (.bool (optionWord w).2) := by
  obtain ⟨m, s, hvalues, hword⟩ := values_signPattern w
  rw [← hword, setWord, hvalues]
  rfl

/-- The last word with a name decides. -/
theorem get_stringTable (s : Bytes) (k : Key) :
    (stringTable s).get k =
      match k with
      | .name n => ((words s).reverse.lookup n).map .bool
      | .number _ => none := by
  have hwords : ∀ (ws : List Bytes) (t : Table Key Value),
      (ws.foldl setWord t).get k =
        match k with
        | .name n => (((ws.map optionWord).reverse.lookup n).map .bool).or (t.get k)
        | .number _ => t.get k := by
    intro ws t
    induction ws using List.reverseRecOn with
    | nil => cases k <;> rfl
    | append_singleton ws w ih =>
        rw [List.foldl_append, List.foldl_cons, List.foldl_nil, setWord_eq,
          List.map_append, List.map_singleton, List.reverse_append, List.reverse_singleton,
          List.singleton_append]
        obtain ⟨m, b⟩ := optionWord w
        cases k with
        | name n =>
            by_cases hn : n = m
            · subst hn
              simp
            · have hne : (n == m) = false := by simpa using hn
              rw [get_set_of_ne (by simpa using hn), ih]
              simp only [List.lookup_cons, hne]
        | number i => rw [get_set_of_ne (by simp), ih]
  have hgmatch : gmatch wordPattern s =
      ((splitRuns (oneOf " ,") s).filter (· ≠ [])).map fun w => [w] := by
    have hclass : (fun b => !noneOf " ," b) = oneOf " ," := by
      funext b
      simp [noneOf, oneOf]
    rw [← hclass]
    exact gmatch_plus (noneOf " ,") s
  rw [stringTable, hgmatch, List.foldl_map]
  refine (hwords _ _).trans ?_
  cases k <;> simp [words]

/-! ### Bits of options -/

section Bits

variable {order : Order Key} {t : Table Key Value} {masks : Masks}

/-- A flag that the table gives. -/
def Gives (t : Table Key Value) (n : Bytes) : Prop :=
  ∃ k v, t.get k = some v ∧ flagOf k v = some n

theorem mem_order_iff {k : Key} : k ∈ order.apply t.keys ↔ (t.get k).isSome := by
  rw [(order.perm t.keys).mem_iff, t.mem_keys]

/-- The bits that one key adds. -/
def flagBits (t : Table Key Value) (masks : Masks) (k : Key) : Bits :=
  (((t.get k).bind (flagOf k)).bind masks).getD 0

theorem getLsbD_flagBits {k : Key} {p : ℕ} :
    (flagBits t masks k).getLsbD p = true ↔
      ∃ v n b, t.get k = some v ∧ flagOf k v = some n ∧ masks n = some b ∧
        b.getLsbD p = true := by
  unfold flagBits
  cases hv : t.get k with
  | none => simp
  | some v =>
      cases hn : flagOf k v with
      | none => simp [hn]
      | some n => cases hb : masks n <;> simp [hn, hb]

theorem addKey_lenient (a : Bits) (k : Key) :
    addKey t masks false (a, a) k =
      .ok (a ||| flagBits t masks k, a ||| flagBits t masks k) := by
  unfold flagBits addKey addFlag
  cases hv : t.get k with
  | none => simp
  | some v =>
      cases hn : flagOf k v with
      | none => simp [hn]
      | some n => cases hb : masks n <;> simp [hn, hb]

/-- Not in strict mode the bits are those of the flags that are given, and the
mask is the same. -/
theorem tableFlags_lenient (order : Order Key) (t : Table Key Value) (masks : Masks) :
    ∃ T, tableFlags order t masks false = .ok (T, T) ∧
      ∀ p, T.getLsbD p = true ↔
        ∃ n b, Gives t n ∧ masks n = some b ∧ b.getLsbD p = true := by
  have hloop : ∀ (ks : List Key) (a : Bits), ∃ T,
      ks.foldlM (addKey t masks false) (a, a) = .ok (T, T) ∧
      ∀ p, T.getLsbD p = true ↔
        a.getLsbD p = true ∨ ∃ k ∈ ks, (flagBits t masks k).getLsbD p = true := by
    intro ks
    induction ks with
    | nil => exact fun a => ⟨a, rfl, by simp⟩
    | cons k ks ih =>
        intro a
        obtain ⟨T, hrun, hT⟩ := ih (a ||| flagBits t masks k)
        refine ⟨T, ?_, fun p => ?_⟩
        · rw [List.foldlM_cons, addKey_lenient]
          exact hrun
        · rw [hT, BitVec.getLsbD_or, Bool.or_eq_true, or_assoc]
          simp
  obtain ⟨T, hrun, hT⟩ := hloop (order.apply t.keys) 0
  refine ⟨T, hrun, fun p => (hT p).trans ?_⟩
  have hzero : (0 : Bits).getLsbD p = false := by simp
  simp only [getLsbD_flagBits, hzero, Bool.false_eq_true, false_or]
  constructor
  · rintro ⟨k, -, v, n, b, hv, hn, hb, hp⟩
    exact ⟨n, b, ⟨k, v, hv, hn⟩, hb, hp⟩
  · rintro ⟨n, b, ⟨k, v, hv, hn⟩, hb, hp⟩
    exact ⟨k, mem_order_iff.mpr (by rw [hv]; rfl), v, n, b, hv, hn, hb, hp⟩

theorem addKey_strict (a : Bits × Bits) (k : Key) :
    addKey t masks true a k =
      if ∀ v ∈ t.get k, ((flagOf k v).bind masks).isSome then .ok a
      else .error .assertionFailed := by
  unfold addKey
  cases hv : t.get k <;> simp [addFlag]

/-- In strict mode nothing is added; an entry without a flag, or with one that is
not known, raises. -/
theorem tableFlags_strict (order : Order Key) (t : Table Key Value) (masks : Masks) :
    tableFlags order t masks true =
      if ∀ k ∈ order.apply t.keys, ∀ v ∈ t.get k, ((flagOf k v).bind masks).isSome then
        .ok (0, 0)
      else .error .assertionFailed := by
  unfold tableFlags
  generalize order.apply t.keys = ks
  induction ks with
  | nil => rfl
  | cons k ks ih =>
      by_cases hk : ∀ v ∈ t.get k, ((flagOf k v).bind masks).isSome
      · rw [List.foldlM_cons, addKey_strict, if_pos hk]
        refine ih.trans (if_congr ?_ rfl rfl)
        rw [List.forall_mem_cons, and_iff_right hk]
      · rw [List.foldlM_cons, addKey_strict, if_neg hk,
          if_neg fun h => hk (h k List.mem_cons_self)]
        rfl

end Bits

end LuaAttic.Luaize
