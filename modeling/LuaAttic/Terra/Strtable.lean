import LuaAttic.Lua.Basic
import LuaAttic.Lua.Tables
import LuaAttic.Support.Buffers
import LuaAttic.Support.Fallible

/-!
# The string table (`strtable.t`)

Strings are numbered in the order in which they come.  They are laid out one
after the other, each between its length and a NUL, and the positions at which
they start are kept in an array.
-/

namespace LuaAttic.Terra.Strtable

open LuaAttic.Lua LuaAttic.Support

/-! ## Numbering -/

/-- The strings that have come, and how many and how long they are. -/
structure Strings where
  strs : Table Bytes ℕ := .empty
  strIndices : Table ℕ Bytes := .empty
  strCount : ℕ := 0
  strLen : ℕ := 0
  maxLen : ℕ := 0

/-- `S(s)` -/
def S (t : Strings) (s : Bytes) : ℕ × Strings :=
  match t.strs.get s with
  | some i => (i, t)
  | none =>
      let i := t.strCount
      let strLen := t.strLen + s.length
      (i, {
        strs := t.strs.set s i
        strIndices := t.strIndices.set i s
        strCount := t.strCount + 1
        strLen
        maxLen := max t.maxLen strLen })

/-- What some calls of `S` leave. -/
def interned (calls : List Bytes) : Strings :=
  calls.foldl (fun t s => (S t s).2) {}

/-! ## Elements of arrays -/

/-- The types of the elements. -/
inductive CType
  | uint8
  | uint16
  | uint32
  deriving DecidableEq

def CType.sizeof : CType → ℕ
  | uint8 => 1
  | uint16 => 2
  | uint32 => 4

/-- `num_type(n)` -/
def numType (n : ℕ) : CType :=
  if 2 ^ 16 ≤ n then .uint32 else if 2 ^ 8 ≤ n then .uint16 else .uint8

/-- What a number is as an element.  One that is out of range is narrowed in some
way. -/
def CType.store (narrow : CType → ℕ → ℕ) (c : CType) (n : ℕ) : ℕ :=
  if n < 256 ^ c.sizeof then n else narrow c n % 256 ^ c.sizeof

/-! ## Layout -/

/-- What ends the function. -/
inductive Fault
  /-- the length of a nil value -/
  | nilLength
  /-- memory that is not part of an array -/
  | outOfBounds

/-- A value that must be there. -/
def orFault {α : Type} (e : Fault) : Option α → Except Fault α
  | some a => .ok a
  | none => .error e

/-- The arrays, and the position in the buffer. -/
structure StringArray where
  offsets : List ℕ
  buf : Bytes
  offset : ℕ

section Layout

variable (narrow : CType → ℕ → ℕ) (t : Strings)

/-- `num_t` -/
def Strings.numT : CType := numType t.strCount

/-- `len_t` -/
def Strings.lenT : CType := numType t.maxLen

/-- `buf_size` -/
def Strings.bufSize : ℕ := t.strLen + t.strCount * (t.lenT.sizeof + 1)

/-- The arrays are filled with zeros. -/
def Strings.allocated : StringArray where
  offsets := List.replicate t.strCount 0
  buf := List.replicate t.bufSize 0
  offset := 0

/-- The body of the loop. -/
def place (a : StringArray) (i : ℕ) : Except Fault StringArray := do
  let s ← orFault .nilLength (t.strIndices.get i)
  let len := t.lenT.store narrow s.length
  let buf ← orFault .outOfBounds (write a.buf a.offset (leBytes t.lenT.sizeof len))
  let offset := a.offset + t.lenT.sizeof
  let offsets ← orFault .outOfBounds (write a.offsets i [t.numT.store narrow offset])
  let buf ← orFault .outOfBounds (write buf offset (s ++ [0]))
  return { offsets, buf, offset := offset + s.length + 1 }

/-- `const_string_array()`, with what its variables are in the end.  The loop goes
from zero, where `#str_indices` does not count what is at zero. -/
def constStringArray : Except Fault StringArray :=
  (List.range (t.strIndices.border + 1)).foldlM (place narrow t) t.allocated

end Layout

/-!
## What the string table is filled with

A table that has come about by calls of `S` numbers the distinct strings.  The
loop appends one record for each of them.
-/

/-! ### Numbers -/

/-- The table numbers the strings of a list. -/
structure Strings.Lists (t : Strings) (l : List Bytes) : Prop where
  number : ∀ s i, t.strs.get s = some i ↔ l[i]? = some s
  index : ∀ i, t.strIndices.get i = l[i]?
  count : t.strCount = l.length
  len : t.strLen = l.flatten.length
  max : t.maxLen = l.flatten.length

/-- The strings in the order of their numbers. -/
def Strings.strings (t : Strings) : List Bytes :=
  (List.range t.strCount).filterMap t.strIndices.get

theorem getElem?_concat {α : Type*} (l : List α) (a : α) (i : ℕ) :
    (l ++ [a])[i]? = if i = l.length then some a else l[i]? := by
  rcases lt_trichotomy i l.length with hi | rfl | hi
  · rw [List.getElem?_append_left hi, if_neg hi.ne]
  · rw [List.getElem?_concat_length, if_pos rfl]
  · rw [List.getElem?_append_right hi.le, if_neg hi.ne', List.getElem?_eq_none hi.le,
      List.getElem?_eq_none (Nat.sub_pos_of_lt hi)]

theorem filterMap_getElem? {α : Type*} (l : List α) :
    (List.range l.length).filterMap (fun i => l[i]?) = l := by
  induction l with
  | nil => rfl
  | cons a l ih =>
      rw [List.length_cons, List.range_succ_eq_map, List.filterMap_cons, List.filterMap_map]
      exact congrArg (a :: ·) ih

namespace Strings.Lists

variable {t : Strings} {l : List Bytes} (h : t.Lists l) {s : Bytes}

theorem empty : ({} : Strings).Lists [] where
  number _ _ := iff_of_false nofun nofun
  index _ := rfl
  count := rfl
  len := rfl
  max := rfl

include h

theorem strs_eq_none (hs : s ∉ l) : t.strs.get s = none := by
  refine Option.eq_none_iff_forall_ne_some.mpr fun i hi => ?_
  exact hs (List.mem_of_getElem? ((h.number s i).mp hi))

/-- A string that is there keeps its number. -/
theorem S_of_mem (hs : s ∈ l) : (S t s).2 = t := by
  obtain ⟨i, hi⟩ := List.mem_iff_getElem?.mp hs
  rw [S, (h.number s i).mpr hi]

theorem number_concat (hs : s ∉ l) (s' : Bytes) (i : ℕ) :
    (t.strs.set s t.strCount).get s' = some i ↔ (l ++ [s])[i]? = some s' := by
  rw [getElem?_concat, h.count]
  by_cases hs' : s' = s
  · subst hs'
    rw [get_set_self, Option.some_inj]
    split
    · next hi => exact iff_of_true hi.symm rfl
    · next hi =>
        exact iff_of_false (fun he => hi he.symm) fun he => hs (List.mem_of_getElem? he)
  · rw [get_set_of_ne hs', h.number s' i]
    split
    · next hi =>
        rw [List.getElem?_eq_none hi.ge]
        exact iff_of_false nofun fun he => hs' (Option.some_inj.mp he).symm
    · exact Iff.rfl

theorem index_concat (i : ℕ) :
    (t.strIndices.set t.strCount s).get i = (l ++ [s])[i]? := by
  rw [getElem?_concat, ← h.count, ← h.index]
  split
  · next hi => rw [hi, get_set_self]
  · next hi => exact get_set_of_ne hi _ _

/-- A new string gets the next number. -/
theorem S_of_not_mem (hs : s ∉ l) : (S t s).2.Lists (l ++ [s]) := by
  have hlen : (l ++ [s]).flatten.length = l.flatten.length + s.length := by simp
  rw [S, h.strs_eq_none hs]
  refine ⟨h.number_concat hs, h.index_concat, ?_, ?_, ?_⟩
  · rw [h.count, List.length_append, List.length_singleton]
  · rw [h.len, hlen]
  · rw [h.max, h.len, hlen]
    exact Nat.max_eq_right (Nat.le_add_right _ _)

theorem strings_eq : t.strings = l := by
  rw [Strings.strings, h.count, funext h.index, filterMap_getElem?]

theorem border_eq : t.strIndices.border = l.length - 1 := by
  refine border_of_get fun i => ?_
  rw [h.index, isSome_getElem?]
end Strings.Lists

/-- What calls of `S` leave numbers the strings that they are called with. -/
theorem exists_lists (calls : List Bytes) :
    ∃ l, (interned calls).Lists l ∧ ∀ s, s ∈ l ↔ s ∈ calls := by
  induction calls using List.reverseRecOn with
  | nil => exact ⟨[], .empty, fun _ => Iff.rfl⟩
  | append_singleton calls s ih =>
      obtain ⟨l, hl, hmem⟩ := ih
      have hstep : interned (calls ++ [s]) = (S (interned calls) s).2 := List.foldl_concat ..
      rw [hstep]
      by_cases hs : s ∈ l
      · refine ⟨l, by rwa [hl.S_of_mem hs], fun s' => ?_⟩
        rw [List.mem_append, List.mem_singleton, ← hmem]
        exact ⟨.inl, fun h => h.elim id fun he => he ▸ hs⟩
      · refine ⟨l ++ [s], hl.S_of_not_mem hs, fun s' => ?_⟩
        rw [List.mem_append, List.mem_append, hmem]

theorem interned_lists (calls : List Bytes) :
    (interned calls).Lists (interned calls).strings := by
  obtain ⟨l, hl, -⟩ := exists_lists calls
  rwa [hl.strings_eq]

theorem strings_ne_nil {calls : List Bytes} (hne : calls ≠ []) :
    (interned calls).strings ≠ [] := by
  obtain ⟨l, hl, hmem⟩ := exists_lists calls
  obtain ⟨s, hs⟩ := List.exists_mem_of_ne_nil calls hne
  rw [hl.strings_eq]
  exact List.ne_nil_of_mem ((hmem s).mpr hs)

/-! ### Records -/

/-- How many bytes come before a string's record. -/
def before (w : ℕ) (l : List Bytes) (i : ℕ) : ℕ := (l.take i).flatten.length + i * (w + 1)

section Before

variable {w : ℕ} {l : List Bytes}

theorem before_succ {i : ℕ} {s : Bytes} (hs : l[i]? = some s) :
    before w l (i + 1) = before w l i + w + (s.length + 1) := by
  rw [before, before, List.take_add_one, hs, List.flatten_append, List.length_append]
  simp only [Option.toList_some, List.flatten_singleton]
  ring

theorem before_mono {i j : ℕ} (hij : i ≤ j) : before w l i ≤ before w l j := by
  obtain ⟨k, rfl⟩ := Nat.exists_eq_add_of_le hij
  rw [before, before, List.take_add, List.flatten_append, List.length_append]
  have hmul := Nat.mul_le_mul_right (w + 1) (Nat.le_add_right i k)
  omega

theorem before_length : before w l l.length = l.flatten.length + l.length * (w + 1) := by
  rw [before, List.take_length]

end Before

/-! ### The loop -/

section Loop

variable (narrow : CType → ℕ → ℕ) {t : Strings} {l : List Bytes}

/-- A string between its length and a NUL. -/
def record (t : Strings) (s : Bytes) : Bytes :=
  leBytes t.lenT.sizeof (t.lenT.store narrow s.length) ++ (s ++ [0])

/-- Where a string starts in the buffer. -/
def Strings.start (t : Strings) (l : List Bytes) (i : ℕ) : ℕ :=
  before t.lenT.sizeof l i + t.lenT.sizeof

/-- The arrays after some rounds. -/
def filled (t : Strings) (l : List Bytes) (k : ℕ) : StringArray where
  offsets := (List.range k).map (fun i => t.numT.store narrow (t.start l i)) ++
    List.replicate (l.length - k) 0
  buf := (l.take k).flatMap (record narrow t) ++
    List.replicate (t.bufSize - before t.lenT.sizeof l k) 0
  offset := before t.lenT.sizeof l k

theorem records_succ {k : ℕ} {s : Bytes} (hs : l[k]? = some s) :
    (l.take (k + 1)).flatMap (record narrow t) =
      (l.take k).flatMap (record narrow t) ++ record narrow t s := by
  rw [List.take_add_one, hs, List.flatMap_append, Option.toList_some, List.flatMap_singleton]

theorem length_records {k : ℕ} (hk : k ≤ l.length) :
    ((l.take k).flatMap (record narrow t)).length = before t.lenT.sizeof l k := by
  induction k with
  | zero => simp [before]
  | succ k ih =>
      have hs : l[k]? = some l[k] := List.getElem?_eq_getElem hk
      rw [before_succ hs, records_succ narrow hs, List.length_append, ih (Nat.le_of_succ_le hk)]
      simp [record, Nat.add_assoc]

theorem bufSize_eq (h : t.Lists l) : t.bufSize = before t.lenT.sizeof l l.length := by
  rw [before_length, Strings.bufSize, h.len, h.count]

/-- A round in which everything is there and fits. -/
theorem place_eq {a : StringArray} {i : ℕ} {s buf buf' : Bytes} {offsets : List ℕ}
    (hs : t.strIndices.get i = some s)
    (hlen : write a.buf a.offset
      (leBytes t.lenT.sizeof (t.lenT.store narrow s.length)) = some buf)
    (hoffset : write a.offsets i
      [t.numT.store narrow (a.offset + t.lenT.sizeof)] = some offsets)
    (hbytes : write buf (a.offset + t.lenT.sizeof) (s ++ [0]) = some buf') :
    place narrow t a i = .ok ⟨offsets, buf', a.offset + t.lenT.sizeof + s.length + 1⟩ := by
  rw [place, hs]
  simp only [orFault, ok_bind, hlen, hoffset, hbytes]
  rfl

/-- A round appends a record, and its position in the buffer. -/
theorem place_filled (h : t.Lists l) {k : ℕ} (hk : k < l.length) :
    place narrow t (filled narrow t l k) k = .ok (filled narrow t l (k + 1)) := by
  have hs : l[k]? = some l[k] := List.getElem?_eq_getElem hk
  have hnext := before_succ (w := t.lenT.sizeof) hs
  have hfits : before t.lenT.sizeof l (k + 1) ≤ t.bufSize := by
    rw [bufSize_eq h]
    exact before_mono hk
  have hrecords := (length_records narrow (t := t) hk.le).symm
  have hlen : t.bufSize - before t.lenT.sizeof l k =
      (leBytes t.lenT.sizeof (t.lenT.store narrow l[k].length)).length +
        (t.bufSize - before t.lenT.sizeof l k - t.lenT.sizeof) := by
    rw [length_leBytes]
    omega
  have hround : k = ((List.range k).map fun i => t.numT.store narrow (t.start l i)).length := by
    rw [List.length_map, List.length_range]
  have hoffset : l.length - k =
      [t.numT.store narrow (t.start l k)].length + (l.length - (k + 1)) := by
    rw [List.length_singleton]
    omega
  have hstart : before t.lenT.sizeof l k + t.lenT.sizeof =
      ((l.take k).flatMap (record narrow t) ++
        leBytes t.lenT.sizeof (t.lenT.store narrow l[k].length)).length := by
    rw [List.length_append, length_leBytes, ← hrecords]
  have hbytes : t.bufSize - before t.lenT.sizeof l k - t.lenT.sizeof =
      (l[k] ++ [0]).length + (t.bufSize - before t.lenT.sizeof l (k + 1)) := by
    rw [List.length_append, List.length_singleton]
    omega
  have hplace := place_eq narrow (a := filled narrow t l k) ((h.index k).trans hs)
    (write_fresh 0 hrecords hlen) (write_fresh 0 hround hoffset) (write_fresh 0 hstart hbytes)
  rw [hplace]
  simp only [filled, hnext, List.range_succ, records_succ narrow hs, record]
  simp [Strings.start, Nat.add_assoc]

/-- After all rounds there is one record for each string. -/
theorem constStringArray_eq (h : t.Lists l) (hne : l ≠ []) :
    constStringArray narrow t = .ok (filled narrow t l l.length) := by
  have hrun : ∀ k ≤ l.length, (List.range k).foldlM (place narrow t) t.allocated =
      .ok (filled narrow t l k) := by
    intro k hk
    induction k with
    | zero =>
        rw [List.range_zero, List.foldlM_nil, Strings.allocated, filled, h.count]
        simp [before, pure, Except.pure]
    | succ k ih =>
        rw [List.range_succ, List.foldlM_append, ih (Nat.le_of_succ_le hk), ok_bind,
          List.foldlM_cons, place_filled narrow h hk, ok_bind, List.foldlM_nil]
        rfl
  have hrounds : t.strIndices.border + 1 = l.length := by
    rw [h.border_eq]
    exact Nat.sub_add_cancel (List.length_pos_iff.mpr hne)
  rw [constStringArray, hrounds, hrun _ le_rfl]

end Loop

/-!
## Where the strings are

The width of the offsets is chosen by the number of the strings, not by how far
the offsets go.
-/

/-! ### What is asked for -/

/-- A string is where its offset says, after its length and before a NUL. -/
structure Placed (t : Strings) (a : StringArray) (i : ℕ) (s : Bytes) : Prop where
  offset : a.offsets[i]? = some (t.start t.strings i)
  bytes : (a.buf.drop (t.start t.strings i)).take (s.length + 1) = s ++ [0]
  len : leNat ((a.buf.drop (t.start t.strings i - t.lenT.sizeof)).take t.lenT.sizeof) =
    s.length

/-- All strings are placed, and the last one ends with the buffer. -/
structure Laid (t : Strings) (a : StringArray) : Prop where
  placed : ∀ i s, t.strings[i]? = some s → Placed t a i s
  offset : a.offset = t.bufSize
  size : a.buf.length = t.bufSize

/-- The offsets reach the last string, and its length can be stored. -/
def Fits (l : List Bytes) : Prop :=
  l.dropLast.flatten.length + l.length * ((numType l.flatten.length).sizeof + 1) ≤
    256 ^ (numType l.length).sizeof ∧ ∀ s ∈ l, s.length < 2 ^ 32

/-! ### Elements -/

section Elements

variable (narrow : CType → ℕ → ℕ) (c : CType) (n : ℕ)

theorem store_lt : c.store narrow n < 256 ^ c.sizeof := by
  rw [CType.store]
  split
  · next h => exact h
  · exact Nat.mod_lt _ (Nat.pow_pos (by decide))

theorem store_eq_iff : c.store narrow n = n ↔ n < 256 ^ c.sizeof := by
  constructor
  · intro h
    rw [← h]
    exact store_lt narrow c n
  · exact fun h => if_pos h

end Elements

/-- A type that is chosen by a number holds the smaller ones, up to the largest type. -/
theorem lt_numType_iff {n m : ℕ} (h : n ≤ m) :
    n < 256 ^ (numType m).sizeof ↔ n < 2 ^ 32 := by
  rw [numType]
  split
  · exact Iff.rfl
  · split
    · simp only [CType.sizeof]
      omega
    · simp only [CType.sizeof]
      omega

/-! ### Records -/

section Records

variable (narrow : CType → ℕ → ℕ) {t : Strings} {l : List Bytes} {i : ℕ} {s : Bytes}

theorem drop_records (hs : l[i]? = some s) :
    (l.flatMap (record narrow t)).drop (before t.lenT.sizeof l i) =
      record narrow t s ++ (l.drop (i + 1)).flatMap (record narrow t) := by
  obtain ⟨hi, rfl⟩ := List.getElem?_eq_some_iff.mp hs
  have hsplit : l.flatMap (record narrow t) = (l.take i).flatMap (record narrow t) ++
      (record narrow t l[i] ++ (l.drop (i + 1)).flatMap (record narrow t)) := by
    rw [← List.flatMap_cons, ← List.flatMap_append, List.getElem_cons_drop,
      List.take_append_drop]
  rw [hsplit, ← length_records narrow hi.le, List.drop_left]

/-- The buffer has everything in its place; what matters is what can be stored. -/
theorem placed_iff (h : t.Lists l) (hs : l[i]? = some s) :
    Placed t (filled narrow t l l.length) i s ↔
      t.start l i < 256 ^ t.numT.sizeof ∧ s.length < 256 ^ t.lenT.sizeof := by
  have hi := (List.getElem?_eq_some_iff.mp hs).1
  have hoffset : (filled narrow t l l.length).offsets[i]? =
      some (t.numT.store narrow (t.start l i)) := by
    simp [filled, hi]
  have hbuf : (filled narrow t l l.length).buf = l.flatMap (record narrow t) := by
    simp [filled, bufSize_eq h]
  have hlen : ((l.flatMap (record narrow t)).drop (before t.lenT.sizeof l i)).take t.lenT.sizeof =
      leBytes t.lenT.sizeof (t.lenT.store narrow s.length) := by
    rw [drop_records narrow hs, record, List.append_assoc]
    exact List.take_left' (length_leBytes _ _)
  have hbytes : ((l.flatMap (record narrow t)).drop (t.start l i)).take (s.length + 1) =
      s ++ [0] := by
    rw [Strings.start, ← List.drop_drop, drop_records narrow hs, record, List.append_assoc,
      List.drop_left' (length_leBytes _ _)]
    exact List.take_left' (by simp)
  have hread : leNat (leBytes t.lenT.sizeof (t.lenT.store narrow s.length)) =
      t.lenT.store narrow s.length := by
    rw [leNat_leBytes, Nat.mod_eq_of_lt (store_lt narrow _ _)]
  have hstart : t.start l i - t.lenT.sizeof = before t.lenT.sizeof l i :=
    Nat.add_sub_cancel _ _
  constructor
  · intro hp
    have ho := hp.offset
    have hl := hp.len
    rw [h.strings_eq] at ho hl
    rw [hoffset, Option.some_inj] at ho
    rw [hbuf, hstart, hlen, hread] at hl
    exact ⟨(store_eq_iff narrow _ _).mp ho, (store_eq_iff narrow _ _).mp hl⟩
  · rintro ⟨hfar, hlong⟩
    refine ⟨?_, ?_, ?_⟩
    · rw [h.strings_eq, hoffset, (store_eq_iff narrow _ _).mpr hfar]
    · rw [h.strings_eq, hbuf, hbytes]
    · rw [h.strings_eq, hbuf, hstart, hlen, hread, (store_eq_iff narrow _ _).mpr hlong]

theorem laid_iff (h : t.Lists l) :
    Laid t (filled narrow t l l.length) ↔
      ∀ i s, l[i]? = some s → t.start l i < 256 ^ t.numT.sizeof ∧
        s.length < 256 ^ t.lenT.sizeof := by
  constructor
  · intro hlaid i s hs
    refine (placed_iff narrow h hs).mp (hlaid.placed i s ?_)
    rwa [h.strings_eq]
  · refine fun hall => ⟨fun i s hs => ?_, (bufSize_eq h).symm, ?_⟩
    · rw [h.strings_eq] at hs
      exact (placed_iff narrow h hs).mpr (hall i s hs)
    · have hrecords := length_records narrow (t := t) (le_refl l.length)
      rw [List.take_length, ← bufSize_eq h] at hrecords
      simp [filled, bufSize_eq h, hrecords]

end Records

/-- The last string starts before the end by its own length. -/
theorem start_last {t : Strings} {l : List Bytes} (hne : l ≠ []) :
    t.start l (l.length - 1) + 1 =
      l.dropLast.flatten.length + l.length * (t.lenT.sizeof + 1) := by
  have hpos := List.length_pos_iff.mpr hne
  obtain ⟨n, hn⟩ := Nat.exists_eq_add_of_lt hpos
  rw [Strings.start, before, List.dropLast_eq_take, hn]
  simp only [Nat.zero_add, Nat.add_sub_cancel]
  ring

theorem length_le_flatten {l : List Bytes} {s : Bytes} (hs : s ∈ l) :
    s.length ≤ l.flatten.length :=
  (List.sublist_flatten_of_mem hs).length_le

/-- The last string is the one whose position goes out of range first. -/
theorem fits_iff {t : Strings} {l : List Bytes} (h : t.Lists l) (hne : l ≠ []) :
    (∀ i s, l[i]? = some s → t.start l i < 256 ^ t.numT.sizeof ∧
      s.length < 256 ^ t.lenT.sizeof) ↔ Fits l := by
  have hlast := start_last (t := t) hne
  have hlenT : t.lenT = numType l.flatten.length := by rw [Strings.lenT, h.max]
  have hnumT : t.numT = numType l.length := by rw [Strings.numT, h.count]
  have hlong : ∀ s ∈ l, (s.length < 256 ^ t.lenT.sizeof ↔ s.length < 2 ^ 32) := by
    intro s hs
    rw [hlenT]
    exact lt_numType_iff (length_le_flatten hs)
  rw [Fits, ← hlenT, ← hnumT, ← hlast]
  constructor
  · intro hall
    refine ⟨?_, fun s hs => ?_⟩
    · exact (hall _ _ (List.getElem?_eq_getElem
        (Nat.sub_lt (List.length_pos_iff.mpr hne) Nat.one_pos))).1
    · obtain ⟨i, hi⟩ := List.mem_iff_getElem?.mp hs
      exact (hlong s hs).mp (hall i s hi).2
  · rintro ⟨hfar, hshort⟩ i s hs
    have hi := (List.getElem?_eq_some_iff.mp hs).1
    have hmem := List.mem_of_getElem? hs
    refine ⟨lt_of_le_of_lt ?_ hfar, (hlong s hmem).mpr (hshort s hmem)⟩
    exact Nat.add_le_add_right (before_mono (Nat.le_sub_one_of_lt hi)) _

/-- A table of some strings is laid out if and only if they fit. -/
theorem exists_laid_iff (narrow : CType → ℕ → ℕ) {t : Strings} {l : List Bytes}
    (h : t.Lists l) (hne : l ≠ []) :
    (∃ a, constStringArray narrow t = .ok a ∧ Laid t a) ↔ Fits l := by
  rw [constStringArray_eq narrow h hne, ← fits_iff h hne, ← laid_iff narrow h]
  constructor
  · rintro ⟨a, ha, hlaid⟩
    rwa [Except.ok.inj ha]
  · exact fun hlaid => ⟨_, rfl, hlaid⟩

/-- The strings that have come are laid out exactly where they fit. -/
theorem constStringArray_laid_iff (narrow : CType → ℕ → ℕ) {calls : List Bytes}
    (hne : calls ≠ []) :
    (∃ a, constStringArray narrow (interned calls) = .ok a ∧ Laid (interned calls) a) ↔
      Fits (interned calls).strings :=
  exists_laid_iff narrow (interned_lists calls) (strings_ne_nil hne)

/-- Two short strings are laid out. -/
theorem twoShort_laid :
    ∃ a, constStringArray (fun _ n => n) (interned [[72], [87]]) = .ok a ∧
      Laid (interned [[72], [87]]) a :=
  (constStringArray_laid_iff _ (List.cons_ne_nil _ _)).mpr ⟨by decide, by decide⟩

/-- The second string would start at 257, which a byte does not hold. -/
theorem not_fits {s s' : Bytes} (hs : s.length = 254) (hs' : s'.length = 1) : ¬ Fits [s, s'] := by
  rintro ⟨hfar, -⟩
  have hlen : [s, s'].flatten.length = 255 := by
    rw [List.flatten_cons, List.flatten_singleton, List.length_append, hs, hs']
  have hcount : [s, s'].length = 2 := rfl
  rw [hlen, hcount, List.dropLast_cons_cons, List.dropLast_singleton, List.flatten_singleton,
    hs] at hfar
  exact absurd hfar (by decide)

/-- A string of 254 bytes and one more are not laid out. -/
theorem not_laid :
    ¬ ∀ (narrow : CType → ℕ → ℕ) (calls : List Bytes), calls ≠ [] →
      ∃ a, constStringArray narrow (interned calls) = .ok a ∧ Laid (interned calls) a := by
  intro hall
  have hlists : (interned [List.replicate 254 72, [87]]).Lists [List.replicate 254 72, [87]] := by
    have hfirst := Strings.Lists.empty.S_of_not_mem (s := List.replicate 254 72) List.not_mem_nil
    refine hfirst.S_of_not_mem fun hmem => ?_
    have hlen := congrArg List.length (List.mem_singleton.mp hmem)
    rw [List.length_replicate] at hlen
    contradiction
  have hne : [List.replicate 254 72, ([87] : Bytes)] ≠ [] := List.cons_ne_nil _ _
  have hlaid := hall (fun _ n => n) _ hne
  exact not_fits List.length_replicate rfl ((exists_laid_iff _ hlists hne).mp hlaid)

end LuaAttic.Terra.Strtable
