import Mathlib.Data.List.Forall2
import LuaAttic.Utf8.Cover

/-!
# Validation

A string is valid when it is put together from well-formed characters, none of which is
one of the two that are no characters.  The check of one character is by the ranges of
its bytes; the check of a string is at the indices that the iteration yields, together
with the flags for the bytes before them.
-/

namespace LuaAttic.Utf8

open LuaAttic.Lua LuaAttic.Support

/-! ## The modelled functions -/

/-- What the functions raise: the errors of the run, and those with a message. -/
inductive Failure
  | run (e : Error)
  | message (text : String)
  deriving DecidableEq, Repr

/-- A byte in a range; nil is in none. -/
def within (c : Option UInt8) (lo hi : UInt8) : Bool :=
  c.any fun c => decide (lo ≤ c ∧ c ≤ hi)

/-- `utf8.isvalid(s, i)`; nil counts as false. -/
def isvalid (s : Bytes) (i : Int) : Bool :=
  match byte s i with
  | none => false
  | some c =>
      let c2 := byte s (i + 1)
      let c3 := byte s (i + 2)
      let c4 := byte s (i + 3)
      if 0x00 ≤ c ∧ c ≤ 0x7F then true
      else if 0xC2 ≤ c ∧ c ≤ 0xDF then within c2 0x80 0xBF
      else if 0xE0 ≤ c ∧ c ≤ 0xEF then
        if c = 0xE0 then within c2 0xA0 0xBF && within c3 0x80 0xBF
        else if 0xE1 ≤ c ∧ c ≤ 0xEC then within c2 0x80 0xBF && within c3 0x80 0xBF
        else if c = 0xED then within c2 0x80 0x9F && within c3 0x80 0xBF
        else if 0xEE ≤ c ∧ c ≤ 0xEF then
          -- U+FFFE and U+FFFF are no characters
          if c = 0xEF ∧ c2 = some 0xBF ∧ (c3 = some 0xBE ∨ c3 = some 0xBF) then false
          else within c2 0x80 0xBF && within c3 0x80 0xBF
        else false
      else if 0xF0 ≤ c ∧ c ≤ 0xF4 then
        if c = 0xF0 then
          within c2 0x90 0xBF && within c3 0x80 0xBF && within c4 0x80 0xBF
        else if 0xF1 ≤ c ∧ c ≤ 0xF3 then
          within c2 0x80 0xBF && within c3 0x80 0xBF && within c4 0x80 0xBF
        else if c = 0xF4 then
          within c2 0x80 0x8F && within c3 0x80 0xBF && within c4 0x80 0xBF
        else false
      else false

/-- `utf8.validate(s)` -/
def validate (s : Bytes) : Except Failure Unit := do
  let l ← (byteIndices s).mapError .run
  l.forM fun m =>
    if ¬ m.2 ∨ ¬ isvalid s m.1 then throw (.message s!"invalid utf8 char at #{m.1}")
    else pure ()

/-! ## Well-formed characters -/

/-- The well-formed byte sequences, a row for each kind: the ranges of the bytes. -/
def wellFormedRows : List (List (UInt8 × UInt8)) :=
  [[(0x00, 0x7F)],
   [(0xC2, 0xDF), (0x80, 0xBF)],
   [(0xE0, 0xE0), (0xA0, 0xBF), (0x80, 0xBF)],
   [(0xE1, 0xEC), (0x80, 0xBF), (0x80, 0xBF)],
   [(0xED, 0xED), (0x80, 0x9F), (0x80, 0xBF)],
   [(0xEE, 0xEF), (0x80, 0xBF), (0x80, 0xBF)],
   [(0xF0, 0xF0), (0x90, 0xBF), (0x80, 0xBF), (0x80, 0xBF)],
   [(0xF1, 0xF3), (0x80, 0xBF), (0x80, 0xBF), (0x80, 0xBF)],
   [(0xF4, 0xF4), (0x80, 0x8F), (0x80, 0xBF), (0x80, 0xBF)]]

def WellFormed (p : Bytes) : Prop :=
  ∃ row ∈ wellFormedRows, List.Forall₂ (fun c range => range.1 ≤ c ∧ c ≤ range.2) p row

/-- The number that a well-formed sequence encodes. -/
def codePoint : Bytes → ℕ
  | [a] => a.toNat
  | [a, b] => (a.toNat - 0xC0) * 64 + (b.toNat - 0x80)
  | [a, b, c] => (a.toNat - 0xE0) * 4096 + (b.toNat - 0x80) * 64 + (c.toNat - 0x80)
  | [a, b, c, d] =>
      (a.toNat - 0xF0) * 262144 + (b.toNat - 0x80) * 4096 + (c.toNat - 0x80) * 64 +
        (d.toNat - 0x80)
  | _ => 0

/-- A well-formed sequence that encodes neither U+FFFE nor U+FFFF. -/
structure ValidChar (p : Bytes) : Prop where
  wellFormed : WellFormed p
  character : codePoint p ≠ 0xFFFE ∧ codePoint p ≠ 0xFFFF

/-- A string of valid characters. -/
def Valid (s : Bytes) : Prop := ∃ ps : List Bytes, (∀ p ∈ ps, ValidChar p) ∧ s = ps.flatten

/-! ## The check of a character -/

theorem byte_append_add (pre t : Bytes) (k : ℕ) :
    byte (pre ++ t) (pre.length + 1 + k) = t[k]? := by
  have hrel : relIndex (pre ++ t) (pre.length + 1 + k) = pre.length + 1 + k :=
    if_pos (by omega)
  have hnat : ((pre.length : Int) + 1 + k - 1).toNat = pre.length + k := by omega
  rw [byte, hrel, byteAt, if_pos (by omega), hnat, List.getElem?_append_right (by omega),
    Nat.add_sub_cancel_left]

/-- The check looks at what begins at the index only. -/
theorem isvalid_append (pre t : Bytes) : isvalid (pre ++ t) (pre.length + 1) = isvalid t 1 := by
  have h (k : ℕ) : byte (pre ++ t) (pre.length + 1 + k) = byte t (1 + k) := by
    rw [byte_append_add]
    exact (byte_append_add [] t k).symm
  have h0 : byte (pre ++ t) (pre.length + 1) = byte t 1 := h 0
  have h1 : byte (pre ++ t) (pre.length + 1 + 1) = byte t (1 + 1) := h 1
  have h2 : byte (pre ++ t) (pre.length + 1 + 2) = byte t (1 + 2) := h 2
  have h3 : byte (pre ++ t) (pre.length + 1 + 3) = byte t (1 + 3) := h 3
  simp only [isvalid, h0, h1, h2, h3]

theorem isvalid_nil : isvalid [] 1 = false := rfl

theorem within_some {d lo hi : UInt8} :
    within (some d) lo hi = true ↔ lo.toNat ≤ d.toNat ∧ d.toNat ≤ hi.toNat := by
  simp [within, UInt8.le_iff_toNat_le]

theorem within_getElem_zero {u : Bytes} {lo hi : UInt8} (h : within u[0]? lo hi = true) :
    ∃ d v, u = d :: v ∧ lo.toNat ≤ d.toNat ∧ d.toNat ≤ hi.toNat := by
  cases u with
  | nil => exact absurd h Bool.false_ne_true
  | cons d v => exact ⟨d, v, rfl, within_some.mp h⟩

/-- The check by the class of the first byte, and the bytes after it. -/
theorem isvalid_cons (c : UInt8) (u : Bytes) :
    isvalid (c :: u) 1 =
      if c.toNat ≤ 0x7F then true
      else if 0xC2 ≤ c.toNat ∧ c.toNat ≤ 0xDF then within u[0]? 0x80 0xBF
      else if 0xE0 ≤ c.toNat ∧ c.toNat ≤ 0xEF then
        if c.toNat = 0xE0 then within u[0]? 0xA0 0xBF && within u[1]? 0x80 0xBF
        else if 0xE1 ≤ c.toNat ∧ c.toNat ≤ 0xEC then
          within u[0]? 0x80 0xBF && within u[1]? 0x80 0xBF
        else if c.toNat = 0xED then within u[0]? 0x80 0x9F && within u[1]? 0x80 0xBF
        else if 0xEE ≤ c.toNat ∧ c.toNat ≤ 0xEF then
          if c.toNat = 0xEF ∧ u[0]? = some 0xBF ∧ (u[1]? = some 0xBE ∨ u[1]? = some 0xBF)
          then false
          else within u[0]? 0x80 0xBF && within u[1]? 0x80 0xBF
        else false
      else if 0xF0 ≤ c.toNat ∧ c.toNat ≤ 0xF4 then
        if c.toNat = 0xF0 then
          within u[0]? 0x90 0xBF && within u[1]? 0x80 0xBF && within u[2]? 0x80 0xBF
        else if 0xF1 ≤ c.toNat ∧ c.toNat ≤ 0xF3 then
          within u[0]? 0x80 0xBF && within u[1]? 0x80 0xBF && within u[2]? 0x80 0xBF
        else if c.toNat = 0xF4 then
          within u[0]? 0x80 0x8F && within u[1]? 0x80 0xBF && within u[2]? 0x80 0xBF
        else false
      else false := by
  have h0 : byte (c :: u) 1 = some c := byte_append_add [] (c :: u) 0
  have h1 : byte (c :: u) (1 + 1) = u[0]? := byte_append_add [] (c :: u) 1
  have h2 : byte (c :: u) (1 + 2) = u[1]? := byte_append_add [] (c :: u) 2
  have h3 : byte (c :: u) (1 + 3) = u[2]? := byte_append_add [] (c :: u) 3
  have hzero : (0 : UInt8) ≤ c := UInt8.zero_le
  simp only [isvalid, h0, h1, h2, h3, hzero, true_and, UInt8.le_iff_toNat_le,
    ← UInt8.toNat_inj (a := c), UInt8.reduceToNat]

theorem codePoint_three (a b c : UInt8) :
    codePoint [a, b, c] =
      (a.toNat - 0xE0) * 4096 + (b.toNat - 0x80) * 64 + (c.toNat - 0x80) := rfl

/-- The check succeeds where a valid character begins. -/
theorem isvalid_of_validChar {p : Bytes} (h : ValidChar p) (rest : Bytes) :
    isvalid (p ++ rest) 1 = true := by
  obtain ⟨⟨row, hrow, hp⟩, hchar⟩ := h
  simp only [wellFormedRows, List.mem_cons, List.not_mem_nil, or_false] at hrow
  rcases hrow with rfl | rfl | rfl | rfl | rfl | rfl | rfl | rfl | rfl
  all_goals
    simp only [List.forall₂_cons_right_iff, List.forall₂_nil_right_iff,
      UInt8.le_iff_toNat_le, UInt8.reduceToNat] at hp
  · obtain ⟨a, _, ha, rfl, rfl⟩ := hp
    rw [List.cons_append, isvalid_cons, if_pos (by omega)]
  · obtain ⟨a, _, ha, ⟨b, _, hb, rfl, rfl⟩, rfl⟩ := hp
    rw [List.cons_append, isvalid_cons, if_neg (by omega), if_pos (by omega)]
    exact within_some.mpr hb
  · obtain ⟨a, _, ha, ⟨b, _, hb, ⟨c, _, hc, rfl, rfl⟩, rfl⟩, rfl⟩ := hp
    rw [List.cons_append, isvalid_cons, if_neg (by omega), if_neg (by omega),
      if_pos (by omega), if_pos (by omega), Bool.and_eq_true]
    exact ⟨within_some.mpr hb, within_some.mpr hc⟩
  · obtain ⟨a, _, ha, ⟨b, _, hb, ⟨c, _, hc, rfl, rfl⟩, rfl⟩, rfl⟩ := hp
    rw [List.cons_append, isvalid_cons, if_neg (by omega), if_neg (by omega),
      if_pos (by omega), if_neg (by omega), if_pos (by omega), Bool.and_eq_true]
    exact ⟨within_some.mpr hb, within_some.mpr hc⟩
  · obtain ⟨a, _, ha, ⟨b, _, hb, ⟨c, _, hc, rfl, rfl⟩, rfl⟩, rfl⟩ := hp
    rw [List.cons_append, isvalid_cons, if_neg (by omega), if_neg (by omega),
      if_pos (by omega), if_neg (by omega), if_neg (by omega), if_pos (by omega),
      Bool.and_eq_true]
    exact ⟨within_some.mpr hb, within_some.mpr hc⟩
  · obtain ⟨a, _, ha, ⟨b, _, hb, ⟨c, _, hc, rfl, rfl⟩, rfl⟩, rfl⟩ := hp
    have hnot : ¬ (a.toNat = 0xEF ∧ (b :: c :: rest)[0]? = some 0xBF ∧
        ((b :: c :: rest)[1]? = some 0xBE ∨ (b :: c :: rest)[1]? = some 0xBF)) := by
      rw [codePoint_three] at hchar
      simp only [List.getElem?_cons_zero, List.getElem?_cons_succ, Option.some_inj,
        ← UInt8.toNat_inj, UInt8.reduceToNat]
      omega
    rw [List.cons_append, isvalid_cons, if_neg (by omega), if_neg (by omega),
      if_pos (by omega), if_neg (by omega), if_neg (by omega), if_neg (by omega),
      if_pos (by omega)]
    rw [List.cons_append, List.cons_append, List.nil_append, if_neg hnot, Bool.and_eq_true]
    exact ⟨within_some.mpr hb, within_some.mpr hc⟩
  · obtain ⟨a, _, ha, ⟨b, _, hb, ⟨c, _, hc, ⟨d, _, hd, rfl, rfl⟩, rfl⟩, rfl⟩, rfl⟩ := hp
    rw [List.cons_append, isvalid_cons, if_neg (by omega), if_neg (by omega),
      if_neg (by omega), if_pos (by omega), if_pos (by omega), Bool.and_eq_true,
      Bool.and_eq_true]
    exact ⟨⟨within_some.mpr hb, within_some.mpr hc⟩, within_some.mpr hd⟩
  · obtain ⟨a, _, ha, ⟨b, _, hb, ⟨c, _, hc, ⟨d, _, hd, rfl, rfl⟩, rfl⟩, rfl⟩, rfl⟩ := hp
    rw [List.cons_append, isvalid_cons, if_neg (by omega), if_neg (by omega),
      if_neg (by omega), if_pos (by omega), if_neg (by omega), if_pos (by omega),
      Bool.and_eq_true, Bool.and_eq_true]
    exact ⟨⟨within_some.mpr hb, within_some.mpr hc⟩, within_some.mpr hd⟩
  · obtain ⟨a, _, ha, ⟨b, _, hb, ⟨c, _, hc, ⟨d, _, hd, rfl, rfl⟩, rfl⟩, rfl⟩, rfl⟩ := hp
    rw [List.cons_append, isvalid_cons, if_neg (by omega), if_neg (by omega),
      if_neg (by omega), if_pos (by omega), if_neg (by omega), if_neg (by omega),
      if_pos (by omega), Bool.and_eq_true, Bool.and_eq_true]
    exact ⟨⟨within_some.mpr hb, within_some.mpr hc⟩, within_some.mpr hd⟩

/-- The bytes of a row, as a character. -/
theorem validChar_of_row {p : Bytes} (row : List (UInt8 × UInt8))
    (hrow : row ∈ wellFormedRows)
    (hp : List.Forall₂ (fun c range => range.1.toNat ≤ c.toNat ∧ c.toNat ≤ range.2.toNat) p row)
    (hchar : codePoint p ≠ 0xFFFE ∧ codePoint p ≠ 0xFFFF) : ValidChar p := by
  refine ⟨⟨row, hrow, ?_⟩, hchar⟩
  simpa only [UInt8.le_iff_toNat_le] using hp

theorem within_two {u : Bytes} {lo hi lo' hi' : UInt8}
    (h : (within u[0]? lo hi && within u[1]? lo' hi') = true) :
    ∃ b c v, u = b :: c :: v ∧ (lo.toNat ≤ b.toNat ∧ b.toNat ≤ hi.toNat) ∧
      lo'.toNat ≤ c.toNat ∧ c.toNat ≤ hi'.toNat := by
  rw [Bool.and_eq_true] at h
  obtain ⟨b, v, rfl, hb⟩ := within_getElem_zero h.1
  obtain ⟨c, v, rfl, hc⟩ := within_getElem_zero (u := v) h.2
  exact ⟨b, c, v, rfl, hb, hc⟩

theorem within_three {u : Bytes} {lo hi lo' hi' lo'' hi'' : UInt8}
    (h : (within u[0]? lo hi && within u[1]? lo' hi' && within u[2]? lo'' hi'') = true) :
    ∃ b c d v, u = b :: c :: d :: v ∧ (lo.toNat ≤ b.toNat ∧ b.toNat ≤ hi.toNat) ∧
      (lo'.toNat ≤ c.toNat ∧ c.toNat ≤ hi'.toNat) ∧
        lo''.toNat ≤ d.toNat ∧ d.toNat ≤ hi''.toNat := by
  rw [Bool.and_eq_true] at h
  obtain ⟨b, c, v, rfl, hb, hc⟩ := within_two h.1
  obtain ⟨d, v, rfl, hd⟩ := within_getElem_zero (u := v) h.2
  exact ⟨b, c, d, v, rfl, hb, hc, hd⟩

theorem codePoint_four (a b c d : UInt8) :
    codePoint [a, b, c, d] =
      (a.toNat - 0xF0) * 262144 + (b.toNat - 0x80) * 4096 + (c.toNat - 0x80) * 64 +
        (d.toNat - 0x80) := rfl

/-- Where the check succeeds a valid character begins. -/
theorem exists_validChar_of_isvalid {t : Bytes} (h : isvalid t 1 = true) :
    ∃ p rest, t = p ++ rest ∧ ValidChar p := by
  cases t with
  | nil => exact absurd h Bool.false_ne_true
  | cons a u =>
      rw [isvalid_cons] at h
      -- one case for each row
      split_ifs at h with h1 h2 h3 h30 h31 h3D h3E hnot h4 h40 h41 h44
      · refine ⟨[a], u, rfl, validChar_of_row [(0x00, 0x7F)] (by simp [wellFormedRows])
          (.cons ⟨Nat.zero_le _, h1⟩ .nil) ?_⟩
        change a.toNat ≠ _ ∧ a.toNat ≠ _
        omega
      · obtain ⟨b, v, rfl, hb⟩ := within_getElem_zero h
        simp only [UInt8.reduceToNat] at hb
        refine ⟨[a, b], v, rfl, validChar_of_row [(0xC2, 0xDF), (0x80, 0xBF)]
          (by simp [wellFormedRows]) (.cons h2 (.cons hb .nil)) ?_⟩
        change (a.toNat - 0xC0) * 64 + (b.toNat - 0x80) ≠ _ ∧
          (a.toNat - 0xC0) * 64 + (b.toNat - 0x80) ≠ _
        omega
      · obtain ⟨b, c, v, rfl, hb, hc⟩ := within_two h
        simp only [UInt8.reduceToNat] at hb hc
        refine ⟨[a, b, c], v, rfl, validChar_of_row [(0xE0, 0xE0), (0xA0, 0xBF), (0x80, 0xBF)]
          (by simp [wellFormedRows]) (.cons ⟨h30.ge, h30.le⟩ (.cons hb (.cons hc .nil))) ?_⟩
        rw [codePoint_three]
        omega
      · obtain ⟨b, c, v, rfl, hb, hc⟩ := within_two h
        simp only [UInt8.reduceToNat] at hb hc
        refine ⟨[a, b, c], v, rfl, validChar_of_row [(0xE1, 0xEC), (0x80, 0xBF), (0x80, 0xBF)]
          (by simp [wellFormedRows]) (.cons h31 (.cons hb (.cons hc .nil))) ?_⟩
        rw [codePoint_three]
        omega
      · obtain ⟨b, c, v, rfl, hb, hc⟩ := within_two h
        simp only [UInt8.reduceToNat] at hb hc
        refine ⟨[a, b, c], v, rfl, validChar_of_row [(0xED, 0xED), (0x80, 0x9F), (0x80, 0xBF)]
          (by simp [wellFormedRows]) (.cons ⟨h3D.ge, h3D.le⟩ (.cons hb (.cons hc .nil))) ?_⟩
        rw [codePoint_three]
        omega
      · obtain ⟨b, c, v, rfl, hb, hc⟩ := within_two h
        simp only [UInt8.reduceToNat] at hb hc
        refine ⟨[a, b, c], v, rfl, validChar_of_row [(0xEE, 0xEF), (0x80, 0xBF), (0x80, 0xBF)]
          (by simp [wellFormedRows]) (.cons h3E (.cons hb (.cons hc .nil))) ?_⟩
        simp only [List.getElem?_cons_zero, List.getElem?_cons_succ, Option.some_inj,
          ← UInt8.toNat_inj, UInt8.reduceToNat] at hnot
        rw [codePoint_three]
        omega
      · obtain ⟨b, c, d, v, rfl, hb, hc, hd⟩ := within_three h
        simp only [UInt8.reduceToNat] at hb hc hd
        refine ⟨[a, b, c, d], v, rfl, validChar_of_row
          [(0xF0, 0xF0), (0x90, 0xBF), (0x80, 0xBF), (0x80, 0xBF)] (by simp [wellFormedRows])
          (.cons ⟨h40.ge, h40.le⟩ (.cons hb (.cons hc (.cons hd .nil)))) ?_⟩
        rw [codePoint_four]
        omega
      · obtain ⟨b, c, d, v, rfl, hb, hc, hd⟩ := within_three h
        simp only [UInt8.reduceToNat] at hb hc hd
        refine ⟨[a, b, c, d], v, rfl, validChar_of_row
          [(0xF1, 0xF3), (0x80, 0xBF), (0x80, 0xBF), (0x80, 0xBF)] (by simp [wellFormedRows])
          (.cons h41 (.cons hb (.cons hc (.cons hd .nil)))) ?_⟩
        rw [codePoint_four]
        omega
      · obtain ⟨b, c, d, v, rfl, hb, hc, hd⟩ := within_three h
        simp only [UInt8.reduceToNat] at hb hc hd
        refine ⟨[a, b, c, d], v, rfl, validChar_of_row
          [(0xF4, 0xF4), (0x80, 0x8F), (0x80, 0xBF), (0x80, 0xBF)] (by simp [wellFormedRows])
          (.cons ⟨h44.ge, h44.le⟩ (.cons hb (.cons hc (.cons hd .nil)))) ?_⟩
        rw [codePoint_four]
        omega

/-! ## Valid characters are pieces -/

theorem charLength_eq (c : UInt8) :
    charLength c = if c.toNat ≤ 0x7F then 1
      else if 0xC2 ≤ c.toNat ∧ c.toNat ≤ 0xDF then 2
      else if 0xE0 ≤ c.toNat ∧ c.toNat ≤ 0xEF then 3
      else if 0xF0 ≤ c.toNat ∧ c.toNat ≤ 0xF4 then 4
      else 1 := by
  simp only [charLength, UInt8.le_iff_toNat_le, UInt8.reduceToNat]

/-- The first byte of a well-formed sequence tells its length. -/
theorem WellFormed.lead {p : Bytes} (h : WellFormed p) :
    ∃ a rest, p = a :: rest ∧ CanStart a ∧ rest.length + 1 = charLength a := by
  obtain ⟨row, hrow, hp⟩ := h
  have hlen := hp.length_eq
  simp only [wellFormedRows, List.mem_cons, List.not_mem_nil, or_false] at hrow
  cases p with
  | nil => rcases hrow with rfl | rfl | rfl | rfl | rfl | rfl | rfl | rfl | rfl <;> cases hlen
  | cons a rest =>
      refine ⟨a, rest, rfl, ?_⟩
      rw [charLength_eq]
      simp only [CanStart, UInt8.le_iff_toNat_le, UInt8.reduceToNat]
      rw [List.length_cons] at hlen
      rcases hrow with rfl | rfl | rfl | rfl | rfl | rfl | rfl | rfl | rfl
      all_goals
        have ha := (List.forall₂_cons.mp hp).1
        simp only [UInt8.le_iff_toNat_le, UInt8.reduceToNat, List.length_cons,
          List.length_nil] at ha hlen
        refine ⟨by omega, ?_⟩
        split_ifs <;> omega

theorem ValidChar.isWord {p : Bytes} (h : ValidChar p) : IsWord charLength p := by
  obtain ⟨a, rest, rfl, -, hlen⟩ := h.wellFormed.lead
  exact hlen

theorem ValidChar.startsChar {p : Bytes} (h : ValidChar p) : startsChar p = true := by
  obtain ⟨a, rest, rfl, hstart, -⟩ := h.wellFormed.lead
  simpa [Utf8.startsChar] using hstart

theorem chars_append_of_validChar {p : Bytes} (h : ValidChar p) (t : Bytes) :
    chars (p ++ t) = p :: chars t :=
  pieces_append h.isWord t

/-- A valid character is not empty. -/
theorem ValidChar.length_pos {p : Bytes} (h : ValidChar p) : 0 < p.length := by
  obtain ⟨a, rest, rfl, -, -⟩ := h.wellFormed.lead
  exact Nat.succ_pos _

/-! ## Validation -/

theorem valid_nil : Valid [] := ⟨[], by simp, rfl⟩

theorem valid_append {p t : Bytes} (hp : ValidChar p) : Valid (p ++ t) ↔ Valid t := by
  constructor
  · rintro ⟨ps, hps, heq⟩
    cases ps with
    | nil =>
        have := hp.length_pos
        have hlen := congrArg List.length heq
        rw [List.flatten_nil, List.length_nil, List.length_append] at hlen
        omega
    | cons q qs =>
        obtain ⟨rfl, rfl⟩ := isWord_prefix_unique hp.isWord
          (hps q List.mem_cons_self).isWord heq
        exact ⟨qs, fun r hr => hps r (List.mem_cons_of_mem p hr), rfl⟩
  · rintro ⟨ps, hps, rfl⟩
    exact ⟨p :: ps, List.forall_mem_cons.mpr ⟨hp, hps⟩, rfl⟩

/-- A valid string begins with a valid character. -/
theorem exists_validChar_of_valid {t : Bytes} (ht : t ≠ []) (h : Valid t) :
    ∃ p rest, t = p ++ rest ∧ ValidChar p := by
  obtain ⟨ps, hps, rfl⟩ := h
  cases ps with
  | nil => exact absurd rfl ht
  | cons p ps => exact ⟨p, ps.flatten, rfl, hps p List.mem_cons_self⟩

/-- The iterator and the check stay in step on a valid string, and come to a character
that is not valid in any other one. -/
theorem marks_valid_iff (pre t : Bytes) :
    (∀ m ∈ marks (pre.length + 1) true (chars t),
      m.2 = true ∧ isvalid (pre ++ t) m.1 = true) ↔ Valid t := by
  induction hn : t.length using Nat.strong_induction_on generalizing pre t with
  | _ n ih =>
      subst hn
      by_cases ht : t = []
      · subst ht
        rw [chars, pieces_nil]
        exact iff_of_true (by simp [marks]) valid_nil
      have hstep {p rest : Bytes} (heq : t = p ++ rest) (hp : ValidChar p) :
          (∀ m ∈ marks (pre.length + 1) true (chars t),
            m.2 = true ∧ isvalid (pre ++ t) m.1 = true) ↔ Valid t := by
        subst heq
        have hpos := hp.length_pos
        have hfirst : isvalid (pre ++ (p ++ rest)) (pre.length + 1) = true := by
          rw [isvalid_append]
          exact isvalid_of_validChar hp rest
        have hrest := ih rest.length (by rw [List.length_append]; omega) (pre ++ p) rest rfl
        rw [index_append, List.append_assoc] at hrest
        rw [chars_append_of_validChar hp, marks, hp.startsChar, List.forall_mem_cons, hrest,
          valid_append hp]
        exact and_iff_right ⟨rfl, hfirst⟩
      constructor
      · intro h
        have hfirst := h (pre.length + 1, true) (by
          rw [marks_eq_cons _ _ (chars_ne_nil ht)]
          exact List.mem_cons_self)
        rw [isvalid_append] at hfirst
        obtain ⟨p, rest, heq, hp⟩ := exists_validChar_of_isvalid hfirst.2
        exact (hstep heq hp).mp h
      · intro h
        obtain ⟨p, rest, heq, hp⟩ := exists_validChar_of_valid ht h
        exact (hstep heq hp).mpr h

theorem forM_eq_ok_iff {α : Type} {ε : Type} (f : α → Except ε Unit) (l : List α) :
    l.forM f = .ok () ↔ ∀ a ∈ l, f a = .ok () := by
  induction l with
  | nil => simp [pure, Except.pure]
  | cons a l ih =>
      change (f a >>= fun _ => l.forM f) = .ok () ↔ _
      rw [List.forall_mem_cons, ← ih]
      cases h : f a with
      | error e => simp [bind, Except.bind]
      | ok _ => simp [bind, Except.bind]

/-- Validation accepts exactly the strings of well-formed characters other than the two
that are no characters. -/
theorem validate_eq_ok_iff (s : Bytes) : validate s = .ok () ↔ Valid s := by
  have hloop : validate s = (marks 1 true (chars s)).forM fun m =>
      if ¬ m.2 ∨ ¬ isvalid s m.1 then
        throw (.message s!"invalid utf8 char at #{m.1}")
      else pure () := by
    rw [validate, byteIndices_eq]
    rfl
  rw [hloop, forM_eq_ok_iff, ← marks_valid_iff [] s]
  apply forall₂_congr
  intro m _
  cases hm : m.2 <;> cases hv : isvalid s m.1 <;>
    simp [hv, throw, throwThe, MonadExceptOf.throw, pure, Except.pure]

end LuaAttic.Utf8
