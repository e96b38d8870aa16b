import Mathlib.Tactic.Ring
import LuaAttic.Support.LeadWords
import LuaAttic.Utf8.Iteration

/-!
# The indices of the characters of a string cut it into pieces

The pieces between consecutive indices put together are the string, and a byte
that cannot start a character is a piece of its own.  All indices lie in the
string unless it ends in such a byte: after that byte the iteration goes on to
the index past the end, and `len` counts one character too many.
-/

namespace LuaAttic.Utf8

open LuaAttic.Lua LuaAttic.Support

/-! ## Covering a string -/

/-- The pieces of a string that start at the given indices. -/
def cut (s : Bytes) : List Int → List Bytes
  | [] => []
  | [i] => [subFrom s i]
  | i :: j :: l => sub s i (j - 1) :: cut s (j :: l)

/-- The indices cut the string into its characters. -/
structure Covers (s : Bytes) (l : List Int) : Prop where
  increasing : l.Pairwise (· < ·)
  within : ∀ i ∈ l, 1 ≤ i ∧ i ≤ s.length
  starts : s ≠ [] → l.head? = some 1
  concat : (cut s l).flatten = s
  alone : ∀ p ∈ cut s l, ∀ c ∈ p.head?, ¬ CanStart c → p = [c]

/-- The iteration over a string covers it, and its length is the number of
pieces. -/
def Covered (s : Bytes) : Prop :=
  ∃ l, byteIndices s = .ok l ∧ Covers s (l.map Prod.fst) ∧
    len s = .ok (cut s (l.map Prod.fst)).length

theorem length_cut (s : Bytes) (l : List Int) : (cut s l).length = l.length := by
  induction l with
  | nil => rfl
  | cons i l ih =>
      cases l with
      | nil => rfl
      | cons j l => simpa [cut] using ih

/-! ## Strings that end in a stray byte -/

/-- The strings made of whole characters and of bytes that stand alone. -/
inductive Whole : Bytes → Prop
  | nil : Whole []
  | cons {c : UInt8} {rest tail : Bytes} :
      (c :: rest).length = charLength c → Whole tail →
      Whole (c :: rest ++ tail)

/-- After whole characters the string ends in a byte that cannot start one. -/
def EndsStray (s : Bytes) : Prop :=
  ∃ w c, s = w ++ [c] ∧ Whole w ∧ ¬ CanStart c

section EndsStray

variable {c : UInt8} {rest tail : Bytes}

theorem endsStray_singleton (h : ¬ CanStart c) : EndsStray [c] :=
  ⟨[], c, rfl, Whole.nil, h⟩

/-- A character that is cut off or just fits is the end of the string. -/
theorem not_endsStray_of_length_le (hc : CanStart c)
    (h : (c :: rest).length ≤ charLength c) : ¬ EndsStray (c :: rest) := by
  rintro ⟨w, d, heq, hw, hd⟩
  cases hw with
  | nil =>
      obtain ⟨rfl, -⟩ : c = d ∧ rest = [] := by simpa using heq
      exact hd hc
  | @cons e chunk tail hlen _ =>
      have hce : c = e := by simpa using congrArg List.head? heq
      have hle := congrArg List.length heq
      rw [hce] at h
      simp only [List.length_append, List.length_cons, List.length_nil] at *
      omega

theorem endsStray_append_iff (h : (c :: rest).length = charLength c)
    (htail : tail ≠ []) : EndsStray (c :: rest ++ tail) ↔ EndsStray tail := by
  constructor
  · rintro ⟨w, d, heq, hw, hd⟩
    cases hw with
    | nil => simp_all
    | @cons e chunk w hlen hw =>
        have hce : c = e := by simpa using congrArg List.head? heq
        have hsame : (c :: rest).length = (e :: chunk).length := by
          rw [h, hlen, hce]
        rw [List.append_assoc] at heq
        obtain ⟨-, heq⟩ := List.append_inj heq hsame
        exact ⟨w, d, heq, hw, hd⟩
  · rintro ⟨w, d, rfl, hw, hd⟩
    exact ⟨c :: rest ++ w, d, by simp, Whole.cons h hw, hd⟩

end EndsStray

/-! ## The iteration over the rest of a string -/

section Rest

variable {pre chunk t : Bytes}

theorem byte_append (pre : Bytes) (c : UInt8) (u : Bytes) :
    byte (pre ++ c :: u) (pre.length + 1) = some c := by
  have hrel : relIndex (pre ++ c :: u) (pre.length + 1) = pre.length + 1 :=
    if_pos (by omega)
  rw [byte, hrel, byteAt, if_pos (by omega)]
  simp

theorem subFrom_append (pre t : Bytes) :
    subFrom (pre ++ t) (pre.length + 1) = t := by
  rw [subFrom_drop _ (by omega)]
  simp

theorem sub_append (pre chunk t : Bytes) :
    sub (pre ++ (chunk ++ t)) (pre.length + 1) (pre.length + chunk.length) =
      chunk := by
  have hto : ((pre.length : Int) + chunk.length).toNat =
      (pre ++ chunk).length := by
    rw [List.length_append]
    omega
  rw [sub_eq_take_drop _ (by omega) (by omega), hto, ← List.append_assoc,
    List.take_left]
  simp

/-- The indices cut a rest `t` of the string, and lie in the string unless it
ends in a stray byte. -/
structure CutsRest (s t : Bytes) (l : List Int) : Prop where
  increasing : l.Pairwise (· < ·)
  concat : (cut s l).flatten = t
  alone : ∀ p ∈ cut s l, ∀ c ∈ p.head?, ¬ CanStart c → p = [c]
  within : (∀ i ∈ l, i ≤ s.length) ↔ ¬ EndsStray t

/-- The last character of a string, whole or cut off. -/
theorem cutsRest_last {c : UInt8} {rest : Bytes} (hc : CanStart c)
    (h : (c :: rest).length ≤ charLength c) :
    CutsRest (pre ++ c :: rest) (c :: rest) [(pre.length + 1 : Int)] where
  increasing := List.pairwise_singleton _ _
  concat := by
    simp only [cut, subFrom_append, List.flatten_cons, List.flatten_nil,
      List.append_nil]
  alone := by
    intro p hp d hd hnot
    rw [cut, List.mem_singleton, subFrom_append] at hp
    subst hp
    obtain rfl : c = d := by simpa using hd
    exact absurd hc hnot
  within := by
    refine iff_of_true ?_ (not_endsStray_of_length_le hc h)
    simp

/-- The piece up to the next index. -/
theorem cut_append (pre chunk t : Bytes) (l : List Int) :
    cut (pre ++ (chunk ++ t))
        ((pre.length + 1 : Int) :: (pre.length + chunk.length + 1) :: l) =
      chunk ::
        cut (pre ++ (chunk ++ t)) ((pre.length + chunk.length + 1 : Int) :: l) := by
  rw [cut, add_sub_cancel_right, sub_append]

/-- A stray byte at the end is followed by the index past the end. -/
theorem cutsRest_stray {c : UInt8} (hc : ¬ CanStart c) :
    CutsRest (pre ++ [c]) [c] [(pre.length + 1 : Int), pre.length + 1 + 1] := by
  have hcut : cut (pre ++ [c]) [(pre.length + 1 : Int), pre.length + 1 + 1] =
      [[c], []] := by
    have happ := cut_append pre [c] [] []
    have hpast := subFrom_append (pre ++ [c]) []
    simp only [List.append_nil, List.length_append, List.length_singleton,
      Nat.cast_add, Nat.cast_one] at happ hpast
    rw [happ, cut, hpast]
  constructor
  · simp
  · rw [hcut]
    rfl
  · rw [hcut]
    simp
  · refine iff_of_false ?_ (not_not.mpr (endsStray_singleton hc))
    simp

theorem cutsRest_append {l : List Int} (hchunk : chunk ≠ [])
    (halone : ∀ c ∈ chunk.head?, ¬ CanStart c → chunk = [c])
    (hends : EndsStray (chunk ++ t) ↔ EndsStray t)
    (h : CutsRest (pre ++ (chunk ++ t)) t
      ((pre.length + chunk.length + 1 : Int) :: l)) :
    CutsRest (pre ++ (chunk ++ t)) (chunk ++ t)
      ((pre.length + 1 : Int) :: (pre.length + chunk.length + 1) :: l) := by
  have hpos := List.length_pos_of_ne_nil hchunk
  constructor
  · have hafter := List.pairwise_cons.mp h.increasing
    refine List.pairwise_cons.mpr ⟨?_, h.increasing⟩
    intro i hi
    obtain rfl | hi := List.mem_cons.mp hi
    · omega
    · have hlt := hafter.1 i hi
      omega
  · rw [cut_append, List.flatten_cons, h.concat]
  · rw [cut_append]
    intro p hp
    obtain rfl | hp := List.mem_cons.mp hp
    · exact halone
    · exact h.alone p hp
  · rw [hends, ← h.within, List.forall_mem_cons]
    refine and_iff_right ?_
    simp only [List.length_append]
    omega

variable (pre) in
/-- A step goes over one character when the string goes on after it. -/
theorem nextRaw_append {c : UInt8} {rest : Bytes}
    (hlen : (c :: rest).length = charLength c) (ht : t ≠ []) :
    nextRaw (pre ++ (c :: rest ++ t)) (some (pre.length + 1)) =
      .ok (some (pre.length + (c :: rest).length + 1, decide (CanStart c))) := by
  have hpos := List.length_pos_of_ne_nil ht
  have hnext : (pre.length + 1 + charLength c : Int) =
      pre.length + (c :: rest).length + 1 := by omega
  have hi : (pre.length + 1 : Int) ≤ (pre ++ c :: (rest ++ t)).length := by
    simp only [List.length_append, List.length_cons]
    omega
  rw [List.cons_append, nextRaw_of_byte hi (byte_append pre c _), hnext]
  by_cases hc : CanStart c
  · have hin : ¬ (pre.length + (c :: rest).length + 1 : Int) >
        (pre ++ c :: (rest ++ t)).length := by
      simp only [List.length_append, List.length_cons]
      omega
    simp only [hc, if_true, if_neg hin, decide_true]
  · rw [charLength_of_not_canStart hc] at hlen
    simp only [hc, if_false, decide_false, hlen, Nat.cast_one]

/-- From the start of a character the loop cuts the rest of the string. -/
theorem byteIndicesFrom_cutsRest (pre : Bytes) {t : Bytes} (ht : t ≠ []) :
    ∃ l, byteIndicesFrom (pre ++ t) (some (pre.length + 1)) = .ok l ∧
      CutsRest (pre ++ t) t ((pre.length + 1 : Int) :: l.map Prod.fst) := by
  -- By strong induction on the rest; a step moves its first character away.
  induction hn : t.length using Nat.strong_induction_on generalizing pre t with
  | _ n ih =>
      subst hn
      obtain ⟨c, u, rfl⟩ := List.exists_cons_of_ne_nil ht
      have hi : (pre.length + 1 : Int) ≤ (pre ++ c :: u).length := by simp
      by_cases hlast : (c :: u).length ≤ charLength c
      · have hstep := nextRaw_of_byte hi (byte_append pre c u)
        by_cases hc : CanStart c
        · have hpast : (pre.length + 1 + charLength c : Int) >
              (pre ++ c :: u).length := by
            simp only [List.length_append, List.length_cons] at hlast ⊢
            omega
          rw [if_pos hc, if_pos hpast] at hstep
          exact ⟨[], byteIndicesFrom_of_none hstep, cutsRest_last hc hlast⟩
        · obtain rfl : u = [] := by
            rw [charLength_of_not_canStart hc] at hlast
            simpa using hlast
          rw [if_neg hc] at hstep
          have hpast : (pre.length + 1 + 1 : Int) > (pre ++ [c]).length := by
            simp
          exact ⟨[(pre.length + 1 + 1, false)],
            byteIndicesFrom_of_some hstep
              (byteIndicesFrom_of_none (nextRaw_past hpast)),
            cutsRest_stray hc⟩
      · -- The first character ends before the string does.
        have hpos := charLength_pos c
        obtain ⟨rest, t, rfl, hlen⟩ : ∃ rest t, u = rest ++ t ∧
            (c :: rest).length = charLength c := by
          refine ⟨u.take (charLength c - 1), u.drop (charLength c - 1),
            (List.take_append_drop _ _).symm, ?_⟩
          simp only [List.length_cons, List.length_take] at hlast ⊢
          omega
        have htail : t ≠ [] := by
          rintro rfl
          simp only [List.append_nil] at hlast
          omega
        have hstep := nextRaw_append pre hlen htail
        have hidx : ((pre ++ c :: rest).length + 1 : Int) =
            pre.length + (c :: rest).length + 1 := by simp
        obtain ⟨l, hl, hcuts⟩ := ih t.length
          (by simp only [List.length_cons, List.length_append]; omega)
          (pre ++ c :: rest) htail rfl
        rw [List.append_assoc, hidx] at hl hcuts
        refine ⟨_, byteIndicesFrom_of_some hstep hl, ?_⟩
        refine cutsRest_append (List.cons_ne_nil c rest) ?_
          (endsStray_append_iff hlen htail) hcuts
        intro d hd hnot
        obtain rfl : c = d := by simpa using hd
        rw [charLength_of_not_canStart hnot] at hlen
        simpa using hlen

end Rest

/-! ## Covered strings -/

theorem not_endsStray_nil : ¬ EndsStray [] := by
  rintro ⟨w, c, heq, -, -⟩
  simp at heq

theorem byteIndices_nil : byteIndices [] = .ok [] :=
  byteIndicesFrom_of_none rfl

/-- The loop always ends; over a string with bytes it cuts all of it. -/
theorem byteIndices_cutsRest {s : Bytes} (hs : s ≠ []) :
    ∃ l, byteIndices s = .ok ((1, true) :: l) ∧
      CutsRest s s (1 :: l.map Prod.fst) := by
  obtain ⟨l, hl, hcuts⟩ := byteIndicesFrom_cutsRest [] hs
  have hfirst : nextRaw s none = .ok (some (1, true)) :=
    if_neg (by simpa using hs)
  exact ⟨l, byteIndicesFrom_of_some hfirst hl, hcuts⟩

theorem len_of_byteIndices {s : Bytes} {l : List (Int × Bool)}
    (h : byteIndices s = .ok l) : len s = .ok l.length := by
  have hcount (n : Int) :
      l.foldl (fun len _ => len + 1) n = n + l.length := by
    clear h
    induction l generalizing n with
    | nil => simp
    | cons p l ih =>
        rw [List.foldl_cons, ih, List.length_cons]
        omega
  simp only [len, h, bind, Except.bind, pure, Except.pure, hcount, zero_add]

/-- The iteration covers the string exactly when the string does not end in a
byte that cannot start a character. -/
theorem covered_iff (s : Bytes) : Covered s ↔ ¬ EndsStray s := by
  by_cases hs : s = []
  · subst hs
    refine iff_of_true ⟨[], byteIndices_nil, ?_, ?_⟩ not_endsStray_nil
    · exact ⟨List.Pairwise.nil, by simp, by simp, rfl, by simp [cut]⟩
    · rw [len_of_byteIndices byteIndices_nil]
      rfl
  · obtain ⟨l, hl, hcuts⟩ := byteIndices_cutsRest hs
    constructor
    · rintro ⟨l', hl', hcov, -⟩
      obtain rfl : (1, true) :: l = l' := by simpa using hl.symm.trans hl'
      exact hcuts.within.mp fun i hi => (hcov.within i hi).2
    · intro hends
      refine ⟨_, hl, ⟨hcuts.increasing, ?_, fun _ => rfl, hcuts.concat,
        hcuts.alone⟩, ?_⟩
      · -- the indices increase from one
        intro i hi
        refine ⟨?_, hcuts.within.mpr hends i hi⟩
        obtain rfl | hi := List.mem_cons.mp hi
        · exact le_rfl
        · exact ((List.pairwise_cons.mp hcuts.increasing).1 i hi).le
      · rw [len_of_byteIndices hl, length_cut, List.length_map]

/-- A stray byte alone is iterated as two characters. -/
theorem stray_not_covered :
    byteIndices [0xFF] = .ok [(1, true), (2, false)] ∧ len [0xFF] = .ok 2 ∧
      ¬ Covered [0xFF] := by
  have hl : byteIndices [0xFF] = .ok [(1, true), (2, false)] :=
    byteIndicesFrom_of_some rfl
      (byteIndicesFrom_of_some rfl (byteIndicesFrom_of_none rfl))
  refine ⟨hl, len_of_byteIndices hl, ?_⟩
  rintro ⟨l, hl', hcov, -⟩
  obtain rfl : [(1, true), (2, false)] = l := by simpa using hl.symm.trans hl'
  have hle := (hcov.within 2 (by simp)).2
  simp at hle

/-!
## What the iteration yields

The iteration yields the index of each piece of the string, as the first bytes tell
their lengths, with a flag that says whether the byte before could start a character.
After a stray byte at the end it yields the index past the end as well.
-/

/-- The pieces of a string, whole, cut off or stray. -/
def chars (s : Bytes) : List Bytes := pieces charLength s

/-- The first byte can start a character. -/
def startsChar (p : Bytes) : Bool := p.head?.all fun c => decide (CanStart c)

/-- What the iteration yields from the index `i` on, with the flag for what is before. -/
def marks (i : Int) (valid : Bool) : List Bytes → List (Int × Bool)
  | [] => if valid then [] else [(i, valid)]
  | p :: ps => (i, valid) :: marks (i + p.length) (startsChar p) ps

theorem chars_append {c : UInt8} {rest : Bytes} (h : (c :: rest).length = charLength c)
    (t : Bytes) : chars (c :: rest ++ t) = (c :: rest) :: chars t := by
  apply pieces_append
  exact h

/-- The end of the string cuts the last piece. -/
theorem chars_last {c : UInt8} {u : Bytes} (h : (c :: u).length ≤ charLength c) :
    chars (c :: u) = [c :: u] := by
  rw [List.length_cons] at h
  rw [chars, pieces_cons, List.take_of_length_le (by omega), List.drop_of_length_le (by omega),
    pieces_nil]

theorem exists_split {c : UInt8} {u : Bytes} (h : charLength c < (c :: u).length) :
    ∃ rest t, u = rest ++ t ∧ (c :: rest).length = charLength c ∧ t ≠ [] := by
  have hpos := charLength_pos c
  rw [List.length_cons] at h
  refine ⟨u.take (charLength c - 1), u.drop (charLength c - 1),
    (List.take_append_drop _ _).symm, ?_, ?_⟩
  · rw [List.length_cons, List.length_take]
    omega
  · rw [Ne, List.drop_eq_nil_iff]
    omega

/-! ### The first piece -/

/-- A string begins with a piece: a whole one, or the last one. -/
structure FirstPiece (c : UInt8) (u t : Bytes) : Prop where
  chars : chars (c :: u ++ t) = (c :: u) :: chars t
  whole : (c :: u).length = charLength c ∨ (t = [] ∧ (c :: u).length ≤ charLength c)

theorem exists_firstPiece (c : UInt8) (r : Bytes) :
    ∃ u t, c :: r = c :: u ++ t ∧ FirstPiece c u t := by
  by_cases hlast : (c :: r).length ≤ charLength c
  · refine ⟨r, [], (List.append_nil _).symm, ?_, .inr ⟨rfl, hlast⟩⟩
    rw [List.append_nil, chars_last hlast, chars, pieces_nil]
  · obtain ⟨u, t, rfl, hlen, -⟩ := exists_split (not_le.mp hlast)
    exact ⟨u, t, rfl, chars_append hlen t, .inl hlen⟩

section FirstPiece

variable {c d : UInt8} {u t v w : Bytes}

theorem FirstPiece.length_le (h : FirstPiece c u t) : (c :: u).length ≤ charLength c :=
  h.whole.elim le_of_eq And.right

/-- A byte that cannot start a character is a piece. -/
theorem FirstPiece.eq_nil (h : FirstPiece c u t) (hc : ¬ CanStart c) : u = [] := by
  have hle := h.length_le
  rw [charLength_of_not_canStart hc, List.length_cons] at hle
  exact List.eq_nil_of_length_eq_zero (by omega)

theorem FirstPiece.append (h : FirstPiece c u t) (ht : t ≠ []) (hw : Whole w) :
    Whole (c :: u ++ w) :=
  .cons (h.whole.resolve_right fun hlast => ht hlast.1) hw

/-- What stands after whole characters stands at the first piece or after it. -/
theorem FirstPiece.split (h : FirstPiece c u t) (heq : c :: u ++ t = w ++ d :: v)
    (hw : Whole w) :
    (w = [] ∧ c = d ∧ u ++ t = v) ∨ ∃ w', Whole w' ∧ t = w' ++ d :: v := by
  cases hw with
  | nil =>
      left
      simpa using heq
  | @cons e chunk w' hlen hw' =>
      right
      have hce : c = e := by simpa using congrArg List.head? heq
      obtain hwhole | ⟨rfl, hlast⟩ := h.whole
      · have hsame : (c :: u).length = (e :: chunk).length := by
          rw [hwhole, hlen, hce]
        rw [List.append_assoc] at heq
        exact ⟨w', hw', (List.append_inj heq hsame).2⟩
      · -- the last piece is too short for a character and more
        have hle := congrArg List.length heq
        rw [hce] at hlast
        simp only [List.length_append, List.length_cons, List.length_nil] at *
        omega

end FirstPiece

/-! ### The iteration -/

/-- The index after a part of the string. -/
theorem index_append (pre p : Bytes) :
    ((pre ++ p).length + 1 : Int) = pre.length + 1 + p.length := by
  rw [List.length_append]
  push_cast
  ring

theorem chars_ne_nil {t : Bytes} (ht : t ≠ []) : chars t ≠ [] := by
  intro h
  apply ht
  have hflat : (chars t).flatten = t := flatten_pieces t
  rw [← hflat, h]
  rfl

theorem marks_eq_cons (i : Int) (valid : Bool) {ps : List Bytes} (h : ps ≠ []) :
    marks i valid ps = (i, valid) :: (marks i valid ps).tail := by
  obtain ⟨p, ps, rfl⟩ := List.exists_cons_of_ne_nil h
  rfl

/-- From the start of a piece on, the loop yields what follows it. -/
theorem byteIndicesFrom_eq (pre : Bytes) {t : Bytes} (ht : t ≠ []) (valid : Bool) :
    byteIndicesFrom (pre ++ t) (some (pre.length + 1)) =
      .ok (marks (pre.length + 1) valid (chars t)).tail := by
  -- By strong induction on the rest; a step moves its first character away.
  induction hn : t.length using Nat.strong_induction_on generalizing pre t valid with
  | _ n ih =>
      subst hn
      obtain ⟨c, u, rfl⟩ := List.exists_cons_of_ne_nil ht
      have hi : (pre.length + 1 : Int) ≤ (pre ++ c :: u).length := by simp
      by_cases hlast : (c :: u).length ≤ charLength c
      · have hstep := nextRaw_of_byte hi (byte_append pre c u)
        rw [chars_last hlast]
        by_cases hc : CanStart c
        · have hpast : (pre.length + 1 + charLength c : Int) > (pre ++ c :: u).length := by
            simp only [List.length_append, List.length_cons] at hlast ⊢
            omega
          rw [if_pos hc, if_pos hpast] at hstep
          rw [byteIndicesFrom_of_none hstep]
          simp [marks, startsChar, hc]
        · obtain rfl : u = [] := by
            rw [charLength_of_not_canStart hc] at hlast
            simpa using hlast
          rw [if_neg hc] at hstep
          have hpast : (pre.length + 1 + 1 : Int) > (pre ++ [c]).length := by simp
          rw [byteIndicesFrom_of_some hstep (byteIndicesFrom_of_none (nextRaw_past hpast))]
          simp [marks, startsChar, hc]
      · obtain ⟨rest, t, rfl, hlen, htail⟩ := exists_split (not_le.mp hlast)
        have hstep := nextRaw_append pre hlen htail
        have hidx : ((pre ++ c :: rest).length + 1 : Int) =
            pre.length + (c :: rest).length + 1 := by simp
        have hnext := ih t.length (by simp only [List.length_cons, List.length_append]; omega)
          (pre ++ c :: rest) htail (decide (CanStart c)) rfl
        have hplace : (pre.length + 1 + (c :: rest).length : Int) =
            pre.length + (c :: rest).length + 1 := by omega
        rw [List.append_assoc, hidx] at hnext
        have hall := byteIndicesFrom_of_some hstep hnext
        rw [← marks_eq_cons _ _ (chars_ne_nil htail), List.cons_append] at hall
        rw [hall, ← List.cons_append, chars_append hlen, ← hplace]
        simp [marks, startsChar]

/-- What the iteration over a string yields. -/
theorem byteIndices_eq (s : Bytes) : byteIndices s = .ok (marks 1 true (chars s)) := by
  by_cases hs : s = []
  · subst hs
    rw [byteIndices_nil, chars, pieces_nil]
    rfl
  · have hfirst : nextRaw s none = .ok (some (1, true)) := if_neg (by simpa using hs)
    rw [marks_eq_cons 1 true (chars_ne_nil hs)]
    exact byteIndicesFrom_of_some hfirst (byteIndicesFrom_eq [] hs true)

end LuaAttic.Utf8
