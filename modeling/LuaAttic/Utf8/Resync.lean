import Mathlib.Data.List.Infix
import LuaAttic.Utf8.Validity

/-!
# Finding the valid characters of any string

A decoder that goes on by one byte where no valid character begins finds every valid
character of a string, since the bytes of a character after its first one cannot start
another.  The pieces of the string are cut by their first bytes alone, and so a piece can
take in the bytes of valid characters that begin inside of it.
-/

namespace LuaAttic.Utf8

open LuaAttic.Lua LuaAttic.Support

/-- The characters found by taking a valid character where one begins, and going on by
one byte where none does. -/
def resync : Bytes → List Bytes
  | [] => []
  | c :: u =>
      if isvalid (c :: u) 1 then
        (c :: u.take (charLength c - 1)) :: resync (u.drop (charLength c - 1))
      else resync u
termination_by s => s.length
decreasing_by
  · simp only [List.length_drop, List.length_cons]
    omega
  · exact Nat.lt_succ_self _

/-- The valid characters that begin at any byte of a string. -/
def starts : Bytes → List Bytes
  | [] => []
  | c :: u =>
      if isvalid (c :: u) 1 then (c :: u.take (charLength c - 1)) :: starts u else starts u

/-- The pieces of a string that are valid characters. -/
def kept (s : Bytes) : List Bytes := (chars s).filter fun p => isvalid p 1

/-- After whole characters comes a byte that stands for a character of some length, and a
valid character begins before that length is over. -/
def SwallowsValid (s : Bytes) : Prop :=
  ∃ w c u t, s = w ++ c :: (u ++ t) ∧ Whole w ∧ 1 + u.length < charLength c ∧
    isvalid t 1 = true

/-! ## Valid characters do not overlap -/

/-- The bytes of a well-formed sequence after the first cannot start a character. -/
theorem WellFormed.not_canStart {a : UInt8} {rest : Bytes} (h : WellFormed (a :: rest)) :
    ∀ b ∈ rest, ¬ CanStart b := by
  obtain ⟨row, hrow, hp⟩ := h
  have hrange : ∀ range ∈ row.tail, (0x80 : UInt8).toNat ≤ range.1.toNat ∧
      range.2.toNat ≤ (0xBF : UInt8).toNat := by
    simp only [wellFormedRows, List.mem_cons, List.not_mem_nil, or_false] at hrow
    rcases hrow with rfl | rfl | rfl | rfl | rfl | rfl | rfl | rfl | rfl <;> simp
  cases row with
  | nil => cases hp
  | cons range row =>
      have hrest := (List.forall₂_cons.mp hp).2
      intro b hb
      obtain ⟨k, hk, rfl⟩ := List.getElem_of_mem hb
      have hk' : k < row.length := by
        rw [← hrest.length_eq]
        exact hk
      have hin := hrest.get hk hk'
      have := hrange _ (List.getElem_mem hk')
      simp only [CanStart, UInt8.le_iff_toNat_le, UInt8.reduceToNat, List.get_eq_getElem] at *
      omega

theorem isvalid_of_not_canStart {b : UInt8} (h : ¬ CanStart b) (t : Bytes) :
    isvalid (b :: t) 1 = false := by
  rw [Bool.eq_false_iff]
  intro hvalid
  obtain ⟨p, rest, heq, hp⟩ := exists_validChar_of_isvalid hvalid
  obtain ⟨a, q, rfl, hstart, -⟩ := hp.wellFormed.lead
  obtain rfl : b = a := by simpa using congrArg List.head? heq
  exact h hstart

theorem starts_of_not_canStart {r : Bytes} (h : ∀ b ∈ r, ¬ CanStart b) (t : Bytes) :
    starts (r ++ t) = starts t := by
  induction r with
  | nil => rfl
  | cons b r ih =>
      obtain ⟨hb, hr⟩ := List.forall_mem_cons.mp h
      rw [List.cons_append, starts, isvalid_of_not_canStart hb, if_neg Bool.false_ne_true, ih hr]

theorem ValidChar.take_eq {c : UInt8} {r : Bytes} (h : ValidChar (c :: r)) (t : Bytes) :
    (r ++ t).take (charLength c - 1) = r ∧ (r ++ t).drop (charLength c - 1) = t := by
  have hword : r.length + 1 = charLength c := h.isWord
  have hlen : charLength c - 1 = r.length := by omega
  rw [hlen, List.take_left, List.drop_left]
  exact ⟨rfl, rfl⟩

theorem starts_append_of_validChar {p : Bytes} (h : ValidChar p) (t : Bytes) :
    starts (p ++ t) = p :: starts t := by
  have hvalid := isvalid_of_validChar h t
  obtain ⟨c, r, rfl, -, -⟩ := h.wellFormed.lead
  rw [List.cons_append] at hvalid ⊢
  rw [starts, if_pos hvalid, (h.take_eq t).1, starts_of_not_canStart h.wellFormed.not_canStart]

theorem validChar_of_mem_starts {s p : Bytes} (h : p ∈ starts s) : ValidChar p := by
  induction s with
  | nil => exact absurd h List.not_mem_nil
  | cons c u ih =>
      rw [starts] at h
      split at h
      · obtain ⟨q, t, heq, hq⟩ := exists_validChar_of_isvalid ‹_›
        obtain ⟨a, r, rfl, -, -⟩ := hq.wellFormed.lead
        obtain ⟨rfl, rfl⟩ : c = a ∧ u = r ++ t := by simpa using heq
        rw [(hq.take_eq t).1] at h
        obtain rfl | h := List.mem_cons.mp h
        · exact hq
        · exact ih h
      · exact ih h

/-- The decoder finds every valid character of the string. -/
theorem resync_eq_starts (s : Bytes) : resync s = starts s := by
  induction s using resync.induct with
  | case1 => rw [resync, starts]
  | case2 c u hvalid ih =>
      obtain ⟨p, t, heq, hp⟩ := exists_validChar_of_isvalid hvalid
      obtain ⟨a, r, rfl, -, -⟩ := hp.wellFormed.lead
      obtain ⟨rfl, rfl⟩ : c = a ∧ u = r ++ t := by simpa using heq
      rw [(hp.take_eq t).2] at ih
      have hall := starts_append_of_validChar hp t
      rw [List.cons_append] at hall
      rw [resync, if_pos hvalid, (hp.take_eq t).1, (hp.take_eq t).2, ih, hall]
  | case3 c u hvalid ih => rw [resync, if_neg hvalid, starts, if_neg hvalid, ih]

/-- The characters that begin in a first part of the string come before the others. -/
theorem exists_starts_append (u t : Bytes) :
    ∃ l, starts (u ++ t) = l ++ starts t ∧
      (l = [] ↔ ∀ v, v ≠ [] → v <:+ u → isvalid (v ++ t) 1 = false) := by
  induction u with
  | nil =>
      refine ⟨[], rfl, iff_of_true rfl ?_⟩
      intro v hv hsuffix
      exact absurd (List.suffix_nil.mp hsuffix) hv
  | cons c u ih =>
      obtain ⟨l, hl, hnil⟩ := ih
      rw [List.cons_append, starts, hl]
      by_cases hvalid : isvalid (c :: (u ++ t)) 1 = true
      · rw [if_pos hvalid]
        refine ⟨_, (List.cons_append).symm, iff_of_false (List.cons_ne_nil _ _) ?_⟩
        intro h
        have hnot := h (c :: u) (List.cons_ne_nil c u) List.suffix_rfl
        exact Bool.false_ne_true (hnot.symm.trans hvalid)
      · rw [if_neg hvalid]
        refine ⟨l, rfl, hnil.trans ?_⟩
        constructor
        · intro h v hv hsuffix
          obtain rfl | hsuffix := List.suffix_cons_iff.mp hsuffix
          · rw [← Bool.not_eq_true]
            exact hvalid
          · exact h v hv hsuffix
        · intro h v hv hsuffix
          exact h v hv (hsuffix.trans (List.suffix_cons c u))

/-! ## Pieces and what they take in -/

section FirstPiece

variable {c : UInt8} {u t : Bytes}

/-- The check of a piece is the check of what begins there. -/
theorem FirstPiece.isvalid_eq (h : FirstPiece c u t) :
    isvalid (c :: u ++ t) 1 = isvalid (c :: u) 1 := by
  rw [Bool.eq_iff_iff]
  constructor
  · intro hvalid
    obtain ⟨p, rest, heq, hp⟩ := exists_validChar_of_isvalid hvalid
    have hchars := h.chars
    rw [heq, chars_append_of_validChar hp, List.cons.injEq] at hchars
    rw [← hchars.1, ← List.append_nil p]
    exact isvalid_of_validChar hp []
  · intro hvalid
    obtain ⟨p, rest, heq, hp⟩ := exists_validChar_of_isvalid hvalid
    rw [heq, List.append_assoc]
    exact isvalid_of_validChar hp _

theorem not_swallowsValid_nil : ¬ SwallowsValid [] := by
  rintro ⟨w, c, u, t, heq, -⟩
  simp at heq

/-- What a piece takes in begins after its first byte. -/
theorem FirstPiece.swallowsValid_iff (h : FirstPiece c u t) :
    SwallowsValid (c :: u ++ t) ↔
      (∃ v, v ≠ [] ∧ v <:+ u ∧ isvalid (v ++ t) 1 = true) ∨ SwallowsValid t := by
  constructor
  · rintro ⟨w, d, u', t', heq, hw, hlt, ht'⟩
    obtain ⟨rfl, rfl, hu⟩ | ⟨w', hw', rfl⟩ := h.split heq hw
    · left
      obtain ⟨v, rfl, rfl⟩ | ⟨v, rfl, rfl⟩ := List.append_eq_append_iff.mp hu
      · -- the piece is shorter than the first byte tells only at the end of the string
        obtain hlen | ⟨ht, -⟩ := h.whole
        · rw [List.length_append] at hlt
          rw [List.length_cons] at hlen
          omega
        · obtain ⟨rfl, rfl⟩ := List.append_eq_nil_iff.mp ht
          exact absurd ht' (by rw [isvalid_nil]; exact Bool.false_ne_true)
      · refine ⟨v, ?_, List.suffix_append _ _, ht'⟩
        rintro rfl
        obtain hlen | ⟨rfl, -⟩ := h.whole
        · rw [List.append_nil, List.length_cons] at hlen
          omega
        · exact absurd ht' (by rw [List.nil_append, isvalid_nil]; exact Bool.false_ne_true)
    · exact .inr ⟨w', d, u', t', rfl, hw', hlt, ht'⟩
  · rintro (⟨v, hv, ⟨u', rfl⟩, hvalid⟩ | ⟨w, d, u', t', rfl, hw, hlt, ht'⟩)
    · have hpos := List.length_pos_of_ne_nil hv
      have hle := h.length_le
      rw [List.length_cons, List.length_append] at hle
      exact ⟨[], c, u', v ++ t, by simp, .nil, by omega, hvalid⟩
    · exact ⟨c :: u ++ w, d, u', t', by simp, h.append (by simp) hw, hlt, ht'⟩

theorem FirstPiece.kept_eq (h : FirstPiece c u t) :
    kept (c :: u ++ t) = (if isvalid (c :: u) 1 then [c :: u] else []) ++ kept t := by
  rw [kept, h.chars, List.filter_cons]
  split <;> rfl

theorem FirstPiece.starts_eq (h : FirstPiece c u t) :
    starts (c :: u ++ t) = (if isvalid (c :: u) 1 then [c :: u] else []) ++ starts (u ++ t) := by
  rw [← h.isvalid_eq, List.cons_append, starts]
  by_cases hvalid : isvalid (c :: (u ++ t)) 1 = true
  · obtain ⟨p, rest, heq, hp⟩ := exists_validChar_of_isvalid hvalid
    have hchars := h.chars
    rw [List.cons_append, heq, chars_append_of_validChar hp, List.cons.injEq] at hchars
    obtain rfl := hchars.1
    rw [if_pos hvalid, if_pos hvalid, (hp.take_eq t).1]
    rfl
  · rw [if_neg hvalid, if_neg hvalid]
    rfl

end FirstPiece

/-- The pieces that are valid are among the valid characters, and are all of them exactly
when no piece takes in one. -/
theorem kept_starts (s : Bytes) :
    (kept s).Sublist (starts s) ∧ (starts s = kept s ↔ ¬ SwallowsValid s) := by
  induction hn : s.length using Nat.strong_induction_on generalizing s with
  | _ n ih =>
      subst hn
      cases s with
      | nil => exact ⟨by simp [kept, chars], by simp [kept, chars, starts, not_swallowsValid_nil]⟩
      | cons c r =>
          obtain ⟨u, t, heq, hpiece⟩ := exists_firstPiece c r
          obtain ⟨l, hl, hnil⟩ := exists_starts_append u t
          have hlt : t.length < (c :: r).length := by
            rw [heq, List.length_append, List.length_cons]
            omega
          obtain ⟨hsub, hiff⟩ := ih _ hlt t rfl
          rw [heq, hpiece.kept_eq, hpiece.starts_eq, hpiece.swallowsValid_iff, hl]
          refine ⟨(hsub.trans (List.sublist_append_right l _)).append_left _, ?_⟩
          rw [List.append_right_inj, not_or, ← hiff]
          constructor
          · intro hall
            have hle := hsub.length_le
            have hlen := congrArg List.length hall
            rw [List.length_append] at hlen
            have hl0 : l = [] := List.eq_nil_of_length_eq_zero (by omega)
            rw [hl0, List.nil_append] at hall
            refine ⟨?_, hall⟩
            rintro ⟨v, hv, hsuffix, hvalid⟩
            exact Bool.false_ne_true ((hnil.mp hl0 v hv hsuffix).symm.trans hvalid)
          · rintro ⟨hnone, hall⟩
            have hl0 : l = [] := by
              apply hnil.mpr
              intro v hv hsuffix
              rw [Bool.eq_false_iff]
              exact fun hvalid => hnone ⟨v, hv, hsuffix, hvalid⟩
            rw [hl0, List.nil_append, hall]

theorem resync_eq_kept_iff (s : Bytes) : resync s = kept s ↔ ¬ SwallowsValid s := by
  rw [resync_eq_starts]
  exact (kept_starts s).2

end LuaAttic.Utf8
