import LuaAttic.Lua.Pattern
import Mathlib.Data.List.Infix

/-!
# Replacing in a text with marks

`gsubM` one match at a time, and what it does to a text in which marks have
been filled in.  Replacing before and after filling in comes to the same when
no match touches what was filled in.
-/

namespace LuaAttic.Lua

/-! ## One match at a time -/

section Steps

variable {m : Type → Type} [Monad m] [LawfulMonad m] {p : Pattern}
  {f : List Bytes → m (Option Bytes)}

theorem gsubM_nil (hp : p.anchored = false) (h : p.matchHere [] = none) :
    gsubM p f [] = pure [] := by
  simp [gsubM, Pattern.pieces, hp, Pattern.piecesFrom, h]

theorem gsubM_char (hp : p.anchored = false) {b : UInt8} {s : Bytes}
    (h : p.matchHere (b :: s) = none) :
    gsubM p f (b :: s) = (b :: ·) <$> gsubM p f s := by
  simp [gsubM, Pattern.pieces, hp, Pattern.piecesFrom, h]

theorem gsubM_hit (hp : p.anchored = false) {w rest : Bytes}
    {values : List Bytes}
    (h : p.matchHere (w ++ rest) = some ⟨w, values, rest⟩) (hw : w ≠ []) :
    gsubM p f (w ++ rest) =
      f values >>= fun e => (e.getD w ++ ·) <$> gsubM p f rest := by
  simp [gsubM, Pattern.pieces, hp, piecesFrom_hit h hw]

/-- A replacement without effects. -/
theorem gsubM_pure (p : Pattern) (f : List Bytes → Option Bytes) (s : Bytes) :
    gsubM p (fun values => (pure (f values) : m (Option Bytes))) s =
      pure (gsub p f s) := by
  unfold gsubM gsub
  induction p.pieces s with
  | nil => simp
  | cons piece l ih =>
      rw [← map_eq_pure_bind] at ih ⊢
      cases piece with
      | char b => simpa using congrArg (([b] ++ ·) <$> ·) ih
      | hit w values =>
          simpa using congrArg (((f values).getD w ++ ·) <$> ·) ih

/-- Where the first character does not match, the pattern does not. -/
theorem matchHere_of_first {c : CharClass} {items : List Item}
    (hp : p.items = .one c :: items) {b : UInt8} (hb : c b = false) (s : Bytes) :
    p.matchHere (b :: s) = none := by
  apply matchHere_eq_none
  simp [hp, matchItems, hb]

theorem gsub_char {g : List Bytes → Option Bytes} (hp : p.anchored = false)
    {b : UInt8} {s : Bytes} (h : p.matchHere (b :: s) = none) :
    gsub p g (b :: s) = b :: gsub p g s := by
  simp [gsub, Pattern.pieces, hp, Pattern.piecesFrom, h]

theorem gsub_hit {g : List Bytes → Option Bytes} (hp : p.anchored = false)
    {w rest : Bytes} {values : List Bytes}
    (h : p.matchHere (w ++ rest) = some ⟨w, values, rest⟩) (hw : w ≠ []) :
    gsub p g (w ++ rest) = (g values).getD w ++ gsub p g rest := by
  simp [gsub, Pattern.pieces, hp, piecesFrom_hit h hw]

end Steps

/-! ## Text that is copied -/

section Copies

variable {m : Type → Type} [Monad m]

/-- Replacing copies `a` where it stands before `rest`: there are no matches in
it, or the function returns nil for them. -/
inductive Copies (p : Pattern) (f : List Bytes → m (Option Bytes)) :
    Bytes → Bytes → Prop
  | done (rest : Bytes) : Copies p f [] rest
  | char {b : UInt8} {a rest : Bytes} (h : p.matchHere (b :: (a ++ rest)) = none)
      (ha : Copies p f a rest) : Copies p f (b :: a) rest
  | kept {w a rest : Bytes} {values : List Bytes}
      (h : p.matchHere (w ++ (a ++ rest)) = some ⟨w, values, a ++ rest⟩)
      (hw : w ≠ []) (hf : f values = pure none) (ha : Copies p f a rest) :
      Copies p f (w ++ a) rest

variable {p : Pattern} {f : List Bytes → m (Option Bytes)}

theorem gsubM_of_copies [LawfulMonad m] (hp : p.anchored = false)
    {a rest : Bytes} (h : Copies p f a rest) :
    gsubM p f (a ++ rest) = (a ++ ·) <$> gsubM p f rest := by
  induction h with
  | done rest => simp
  | char h _ ih => simp [gsubM_char hp h, ih]
  | kept h hw hf _ ih => simp [gsubM_hit hp h hw, hf, ih]

/-- Nothing matches in `a`. -/
theorem Copies.of_no_match {a rest : Bytes}
    (h : ∀ z ∈ a.tails, z ≠ [] → p.matchHere (z ++ rest) = none) :
    Copies p f a rest := by
  induction a with
  | nil => exact .done rest
  | cons b a ih =>
      rw [List.tails, List.forall_mem_cons] at h
      exact .char (h.1 (List.cons_ne_nil b a)) (ih h.2)

end Copies

/-! ## Filling in -/

/-- Put the strings in place of the marks, one after the other. -/
def fill (mark : UInt8) : Bytes → List Bytes → Bytes
  | [], _ => []
  | b :: u, [] => b :: u
  | b :: u, q :: qs =>
      if b = mark then q ++ fill mark u qs else b :: fill mark u (q :: qs)

section Fill

variable (mark : UInt8)

@[simp] theorem fill_nil_left (qs : List Bytes) : fill mark [] qs = [] := by
  cases qs <;> rfl

@[simp] theorem fill_nil_right (u : Bytes) : fill mark u [] = u := by
  cases u <;> rfl

theorem fill_mark (u q : Bytes) (qs : List Bytes) :
    fill mark (mark :: u) (q :: qs) = q ++ fill mark u qs := by
  rw [fill, if_pos rfl]

theorem fill_cons_of_ne {mark b : UInt8} (h : b ≠ mark) (u : Bytes)
    (qs : List Bytes) : fill mark (b :: u) qs = b :: fill mark u qs := by
  cases qs with
  | nil => simp
  | cons q qs => rw [fill, if_neg h]

/-- The strings that are left after the marks of a text. -/
def unused (a : Bytes) (qs : List Bytes) : List Bytes := qs.drop (a.count mark)

theorem fill_append (a u : Bytes) (qs : List Bytes) :
    fill mark (a ++ u) qs = fill mark a qs ++ fill mark u (unused mark a qs) := by
  induction a generalizing qs with
  | nil => simp [unused]
  | cons b a ih =>
      cases qs with
      | nil => simp [unused]
      | cons q qs =>
          by_cases hb : b = mark
          · subst hb
            rw [List.cons_append, fill_mark, fill_mark, ih, List.append_assoc]
            simp [unused]
          · rw [List.cons_append, fill_cons_of_ne hb, fill_cons_of_ne hb, ih]
            simp [unused, List.count_cons_of_ne hb]

theorem fill_of_notMem {a : Bytes} (h : mark ∉ a) (qs : List Bytes) :
    fill mark a qs = a := by
  induction a with
  | nil => simp
  | cons b a ih =>
      rw [List.mem_cons, not_or] at h
      rw [fill_cons_of_ne (Ne.symm h.1), ih h.2]

theorem unused_of_notMem {a : Bytes} (h : mark ∉ a) (qs : List Bytes) :
    unused mark a qs = qs := by
  rw [unused, List.count_eq_zero_of_not_mem h, List.drop_zero]

theorem fill_append_of_notMem {a : Bytes} (h : mark ∉ a) (u : Bytes)
    (qs : List Bytes) : fill mark (a ++ u) qs = a ++ fill mark u qs := by
  rw [fill_append, fill_of_notMem mark h, unused_of_notMem mark h]

theorem mem_fill {c : UInt8} {u : Bytes} {qs : List Bytes}
    (h : c ∈ fill mark u qs) : c ∈ u ∨ ∃ q ∈ qs, c ∈ q := by
  induction u generalizing qs with
  | nil => simp at h
  | cons b u ih =>
      cases qs with
      | nil => exact .inl h
      | cons q qs =>
          by_cases hb : b = mark
          · subst hb
            rw [fill_mark, List.mem_append] at h
            rcases h with h | h
            · exact .inr ⟨q, List.mem_cons_self, h⟩
            · rcases ih h with h | ⟨q', hq', h⟩
              · exact .inl (List.mem_cons_of_mem b h)
              · exact .inr ⟨q', List.mem_cons_of_mem q hq', h⟩
          · rw [fill_cons_of_ne hb, List.mem_cons] at h
            rcases h with rfl | h
            · exact .inl List.mem_cons_self
            · exact (ih h).imp_left (List.mem_cons_of_mem b)

end Fill

/-! ## Replacing what was not filled in -/

section Untouched

variable {ε : Type} (mark : UInt8) (p : Pattern)
  (f : List Bytes → Except ε (Option Bytes))

/-- Replacing in a text and in the text with the strings filled in finds the
same matches, which have no marks and do not touch the strings, nor do marks
come from a replacement.  Anything else is copied in both. -/
inductive Untouched : Bytes → List Bytes → Prop
  | unfilled (u : Bytes) : Untouched u []
  | done (qs : List Bytes) : Untouched [] qs
  | copied {a u : Bytes} {qs : List Bytes} (ha : Copies p f a u)
      (hfill : Copies p f (fill mark a qs) (fill mark u (unused mark a qs)))
      (hu : Untouched u (unused mark a qs)) : Untouched (a ++ u) qs
  | replaced {w u : Bytes} {qs values : List Bytes} (hmark : mark ∉ w)
      (h : p.matchHere (w ++ u) = some ⟨w, values, u⟩)
      (hfill : p.matchHere (w ++ fill mark u qs) =
        some ⟨w, values, fill mark u qs⟩) (hw : w ≠ [])
      (hf : ∀ e, f values = .ok (some e) → mark ∉ e)
      (hu : Untouched u qs) : Untouched (w ++ u) qs

variable {mark p f}

/-- A text that is copied whole, before and after. -/
theorem Untouched.of_copies {a : Bytes} {qs : List Bytes} (h : Copies p f a [])
    (hfill : Copies p f (fill mark a qs) []) : Untouched mark p f a qs := by
  have hall : Copies p f (fill mark a qs) (fill mark [] (unused mark a qs)) := by
    simpa using hfill
  simpa using Untouched.copied h hall (.done _)

/-- It is the same to fill in before and after. -/
theorem gsubM_fill (hp : p.anchored = false) (hnil : p.matchHere [] = none)
    {u : Bytes} {qs : List Bytes} (h : Untouched mark p f u qs) :
    gsubM p f (fill mark u qs) = (fill mark · qs) <$> gsubM p f u := by
  induction h with
  | unfilled u => simp
  | done qs => simp [gsubM_nil hp hnil]
  | @copied a u qs ha hfill hu ih =>
      rw [fill_append, gsubM_of_copies hp hfill, ih, gsubM_of_copies hp ha]
      simp [fill_append]
  | @replaced w u qs values hmark h hfill hw hf hu ih =>
      rw [fill_append_of_notMem mark hmark, gsubM_hit hp hfill hw, ih,
        gsubM_hit hp h hw]
      cases he : f values with
      | error err => rfl
      | ok e =>
          have hmem : mark ∉ e.getD w := by
            cases e with
            | none => exact hmark
            | some e => exact hf e he
          have hbind : ∀ g : Option Bytes → Except ε Bytes,
              (Except.ok e >>= g) = g e := fun _ => rfl
          rw [hbind, hbind]
          simp [fill_append_of_notMem mark hmem]

end Untouched

end LuaAttic.Lua
