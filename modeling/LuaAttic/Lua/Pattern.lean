import LuaAttic.Lua.Chars

/-!
# Patterns

The matcher of the string library.  A pattern is a list of items; a repeated
character is tried as often as possible first (`*`, `+`, `?`) or as rarely as
possible first (`-`), and what it leaves over goes to the items after it.

A string is searched from the left.  `pieces` cuts it into the matches that
`gsub` replaces and the characters that it copies.
-/

namespace LuaAttic.Lua

/-- The items of a pattern. -/
inductive Item
  /-- a single character -/
  | one (c : CharClass)
  /-- `c*` -/
  | star (c : CharClass)
  /-- `c+` -/
  | plus (c : CharClass)
  /-- `c-` -/
  | lazy (c : CharClass)
  /-- `c?` -/
  | opt (c : CharClass)
  /-- `%bxy` -/
  | balance (x y : UInt8)
  /-- `(` -/
  | capStart
  /-- `)` -/
  | capStop
  /-- `$` at the end of the pattern -/
  | atEnd

/-- A pattern; one that starts with `^` is anchored. -/
structure Pattern where
  items : List Item
  anchored : Bool := false

/-- A capture that is still open, with the string where it starts, or what has
been captured. -/
inductive Capture
  | opened (start : Bytes)
  | closed (s : Bytes)

/-! ## Matching at one place -/

section Repeat

variable {α : Type}

/-- As many characters of the class as leave a rest that `k` accepts. -/
def maxExpand (c : CharClass) (k : Bytes → Option α) : Bytes → Option α
  | [] => k []
  | b :: s =>
      if c b then (maxExpand c k s).or (k (b :: s)) else k (b :: s)

/-- As few characters of the class as leave a rest that `k` accepts. -/
def minExpand (c : CharClass) (k : Bytes → Option α) : Bytes → Option α
  | [] => k []
  | b :: s => (k (b :: s)).or (if c b then minExpand c k s else none)

end Repeat

/-- What is left after the bracket that closes the ones still open. -/
def matchBalance (x y : UInt8) : ℕ → Bytes → Option Bytes
  | _, [] => none
  | open_, b :: s =>
      if b = y then
        if open_ = 1 then some s else matchBalance x y (open_ - 1) s
      else if b = x then matchBalance x y (open_ + 1) s
      else matchBalance x y open_ s

/-- Close the last capture that is open; `s` is what is left of the string. -/
def closeLast (s : Bytes) : List Capture → List Capture
  | [] => []
  | .closed w :: l => .closed w :: closeLast s l
  | .opened start :: l =>
      if l.any (fun | .opened _ => true | .closed _ => false) then
        .opened start :: closeLast s l
      else .closed (start.take (start.length - s.length)) :: l

/-- Match the items at the start of a string: what is left of it, and the
captures. -/
def matchItems :
    List Item → List Capture → Bytes → Option (Bytes × List Capture)
  | [], caps, s => some (s, caps)
  | .one c :: p, caps, s =>
      match s with
      | b :: s => if c b then matchItems p caps s else none
      | [] => none
  | .star c :: p, caps, s => maxExpand c (fun s => matchItems p caps s) s
  | .plus c :: p, caps, s =>
      match s with
      | b :: s =>
          if c b then maxExpand c (fun s => matchItems p caps s) s else none
      | [] => none
  | .lazy c :: p, caps, s => minExpand c (fun s => matchItems p caps s) s
  | .opt c :: p, caps, s =>
      match s with
      | b :: s =>
          if c b then (matchItems p caps s).or (matchItems p caps (b :: s))
          else matchItems p caps (b :: s)
      | [] => matchItems p caps []
  | .balance x y :: p, caps, s =>
      match s with
      | b :: s =>
          if b = x then
            match matchBalance x y 1 s with
            | some s => matchItems p caps s
            | none => none
          else none
      | [] => none
  | .capStart :: p, caps, s => matchItems p (caps ++ [.opened s]) s
  | .capStop :: p, caps, s => matchItems p (closeLast s caps) s
  | .atEnd :: p, caps, s => if s = [] then matchItems p caps s else none

/-- The captured strings; an open capture runs to the end of the string. -/
def Capture.value : Capture → Bytes
  | .opened start => start
  | .closed s => s

/-- A match: what it covers, what is left, and its values.  A pattern without
captures captures what it matches. -/
structure Match where
  whole : Bytes
  values : List Bytes
  after : Bytes
  deriving DecidableEq, Repr

/-- Match a pattern at the start of a string. -/
def Pattern.matchHere (p : Pattern) (s : Bytes) : Option Match :=
  (matchItems p.items [] s).map fun r =>
    let whole := s.take (s.length - r.1.length)
    ⟨whole, if r.2 = [] then [whole] else r.2.map Capture.value, r.1⟩

/-! ## Searching -/

/-- The first match in a string, with what stands before it. -/
def Pattern.find (p : Pattern) (s : Bytes) : Option (Bytes × Match) :=
  match p.matchHere s with
  | some m => some ([], m)
  | none =>
      if p.anchored then none
      else
        match s with
        | [] => none
        | b :: s => (p.find s).map fun r => (b :: r.1, r.2)

/-- `s:match(p)`; nil where the pattern does not match. -/
def Pattern.values (p : Pattern) (s : Bytes) : Option (List Bytes) :=
  (p.find s).map fun r => r.2.values

/-- `s:find(p)` as a condition. -/
def Pattern.matches (p : Pattern) (s : Bytes) : Bool := (p.find s).isSome

/-- A character that `gsub` copies, or a match that it replaces. -/
inductive Piece
  | char (b : UInt8)
  | hit (whole : Bytes) (values : List Bytes)
  deriving DecidableEq, Repr

/-- The pieces of a string from the place after the first `skip` characters,
which belong to a match. -/
def Pattern.piecesFrom (p : Pattern) : ℕ → Bytes → List Piece
  | 0, [] => ((p.matchHere []).map fun m => Piece.hit m.whole m.values).toList
  | _ + 1, [] => []
  | skip + 1, _ :: s => p.piecesFrom skip s
  | 0, b :: s =>
      match p.matchHere (b :: s) with
      | some m =>
          if m.whole = [] then .hit [] m.values :: .char b :: p.piecesFrom 0 s
          else .hit m.whole m.values :: p.piecesFrom (m.whole.length - 1) s
      | none => .char b :: p.piecesFrom 0 s

/-- The pieces that `gsub` cuts a string into.  An anchored pattern is tried
at the start only. -/
def Pattern.pieces (p : Pattern) (s : Bytes) : List Piece :=
  if p.anchored then
    match p.matchHere s with
    | some m => .hit m.whole m.values :: m.after.map .char
    | none => s.map .char
  else p.piecesFrom 0 s

/-- `s:gsub(p, f)`; a match for which `f` returns nil stays. -/
def gsub (p : Pattern) (f : List Bytes → Option Bytes) (s : Bytes) : Bytes :=
  (p.pieces s).flatMap fun
    | .char b => [b]
    | .hit whole values => (f values).getD whole

/-- `s:gsub(p, f)` for a function with effects. -/
def gsubM {m : Type → Type} [Monad m] (p : Pattern)
    (f : List Bytes → m (Option Bytes)) (s : Bytes) : m Bytes := do
  let parts ← (p.pieces s).mapM fun
    | .char b => return [b]
    | .hit whole values => return (← f values).getD whole
  return parts.flatten

/-- The captures of the successive matches of `s:gmatch(p)`. -/
def gmatch (p : Pattern) (s : Bytes) : List (List Bytes) :=
  (p.pieces s).filterMap fun
    | .char _ => none
    | .hit _ values => some values

/-! ## Repeated characters -/

section Repeat

variable {α : Type} {c : CharClass} {k : Bytes → Option α}

/-- What the characters of a class leave over is taken if it is accepted. -/
theorem maxExpand_of_isSome {s : Bytes} (h : (k (s.dropWhile c)).isSome) :
    maxExpand c k s = k (s.dropWhile c) := by
  induction s with
  | nil => rfl
  | cons b s ih =>
      rw [maxExpand]
      by_cases hb : c b = true
      · rw [List.dropWhile_cons_of_pos hb] at h ⊢
        rw [if_pos hb, ih h]
        rcases Option.isSome_iff_exists.mp h with ⟨a, ha⟩
        rw [ha, Option.some_or]
      · rw [if_neg hb, List.dropWhile_cons_of_neg hb]

/-- Nothing that starts with a character of the class is accepted after it. -/
theorem maxExpand_of_head (h : ∀ b t, c b = true → k (b :: t) = none)
    (s : Bytes) : maxExpand c k s = k (s.dropWhile c) := by
  induction s with
  | nil => rfl
  | cons b s ih =>
      rw [maxExpand]
      by_cases hb : c b = true
      · rw [if_pos hb, h b s hb, Option.or_none, ih,
          List.dropWhile_cons_of_pos hb]
      · rw [if_neg hb, List.dropWhile_cons_of_neg hb]

/-- The first rest that is accepted is taken. -/
theorem minExpand_append {x t : Bytes} (hx : ∀ b ∈ x, c b = true)
    (hfail : ∀ y z, x = y ++ z → z ≠ [] → k (z ++ t) = none)
    (hk : (k t).isSome) : minExpand c k (x ++ t) = k t := by
  induction x with
  | nil =>
      rcases Option.isSome_iff_exists.mp hk with ⟨a, ha⟩
      cases t with
      | nil => rfl
      | cons b t => rw [List.nil_append, minExpand, ha, Option.some_or]
  | cons b x ih =>
      have hb : c b = true := hx b List.mem_cons_self
      have hnone : k (b :: (x ++ t)) = none :=
        hfail [] (b :: x) rfl (List.cons_ne_nil b x)
      rw [List.cons_append, minExpand, hnone, Option.none_or, if_pos hb]
      apply ih (fun d hd => hx d (List.mem_cons_of_mem b hd))
      intro y z hyz hz
      exact hfail (b :: y) z (by rw [hyz, List.cons_append]) hz

/-- What is accepted is a rest of the string. -/
theorem exists_of_maxExpand {s : Bytes} {a : α} (h : maxExpand c k s = some a) :
    ∃ t, t <:+ s ∧ k t = some a := by
  induction s with
  | nil => exact ⟨[], List.suffix_rfl, h⟩
  | cons b s ih =>
      rw [maxExpand] at h
      split at h
      · rcases Option.or_eq_some_iff.mp h with hmore | ⟨-, hhere⟩
        · obtain ⟨t, ht, hk⟩ := ih hmore
          exact ⟨t, ht.trans (List.suffix_cons b s), hk⟩
        · exact ⟨b :: s, List.suffix_rfl, hhere⟩
      · exact ⟨b :: s, List.suffix_rfl, h⟩

theorem exists_of_minExpand {s : Bytes} {a : α} (h : minExpand c k s = some a) :
    ∃ t, t <:+ s ∧ k t = some a := by
  induction s with
  | nil => exact ⟨[], List.suffix_rfl, h⟩
  | cons b s ih =>
      rw [minExpand] at h
      rcases Option.or_eq_some_iff.mp h with hhere | ⟨-, hmore⟩
      · exact ⟨b :: s, List.suffix_rfl, hhere⟩
      · split at hmore
        · obtain ⟨t, ht, hk⟩ := ih hmore
          exact ⟨t, ht.trans (List.suffix_cons b s), hk⟩
        · cases hmore

/-- Any rest of the string can be what is accepted. -/
theorem isSome_minExpand_anyChar_iff {s : Bytes} :
    (minExpand anyChar k s).isSome ↔ ∃ t, t <:+ s ∧ (k t).isSome := by
  constructor
  · intro h
    obtain ⟨a, ha⟩ := Option.isSome_iff_exists.mp h
    obtain ⟨t, ht, hk⟩ := exists_of_minExpand ha
    exact ⟨t, ht, by rw [hk]; rfl⟩
  · rintro ⟨t, ht, hk⟩
    induction s with
    | nil =>
        obtain rfl := List.suffix_nil.mp ht
        exact hk
    | cons b s ih =>
        rw [minExpand, Option.isSome_or, Bool.or_eq_true]
        rcases List.suffix_cons_iff.mp ht with rfl | ht
        · exact .inl hk
        · exact .inr (ih ht)

/-- When all characters are of the class, the last one is left to what needs
one. -/
theorem maxExpand_concat {w : Bytes} {b : UInt8} (hw : ∀ d ∈ w, c d = true)
    (hnil : k [] = none) (hk : (k [b]).isSome) : maxExpand c k (w ++ [b]) = k [b] := by
  obtain ⟨a, ha⟩ := Option.isSome_iff_exists.mp hk
  induction w with
  | nil =>
      rw [List.nil_append, maxExpand, maxExpand, hnil, Option.none_or]
      exact ite_self _
  | cons d w ih =>
      obtain ⟨hd, hw⟩ := List.forall_mem_cons.mp hw
      rw [List.cons_append, maxExpand, if_pos hd, ih hw, ha, Option.some_or]

/-- What is captured before the rest that characters of a class leave. -/
theorem closeLast_dropWhile (c : CharClass) (s : Bytes) :
    closeLast (s.dropWhile c) [.opened s] = [.closed (s.takeWhile c)] := by
  have hlen := congrArg List.length
    (List.takeWhile_append_dropWhile (p := c) (l := s))
  rw [List.length_append] at hlen
  have hsub : s.length - (s.dropWhile c).length = (s.takeWhile c).length := by
    rw [← hlen, Nat.add_sub_cancel]
  have htake : s.take (s.takeWhile c).length = s.takeWhile c :=
    (List.prefix_iff_eq_take.mp (List.takeWhile_prefix _)).symm
  simp [closeLast, hsub, htake]

@[simp] theorem dropWhile_anyChar (s : Bytes) : s.dropWhile anyChar = [] :=
  List.dropWhile_eq_nil_iff.mpr fun _ _ => rfl

end Repeat

/-! ## What a match leaves -/

theorem suffix_of_matchBalance {x y : UInt8} {n : ℕ} {s r : Bytes}
    (h : matchBalance x y n s = some r) : r <:+ s := by
  induction s generalizing n with
  | nil => cases h
  | cons b s ih =>
      refine List.IsSuffix.trans ?_ (List.suffix_cons b s)
      rw [matchBalance] at h
      split at h
      · split at h
        · exact Option.some.inj h ▸ List.suffix_rfl
        · exact ih h
      · split at h
        · exact ih h
        · exact ih h

/-- What is left is a rest of the string. -/
theorem suffix_of_matchItems {items : List Item} {caps caps' : List Capture}
    {s r : Bytes} (h : matchItems items caps s = some (r, caps')) : r <:+ s := by
  induction items generalizing caps s with
  | nil =>
      obtain ⟨rfl, -⟩ := Prod.mk.inj (Option.some.inj h)
      exact List.suffix_rfl
  | cons item items ih =>
      cases item with
      | one c =>
          cases s with
          | nil => cases h
          | cons b s =>
              rw [matchItems] at h
              split at h
              · exact (ih h).trans (List.suffix_cons b s)
              · cases h
      | star c =>
          obtain ⟨t, ht, hk⟩ := exists_of_maxExpand h
          exact (ih hk).trans ht
      | plus c =>
          cases s with
          | nil => cases h
          | cons b s =>
              rw [matchItems] at h
              split at h
              · obtain ⟨t, ht, hk⟩ := exists_of_maxExpand h
                exact ((ih hk).trans ht).trans (List.suffix_cons b s)
              · cases h
      | lazy c =>
          obtain ⟨t, ht, hk⟩ := exists_of_minExpand h
          exact (ih hk).trans ht
      | opt c =>
          cases s with
          | nil => exact ih h
          | cons b s =>
              rw [matchItems] at h
              split at h
              · rcases Option.or_eq_some_iff.mp h with htaken | ⟨-, hleft⟩
                · exact (ih htaken).trans (List.suffix_cons b s)
                · exact ih hleft
              · exact ih h
      | balance x y =>
          cases s with
          | nil => cases h
          | cons b s =>
              rw [matchItems] at h
              split at h
              · split at h
                · next t ht =>
                    exact ((ih h).trans (suffix_of_matchBalance ht)).trans
                      (List.suffix_cons b s)
                · cases h
              · cases h
      | capStart => exact ih h
      | capStop => exact ih h
      | atEnd =>
          rw [matchItems] at h
          split at h
          · exact ih h
          · cases h

theorem isSome_matchItems_one_iff {c : CharClass} {items : List Item}
    {caps : List Capture} {s : Bytes} :
    (matchItems (.one c :: items) caps s).isSome ↔
      ∃ b t, s = b :: t ∧ c b = true ∧ (matchItems items caps t).isSome := by
  cases s with
  | nil => simp [matchItems]
  | cons b s => by_cases hb : c b = true <;> simp [matchItems, hb]

theorem length_of_matchItems_one {c : CharClass} {items : List Item}
    {caps caps' : List Capture} {s r : Bytes}
    (h : matchItems (.one c :: items) caps s = some (r, caps')) : r.length < s.length := by
  cases s with
  | nil => cases h
  | cons b s =>
      rw [matchItems] at h
      split at h
      · exact Nat.lt_succ_of_le (suffix_of_matchItems h).length_le
      · cases h

/-- A match covers what it does not leave. -/
theorem exists_of_matchHere {p : Pattern} {s : Bytes} {m : Match}
    (h : p.matchHere s = some m) :
    ∃ r caps, matchItems p.items [] s = some (r, caps) ∧
      m.whole.length + r.length = s.length := by
  obtain ⟨⟨r, caps⟩, hitems, rfl⟩ := Option.map_eq_some_iff.mp h
  refine ⟨r, caps, hitems, ?_⟩
  have hle := (suffix_of_matchItems hitems).length_le
  simp only [List.length_take]
  omega

/-- A match that is found is where the string before it ends. -/
theorem exists_of_find {p : Pattern} {s before : Bytes} {m : Match}
    (h : p.find s = some (before, m)) :
    ∃ t, s = before ++ t ∧ p.matchHere t = some m := by
  induction s generalizing before with
  | nil =>
      rw [Pattern.find] at h
      split at h
      · next hm =>
          obtain ⟨rfl, rfl⟩ := Prod.mk.inj (Option.some.inj h)
          exact ⟨[], rfl, hm⟩
      · split at h <;> cases h
  | cons b s ih =>
      rw [Pattern.find] at h
      split at h
      · next hm =>
          obtain ⟨rfl, rfl⟩ := Prod.mk.inj (Option.some.inj h)
          exact ⟨b :: s, rfl, hm⟩
      · split at h
        · cases h
        · obtain ⟨⟨before', m'⟩, hfind, hpair⟩ := Option.map_eq_some_iff.mp h
          obtain ⟨rfl, rfl⟩ := Prod.mk.inj hpair
          obtain ⟨t, rfl, hm⟩ := ih hfind
          exact ⟨t, rfl, hm⟩

/-! ## Cutting a string into pieces -/

section Pieces

variable {p : Pattern}

/-- A match, from what it leaves. -/
theorem matchHere_append {w rest : Bytes} {caps : List Capture}
    (h : matchItems p.items [] (w ++ rest) = some (rest, caps)) :
    p.matchHere (w ++ rest) =
      some ⟨w, if caps = [] then [w] else caps.map Capture.value, rest⟩ := by
  rw [Pattern.matchHere, h, Option.map_some]
  simp

theorem matchHere_eq_none {s : Bytes} (h : matchItems p.items [] s = none) :
    p.matchHere s = none := by
  rw [Pattern.matchHere, h, Option.map_none]

theorem piecesFrom_drop {n : ℕ} {s : Bytes} (h : n ≤ s.length) :
    p.piecesFrom n s = p.piecesFrom 0 (s.drop n) := by
  induction n generalizing s with
  | zero => rfl
  | succ n ih =>
      cases s with
      | nil => exact absurd h (Nat.not_succ_le_zero n)
      | cons b s => exact ih (Nat.le_of_succ_le_succ h)

/-- A match is a piece, and the others come after it. -/
theorem piecesFrom_hit {w rest : Bytes} {values : List Bytes}
    (h : p.matchHere (w ++ rest) = some ⟨w, values, rest⟩) (hw : w ≠ []) :
    p.piecesFrom 0 (w ++ rest) = .hit w values :: p.piecesFrom 0 rest := by
  cases w with
  | nil => exact absurd rfl hw
  | cons b w =>
      rw [List.cons_append] at h ⊢
      rw [Pattern.piecesFrom, h]
      dsimp only
      rw [if_neg hw, List.length_cons, Nat.add_sub_cancel,
        piecesFrom_drop (by simp), List.drop_left]

/-- Where nothing matches the characters are copied. -/
theorem piecesFrom_append {a s : Bytes}
    (h : ∀ y z, a = y ++ z → z ≠ [] → p.matchHere (z ++ s) = none) :
    p.piecesFrom 0 (a ++ s) = a.map .char ++ p.piecesFrom 0 s := by
  induction a with
  | nil => rfl
  | cons b a ih =>
      have hnone : p.matchHere (b :: (a ++ s)) = none :=
        h [] (b :: a) rfl (List.cons_ne_nil b a)
      rw [List.cons_append, Pattern.piecesFrom, hnone, List.map_cons,
        List.cons_append, ← ih]
      intro y z hyz
      exact h (b :: y) z (congrArg (b :: ·) hyz)

/-- A pattern of one character is tried on each of them. -/
theorem pieces_one (c : CharClass) (s : Bytes) :
    Pattern.pieces ⟨[.one c], false⟩ s =
      s.map fun b => if c b then .hit [b] [[b]] else .char b := by
  change Pattern.piecesFrom _ 0 s = _
  induction s with
  | nil => rfl
  | cons b s ih =>
      rw [List.map_cons, ← ih]
      by_cases hb : c b = true
      · have hitems : matchItems [.one c] [] ([b] ++ s) = some (s, []) := by
          simp [matchItems, hb]
        rw [if_pos hb]
        exact piecesFrom_hit
          (matchHere_append (p := ⟨[.one c], false⟩) hitems)
          (List.cons_ne_nil b [])
      · have hitems : matchItems [.one c] [] (b :: s) = none := by
          simp [matchItems, hb]
        rw [if_neg hb, Pattern.piecesFrom, matchHere_eq_none hitems]

theorem gsub_one (c : CharClass) (f : List Bytes → Option Bytes) (s : Bytes) :
    gsub ⟨[.one c], false⟩ f s =
      s.flatMap fun b => if c b then (f [[b]]).getD [b] else [b] := by
  rw [gsub, pieces_one, List.flatMap_map]
  congr 1
  funext b
  by_cases hb : c b = true <;> simp [hb]

/-- Characters of a class are replaced by another character. -/
theorem gsub_replace (c : CharClass) (d : UInt8) (s : Bytes) :
    gsub ⟨[.one c], false⟩ (fun _ => some [d]) s =
      s.map fun b => if c b then d else b := by
  rw [gsub_one, List.map_eq_flatMap]
  congr 1
  funext b
  by_cases hb : c b = true <;> simp [hb]

end Pieces

end LuaAttic.Lua
