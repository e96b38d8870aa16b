import Mathlib.Algebra.BigOperators.Group.List.Basic
import LuaAttic.Codedit.Tokens
import LuaAttic.Support.Fallible
import LuaAttic.Support.Iteration

/-!
# Token lists over lines (`codedit_hl.lua`)

The positions of a token list are those of a text that begins in some line.  Three
iterators, each over the one before, give lines and columns for the positions, then for
the tokens, and then for the parts of tokens in single lines.
-/

namespace LuaAttic.Codedit

open LuaAttic.Lua LuaAttic.Support

/-- `next_token_pos(t, i)` -/
def TokenList.nextTokenPos (t : TokenList) (i : Option ℕ) : Option (ℕ × Option Entry) :=
  let i := i.elim 0 (· + 2)
  if i > t.length then none else some (i, t.get i)

namespace Projection

/-! ## The text -/

/-- What is read of a buffer: its lines without their terminators. -/
structure LineText where
  lines : List Bytes
  lineTerminator : Bytes
  terminator_ne : lineTerminator ≠ []

namespace LineText

variable (b : LineText)

/-- `buffer:line(line)` -/
def line (line : ℕ) : Except Error Bytes := nonNil .nilIndex (tableGet b.lines line)

/-- `linesize(line, buffer)` -/
def linesize (line : ℕ) : Except Error Int := do
  return (← b.line line).length + b.lineTerminator.length

/-- `select_text(buffer, line1, p1, line2)` -/
def selectText (line1 : ℕ) (p1 : Int) (line2 : Option ℕ) : Except Error Bytes := do
  let line2 := line2.getD b.lines.length
  let s := subFrom (← b.line line1) p1
  if line2 > line1 then
    return s ++ b.lineTerminator ++
      b.lineTerminator.intercalate ((b.lines.take line2).drop line1)
  else return s

end LineText

/-! ## Positions -/

/-- A number that is compared with a number. -/
def comparand : Option Entry → Except Error Int
  | some (.pos p) => .ok p
  | some (.style _) => .error .badArgument
  | none => .error .nilCompare

/-- The variables of the function that `project_pos` returns. -/
structure PosState where
  i : Option ℕ
  line : ℕ
  minp : Int
  maxp : Int

/-- The index, line and column of a position. -/
structure Pos where
  i : ℕ
  line : ℕ
  p : Int

section Iterators

variable (b : LineText) (t : TokenList)

/-- `project_pos(t, line1, p1, buffer)` -/
def projectPos (line1 : ℕ) (p1 : Int) : Except Error PosState := do
  let maxp ← b.linesize line1
  return ⟨none, line1, 1 - p1 + 1, maxp - p1 + 1⟩

theorem le_length_of_linesize {b : LineText} {line : ℕ} {n : Int}
    (h : b.linesize line = .ok n) : line ≤ b.lines.length := by
  by_contra hlt
  have hget : tableGet b.lines line = none := (tableGet_eq_none_iff _ _).mpr (by omega)
  rw [LineText.linesize, LineText.line, hget] at h
  cases h

/-- `while p > maxp` -/
def seek (p : Int) (st : PosState) : Except Error PosState :=
  if p ≤ st.maxp then .ok st
  else
    match _h : b.linesize (st.line + 1) with
    | .ok n =>
        seek p { st with line := st.line + 1, minp := st.maxp + 1, maxp := st.maxp + n }
    | .error e => .error e
termination_by b.lines.length - st.line
decreasing_by
  have := le_length_of_linesize _h
  omega

/-- A call of the function that `project_pos` returns. -/
def nextPos (st : PosState) : Except Error (Option Pos × PosState) :=
  match t.nextTokenPos st.i with
  | none => .ok (none, { st with i := none })
  | some (i, e) => do
      let p ← comparand e
      let st ← seek b p { st with i := some i }
      return (some ⟨i, st.line, p - st.minp + 1⟩, st)

/-! ## Tokens -/

/-- The variables of the function that `project_tokens` returns: `i`, `line` and `p` are
those of a position that has been read ahead. -/
structure TokenState where
  pos : PosState
  ahead : Option Pos

/-- A token with its two positions. -/
structure Span where
  i : ℕ
  line1 : ℕ
  p1 : Int
  line2 : ℕ
  p2 : Int
  style : Option Entry

/-- `project_tokens(t, line1, p1, buffer)` -/
def projectTokens (line1 : ℕ) (p1 : Int) : Except Error TokenState := do
  let (ahead, pos) ← nextPos b t (← projectPos b line1 p1)
  return ⟨pos, ahead⟩

/-- A call of the function that `project_tokens` returns. -/
def nextSpan (st : TokenState) : Except Error (Option Span × TokenState) :=
  match st.ahead with
  | none => .ok (none, st)
  | some p => do
      let (p', pos) ← nextPos b t st.pos
      match p' with
      | none => return (none, { st with pos := pos })
      | some p' =>
          return (some ⟨p.i, p.line, p.p, p'.line, p'.p, t.get (p.i + 1)⟩, ⟨pos, some p'⟩)

/-! ## Lines -/

/-- A part of a token in a line, from the column `p1` up to the column `p2`. -/
structure Segment where
  i : ℕ
  line : ℕ
  p1 : Int
  p2 : Int
  style : Option Entry

/-- The variables of the function that `project_lines` returns: the token and `line`. -/
structure LineState where
  tokens : TokenState
  current : Option (Span × ℕ)

/-- The variables after `next_token()`, with `line = line1`. -/
def readSpan (tokens : TokenState) : Except Error LineState := do
  let (span, tokens) ← nextSpan b t tokens
  return ⟨tokens, span.map fun span => (span, span.line1)⟩

/-- `project_lines(t, line1, p1, buffer)` -/
def projectLines (line1 : ℕ) (p1 : Int) : Except Error LineState := do
  readSpan b t (← projectTokens b t line1 p1)

/-- `advance_token` -/
def advanceToken (st : LineState) (r : Segment) : Except Error (Option Segment × LineState) := do
  return (some r, ← readSpan b t st.tokens)

/-- `advance_line`, in a token. -/
def advanceLine (st : LineState) (span : Span) (line : ℕ) (r : Segment) :
    Except Error (Option Segment × LineState) :=
  .ok (some r, { st with current := some (span, line + 1) })

/-- A call of the function that `project_lines` returns. -/
def nextSegment (st : LineState) : Except Error (Option Segment × LineState) :=
  match st.current with
  | none => .ok (none, st)
  | some (span, line) =>
      if span.line1 = span.line2 then
        advanceToken b t st ⟨span.i, line, span.p1, span.p2, span.style⟩
      else if line = span.line1 then do
        advanceLine st span line ⟨span.i, line, span.p1, (← b.linesize line) + 1, span.style⟩
      else if line = span.line2 then
        advanceToken b t st ⟨span.i, line, 1, span.p2, span.style⟩
      else do
        advanceLine st span line ⟨span.i, line, 1, (← b.linesize line) + 1, span.style⟩

end Iterators

/-! ## Places -/

namespace LineText

variable {b : LineText} {line : ℕ} {s : Bytes}

/-- The number of bytes before a line, with the terminators. -/
def start (b : LineText) (line : ℕ) : ℕ :=
  ((b.lines.take (line - 1)).map fun s => s.length + b.lineTerminator.length).sum

/-- The number of a byte, from one on, in all the lines. -/
def place (b : LineText) (line : ℕ) (p : Int) : Int := b.start line + p

theorem linesize_eq (h : tableGet b.lines line = some s) :
    b.linesize line = .ok (s.length + b.lineTerminator.length) := by
  rw [linesize, LineText.line, h]
  rfl

theorem start_succ (h : tableGet b.lines line = some s) :
    b.start (line + 1) = b.start line + (s.length + b.lineTerminator.length) := by
  obtain ⟨pre, post, hlines, hline⟩ := tableGet_eq_some_iff.mp h
  have heq : line = pre.length + 1 := by omega
  have htake : (pre ++ s :: post).take (pre.length + 1) = pre ++ [s] := by
    rw [List.take_length_add_append, List.take_succ_cons, List.take_zero]
  rw [start, start, hlines, heq, Nat.add_sub_cancel, Nat.add_sub_cancel, htake, List.take_left,
    List.map_append, List.sum_append, List.map_singleton, List.sum_singleton]

theorem start_mono {line line' : ℕ} (h : line ≤ line') : b.start line ≤ b.start line' := by
  obtain ⟨d, hd⟩ := Nat.exists_eq_add_of_le (Nat.sub_le_sub_right h 1)
  rw [start, start, hd, List.take_add, List.map_append, List.sum_append]
  exact Nat.le_add_right _ _

theorem exists_line (b : LineText) (h : 1 ≤ line) (hle : line ≤ b.lines.length) :
    ∃ s, tableGet b.lines line = some s := by
  apply Option.ne_none_iff_exists'.mp
  intro hnone
  apply (tableGet_eq_none_iff b.lines line).mp hnone
  omega

theorem terminator_pos (b : LineText) : 0 < b.lineTerminator.length :=
  List.length_pos_iff.mpr b.terminator_ne

end LineText

/-! ## Advancing through the lines -/

section Spec

variable {b : LineText} {base : Int} {line2 : ℕ} {last : Bytes} {i : ℕ} {p : Int}

/-- The variables are those for the line; `base` is the number of bytes before the text. -/
structure Inside (b : LineText) (base : Int) (st : PosState) : Prop where
  exists_line : ∃ s, tableGet b.lines st.line = some s
  minp_eq : st.minp + base = b.start st.line + 1
  maxp_eq : st.maxp + base = b.start (st.line + 1)

theorem exists_line_of_le {line : ℕ} (h : tableGet b.lines line2 = some last) (hline : 1 ≤ line)
    (hle : line ≤ line2) : ∃ s, tableGet b.lines line = some s := by
  obtain ⟨pre, post, hlines, hline2⟩ := tableGet_eq_some_iff.mp h
  apply b.exists_line hline
  rw [hlines, List.length_append, List.length_cons]
  omega

/-- What is not after the end of a line is in the line. -/
theorem Inside.le_maxp {st : PosState} {s : Bytes} (h : Inside b base st)
    (hs : tableGet b.lines st.line = some s)
    (hp : p + base ≤ b.place st.line (s.length + 1)) : p ≤ st.maxp := by
  have hmax := h.maxp_eq
  have hterm := b.terminator_pos
  rw [LineText.start_succ hs] at hmax
  rw [LineText.place] at hp
  omega

theorem Inside.next {st : PosState} {s : Bytes} (h : Inside b base st)
    (hs : tableGet b.lines (st.line + 1 : ℕ) = some s) :
    Inside b base { st with
      line := st.line + 1
      minp := st.maxp + 1
      maxp := st.maxp + (s.length + b.lineTerminator.length) } where
  exists_line := ⟨s, hs⟩
  minp_eq := by
    have := h.maxp_eq
    dsimp only
    omega
  maxp_eq := by
    have := h.maxp_eq
    dsimp only
    rw [LineText.start_succ hs]
    omega

/-- The line with a position is found. -/
theorem seek_spec {st : PosState} (h : Inside b base st) (hmin : st.minp ≤ p)
    (hlast : tableGet b.lines line2 = some last) (hline : st.line ≤ line2)
    (hp : p + base ≤ b.place line2 (last.length + 1)) :
    ∃ st', seek b p st = .ok st' ∧ Inside b base st' ∧ st'.i = st.i ∧ st'.minp ≤ p ∧
      p ≤ st'.maxp ∧ st.line ≤ st'.line ∧ st'.line ≤ line2 := by
  induction hd : line2 - st.line generalizing st with
  | zero =>
      have heq : st.line = line2 := by omega
      have hin : p ≤ st.maxp := h.le_maxp (heq ▸ hlast) (heq ▸ hp)
      refine ⟨st, ?_, h, rfl, hmin, hin, le_rfl, hline⟩
      rw [seek, if_pos hin]
  | succ d ih =>
      by_cases hin : p ≤ st.maxp
      · refine ⟨st, ?_, h, rfl, hmin, hin, le_rfl, hline⟩
        rw [seek, if_pos hin]
      · obtain ⟨s, hs⟩ := exists_line_of_le hlast (Nat.le_add_left 1 st.line) (by omega)
        obtain ⟨st', hseek, hinside, hi, hmin', hmax', hle, hle2⟩ :=
          ih (h.next hs) (by simp only; omega) (by simp only; omega) (by simp only; omega)
        refine ⟨st', ?_, hinside, hi, hmin', hmax', ?_, hle2⟩
        · rw [seek, if_neg hin, LineText.linesize_eq hs]
          exact hseek
        · exact (Nat.le_succ _).trans hle

/-- A position has been read: its index, and its column in the line that it is in. -/
structure Located (b : LineText) (base : Int) (i : ℕ) (p : Int) (st : PosState) (pos : Pos) :
    Prop where
  inside : Inside b base st
  index_eq : st.i = some i
  minp_le : st.minp ≤ p
  le_maxp : p ≤ st.maxp
  pos_eq : pos = ⟨i, st.line, p - st.minp + 1⟩

variable {t : TokenList} {st : PosState} {pos : Pos}

theorem Located.place_eq (h : Located b base i p st pos) : b.place pos.line pos.p = p + base := by
  have hmin := h.inside.minp_eq
  rw [h.pos_eq, LineText.place]
  dsimp only
  omega

/-- A column of a line, with its terminator. -/
theorem Located.column {s : Bytes} (h : Located b base i p st pos)
    (hs : tableGet b.lines pos.line = some s) :
    1 ≤ pos.p ∧ pos.p ≤ s.length + b.lineTerminator.length := by
  have hmin := h.inside.minp_eq
  have hmax := h.inside.maxp_eq
  have hle := h.minp_le
  have hle' := h.le_maxp
  have hs' : tableGet b.lines st.line = some s := by rwa [h.pos_eq] at hs
  rw [LineText.start_succ hs'] at hmax
  rw [h.pos_eq]
  dsimp only
  omega

/-- The position after the one that was read is located, in the same line or in a later one. -/
theorem nextPos_spec {o : Option ℕ} (hi : o.elim 0 (· + 2) = i) (hst : st.i = o)
    (hinside : Inside b base st) (hmin : st.minp ≤ p) (hget : t.get i = some (.pos p))
    (hlength : i ≤ t.length) (hlast : tableGet b.lines line2 = some last)
    (hline : st.line ≤ line2) (hp : p + base ≤ b.place line2 (last.length + 1)) :
    ∃ pos st', nextPos b t st = .ok (some pos, st') ∧ Located b base i p st' pos ∧
      st.line ≤ pos.line ∧ pos.line ≤ line2 := by
  have hnext : t.nextTokenPos st.i = some (i, some (.pos p)) := by
    rw [TokenList.nextTokenPos, hst, hi, if_neg (Nat.not_lt.mpr hlength), hget]
  have hinside' : Inside b base { st with i := some i } :=
    ⟨hinside.exists_line, hinside.minp_eq, hinside.maxp_eq⟩
  obtain ⟨st', hseek, hin, hindex, hmin', hmax', hle, hle2⟩ :=
    seek_spec hinside' hmin hlast hline hp
  refine ⟨⟨i, st'.line, p - st'.minp + 1⟩, st', ?_, ⟨hin, hindex, hmin', hmax', rfl⟩, hle, hle2⟩
  simp only [nextPos, hnext, comparand]
  change (seek b p { st with i := some i } >>= _) = _
  rw [hseek]
  rfl

/-- There is no position after the last one. -/
theorem nextPos_last (h : t.length < i + 2) (hst : st.i = some i) :
    nextPos b t st = .ok (none, { st with i := none }) := by
  have hnext : t.nextTokenPos st.i = none := by
    rw [TokenList.nextTokenPos, hst]
    exact if_pos h
  simp only [nextPos, hnext]

/-! ## Segments -/

/-- The segments follow each other from a place to another one. -/
def Tiling (b : LineText) : Int → List Segment → Int → Prop
  | x, [], y => x = y
  | x, seg :: segs, y =>
      b.place seg.line seg.p1 = x ∧ Tiling b (b.place seg.line seg.p2) segs y

/-- A segment is in its line, and in one of the tokens, whose style it has. -/
structure Fits (b : LineText) (base : Int) (toks : List Token) (seg : Segment) : Prop where
  in_line : ∃ s, tableGet b.lines seg.line = some s ∧ 1 ≤ seg.p1 ∧ seg.p1 ≤ seg.p2 ∧
    seg.p2 ≤ s.length + b.lineTerminator.length + 1
  in_token : ∃ u v, ⟨seg.i, some (.pos u), some (.pos v), seg.style⟩ ∈ toks ∧
    u + base ≤ b.place seg.line seg.p1 ∧ b.place seg.line seg.p2 ≤ v + base

theorem Fits.mono {toks toks' : List Token} {seg : Segment} (h : Fits b base toks seg)
    (hsub : ∀ k ∈ toks, k ∈ toks') : Fits b base toks' seg where
  in_line := h.in_line
  in_token := by
    obtain ⟨u, v, hmem, hu, hv⟩ := h.in_token
    exact ⟨u, v, hsub _ hmem, hu, hv⟩

/-- What is left of the iteration gives segments from a place on, to the end. -/
def Gives (b : LineText) (t : TokenList) (base : Int) (toks : List Token) (stop : Int)
    (st : LineState) (x : Int) : Prop :=
  ∀ c, ∃ segs, Support.Yields (fun _ st => nextSegment b t st) c st segs ∧ Tiling b x segs stop ∧
    ∀ seg ∈ segs, Fits b base toks seg

variable {toks : List Token} {stop : Int}

/-- A call gives a segment that goes up to where the rest begins. -/
theorem Gives.step {st st' : LineState} {seg : Segment} {x : Int}
    (hcall : nextSegment b t st = .ok (some seg, st')) (hx : b.place seg.line seg.p1 = x)
    (hfits : Fits b base toks seg)
    (h : Gives b t base toks stop st' (b.place seg.line seg.p2)) :
    Gives b t base toks stop st x := by
  intro c
  obtain ⟨segs, hyields, htiling, hall⟩ := h (some seg)
  refine ⟨seg :: segs, Support.Yields.step hcall hyields, ⟨hx, htiling⟩, ?_⟩
  intro seg' hseg'
  rcases List.mem_cons.mp hseg' with rfl | hseg'
  · exact hfits
  · exact hall seg' hseg'

/-- A token between two places. -/
structure Spanned (b : LineText) (base : Int) (toks : List Token) (span : Span) (u v : Int) :
    Prop where
  mem : ⟨span.i, some (.pos u), some (.pos v), span.style⟩ ∈ toks
  le : u ≤ v
  place1 : b.place span.line1 span.p1 = u + base
  place2 : b.place span.line2 span.p2 = v + base
  line_le : span.line1 ≤ span.line2
  column1 : ∀ s, tableGet b.lines span.line1 = some s →
    1 ≤ span.p1 ∧ span.p1 ≤ s.length + b.lineTerminator.length
  column2 : ∀ s, tableGet b.lines span.line2 = some s →
    1 ≤ span.p2 ∧ span.p2 ≤ s.length + b.lineTerminator.length
  exists_line : ∀ line, span.line1 ≤ line → line ≤ span.line2 →
    ∃ s, tableGet b.lines line = some s

/-- Where a token begins in one of its lines. -/
def Span.from (span : Span) (line : ℕ) : Int := if line = span.line1 then span.p1 else 1

section Parts

variable {span : Span} {u v : Int} {tokens : TokenState} {st' : LineState} {line : ℕ} {s : Bytes}

/-- The last part of a token ends where the token ends. -/
theorem nextSegment_last (hread : readSpan b t tokens = .ok st') (heq : line = span.line2) :
    nextSegment b t ⟨tokens, some (span, line)⟩ =
      .ok (some ⟨span.i, line, span.from line, span.p2, span.style⟩, st') := by
  have hadvance : ∀ seg, advanceToken b t ⟨tokens, some (span, line)⟩ seg =
      .ok (some seg, st') := by
    intro seg
    simp only [advanceToken, hread]
    rfl
  simp only [nextSegment, Span.from, hadvance]
  by_cases hone : span.line1 = span.line2
  · rw [if_pos hone, if_pos (heq.trans hone.symm)]
  · have hne : line ≠ span.line1 := fun h => hone (h.symm.trans heq)
    rw [if_neg hone, if_neg hne, if_pos heq, if_neg hne]

/-- The other parts of a token end with their lines. -/
theorem nextSegment_inner (hs : tableGet b.lines line = some s) (hle : span.line1 ≤ line)
    (hlt : line < span.line2) :
    nextSegment b t ⟨tokens, some (span, line)⟩ =
      .ok (some ⟨span.i, line, span.from line, s.length + b.lineTerminator.length + 1,
        span.style⟩, ⟨tokens, some (span, line + 1)⟩) := by
  have hmany : span.line1 ≠ span.line2 := (hle.trans_lt hlt).ne
  simp only [nextSegment, Span.from, LineText.linesize_eq hs]
  rw [if_neg hmany]
  by_cases hfirst : line = span.line1
  · rw [if_pos hfirst, if_pos hfirst]
    rfl
  · rw [if_neg hfirst, if_neg hlt.ne, if_neg hfirst]
    rfl

/-- No part of a token begins before the token. -/
theorem Spanned.le_place_from (h : Spanned b base toks span u v) (hle : span.line1 ≤ line)
    (hle2 : line ≤ span.line2) : u + base ≤ b.place line (span.from line) := by
  rw [← h.place1, Span.from]
  split_ifs with hfirst
  · rw [hfirst]
  · obtain ⟨s, hs⟩ := h.exists_line span.line1 le_rfl (hle.trans hle2)
    have hcolumn := h.column1 s hs
    have hlt : span.line1 + 1 ≤ line := lt_of_le_of_ne hle (Ne.symm hfirst)
    have hmono := LineText.start_mono (b := b) hlt
    rw [LineText.start_succ hs] at hmono
    rw [LineText.place, LineText.place]
    omega

theorem Spanned.column_from (h : Spanned b base toks span u v)
    (hs : tableGet b.lines line = some s) :
    1 ≤ span.from line ∧ span.from line ≤ s.length + b.lineTerminator.length := by
  rw [Span.from]
  split_ifs with hfirst
  · exact h.column1 s (hfirst ▸ hs)
  · have := b.terminator_pos
    omega

/-- A part that ends with its line ends where the next one begins. -/
theorem place_from_succ (hs : tableGet b.lines line = some s) (hle : span.line1 ≤ line) :
    b.place line (s.length + b.lineTerminator.length + 1) =
      b.place (line + 1) (span.from (line + 1)) := by
  have hne : line + 1 ≠ span.line1 := by omega
  rw [Span.from, if_neg hne, LineText.place, LineText.place, LineText.start_succ hs]
  push_cast
  ring

theorem Spanned.place_from_le (h : Spanned b base toks span u v)
    (hle2 : line ≤ span.line2) : b.place line (span.from line) ≤ v + base := by
  obtain ⟨s, hs⟩ := h.exists_line span.line2 h.line_le le_rfl
  have hcolumn := h.column2 s hs
  rw [Span.from]
  split_ifs with hfirst
  · rw [hfirst, h.place1]
    exact Int.add_le_add_right h.le base
  · have hmono := LineText.start_mono (b := b) hle2
    rw [← h.place2, LineText.place, LineText.place]
    omega

/-- A token is given in parts, one for each of its lines. -/
theorem Spanned.gives (h : Spanned b base toks span u v)
    (hread : readSpan b t tokens = .ok st') (hrest : Gives b t base toks stop st' (v + base))
    (hle1 : span.line1 ≤ line) (hle2 : line ≤ span.line2) :
    Gives b t base toks stop ⟨tokens, some (span, line)⟩ (b.place line (span.from line)) := by
  induction hd : span.line2 - line generalizing line with
  | zero =>
      obtain ⟨s, hs⟩ := h.exists_line line hle1 hle2
      have heq : line = span.line2 := by omega
      have hend : b.place line span.p2 = v + base := by rw [heq, h.place2]
      have hcolumn2 := h.column2 s (heq ▸ hs)
      have hplace := h.place_from_le hle2
      rw [← hend] at hplace
      refine Gives.step (nextSegment_last hread heq) rfl
        ⟨⟨s, hs, (h.column_from hs).1, Int.le_of_add_le_add_left hplace, ?_⟩,
          u, v, h.mem, h.le_place_from hle1 hle2, hend.le⟩ ?_
      · exact hcolumn2.2.trans (Int.le_add_one le_rfl)
      · rwa [hend]
  | succ d ih =>
      obtain ⟨s, hs⟩ := h.exists_line line hle1 hle2
      have hlt : line < span.line2 := by omega
      have hnext : b.place line (s.length + b.lineTerminator.length + 1) =
          b.place (line + 1) (span.from (line + 1)) := place_from_succ hs hle1
      have hcolumn := h.column_from hs
      refine Gives.step (nextSegment_inner hs hle1 hlt) rfl
        ⟨⟨s, hs, hcolumn.1, hcolumn.2.trans (Int.le_add_one le_rfl), le_rfl⟩,
          u, v, h.mem, h.le_place_from hle1 hle2, ?_⟩ ?_
      · rw [hnext]
        exact h.place_from_le hlt
      · rw [hnext]
        exact ih (hle1.trans (Nat.le_succ _)) hlt (by omega)

end Parts

/-! ## The iteration -/

/-- The ends of the tokens do not decrease, from a position on. -/
def Ascending (p : Int) (l : List (Bytes × Int)) : Prop :=
  (p :: l.map Prod.snd).Pairwise (· ≤ ·)

theorem Ascending.le_lastEnd {l : List (Bytes × Int)} (h : Ascending p l) : p ≤ lastEnd p l := by
  induction l generalizing p with
  | nil => exact le_rfl
  | cons x l ih =>
      obtain ⟨hle, htail⟩ := List.pairwise_cons.mp h
      exact (hle x.2 List.mem_cons_self).trans (ih htail)

theorem Gives.mono {toks' : List Token} {st : LineState} {x : Int}
    (h : Gives b t base toks stop st x) (hsub : ∀ k ∈ toks, k ∈ toks') :
    Gives b t base toks' stop st x := by
  intro c
  obtain ⟨segs, hyields, htiling, hall⟩ := h c
  exact ⟨segs, hyields, htiling, fun seg hseg => (hall seg hseg).mono hsub⟩

/-- A position and the one after it are the ends of a token. -/
theorem Located.spanned {i' : ℕ} {e : Int} {style : Bytes} {st' : PosState} {pos' : Pos}
    (h : Located b base i p st pos) (h' : Located b base i' e st' pos') (hpe : p ≤ e)
    (hle : pos.line ≤ pos'.line) (hle2 : pos'.line ≤ line2)
    (hlast : tableGet b.lines line2 = some last)
    (hmem : ⟨i, some (.pos p), some (.pos e), some (.style style)⟩ ∈ toks) :
    Spanned b base toks ⟨i, pos.line, pos.p, pos'.line, pos'.p, some (.style style)⟩ p e where
  mem := hmem
  le := hpe
  place1 := h.place_eq
  place2 := h'.place_eq
  line_le := hle
  column1 _ hs := h.column hs
  column2 _ hs := h'.column hs
  exists_line := by
    intro line hline hline'
    obtain ⟨s, hs⟩ := h.inside.exists_line
    have hpos : 1 ≤ pos.line := by
      rw [h.pos_eq]
      obtain ⟨pre, post, -, heq⟩ := tableGet_eq_some_iff.mp hs
      dsimp only
      omega
    exact exists_line_of_le hlast (hpos.trans hline) (hline'.trans hle2)

/-- From a position that has been read ahead on, the tokens after it are given. -/
theorem gives_of_located {l : List (Bytes × Int)} {tokens : TokenState}
    (hholds : t.Holds i p l) (hlength : t.length = i + 2 * l.length) (hasc : Ascending p l)
    (hlast : tableGet b.lines line2 = some last)
    (hend : lastEnd p l + base ≤ b.place line2 (last.length + 1))
    (hahead : tokens.ahead = some pos) (hpos : Located b base i p tokens.pos pos)
    (hline : pos.line ≤ line2) :
    ∃ st', readSpan b t tokens = .ok st' ∧
      Gives b t base (tokensOf i p l) (lastEnd p l + base) st' (p + base) := by
  induction l generalizing i p tokens pos with
  | nil =>
      have hread : readSpan b t tokens =
          .ok ⟨{ tokens with pos := { tokens.pos with i := none } }, none⟩ := by
        have hlast := nextPos_last (b := b) (t := t) (hlength.trans_lt (by simp)) hpos.index_eq
        simp only [readSpan, nextSpan, hahead, hlast]
        rfl
      refine ⟨_, hread, fun c => ⟨[], Support.Yields.done rfl, rfl, ?_⟩⟩
      intro seg hseg
      exact absurd hseg List.not_mem_nil
  | cons x l ih =>
      obtain ⟨style, e⟩ := x
      obtain ⟨-, hstyle, hrest⟩ := hholds
      obtain ⟨hle, htail⟩ := List.pairwise_cons.mp hasc
      have hpe : p ≤ e := hle e List.mem_cons_self
      have hlength' : t.length = i + 2 + 2 * l.length := by
        rw [hlength, List.length_cons]
        ring
      have hposline : tokens.pos.line = pos.line := by rw [hpos.pos_eq]
      have hehnd : e + base ≤ b.place line2 (last.length + 1) :=
        (Int.add_le_add_right (Ascending.le_lastEnd htail) base).trans hend
      obtain ⟨pos', stpos', hnext, hpos', hline', hline2⟩ := nextPos_spec (i := i + 2)
        (o := some i) rfl hpos.index_eq hpos.inside (hpos.minp_le.trans hpe) (get_of_holds hrest)
        (by omega) hlast (hposline.trans_le hline) hehnd
      have hahead' : (⟨stpos', some pos'⟩ : TokenState).ahead = some pos' := rfl
      obtain ⟨st', hread', hgives⟩ := ih hrest hlength' htail hend hahead' hpos' hline2
      have hindex : pos.i = i := by rw [hpos.pos_eq]
      let span : Span := ⟨i, pos.line, pos.p, pos'.line, pos'.p, some (.style style)⟩
      have hread : readSpan b t tokens =
          .ok ⟨⟨stpos', some pos'⟩, some (span, span.line1)⟩ := by
        simp only [readSpan, nextSpan, hahead, hnext, hindex, hstyle]
        rfl
      have hspan : Spanned b base (tokensOf i p ((style, e) :: l)) span p e :=
        hpos.spanned hpos' hpe (hposline ▸ hline') hline2 hlast List.mem_cons_self
      have hrest' := hgives.mono fun k hk => List.mem_cons_of_mem
        (⟨i, some (.pos p), some (.pos e), some (.style style)⟩ : Token) hk
      refine ⟨_, hread, ?_⟩
      have hall := hspan.gives hread' hrest' le_rfl hspan.line_le
      rwa [Span.from, if_pos rfl, hspan.place1] at hall

/-- The first position is located, and the rest of the iteration begins there. -/
theorem gives_projectLines {l : List (Bytes × Int)} {line1 : ℕ} {p1 : Int} {first : Bytes}
    (hholds : t.Holds 0 1 l) (hlength : t.length = 2 * l.length) (hasc : Ascending 1 l)
    (hfirst : tableGet b.lines line1 = some first) (hp1 : 1 ≤ p1)
    (hlast : tableGet b.lines line2 = some last) (hline : line1 ≤ line2)
    (hend : lastEnd 1 l + (b.place line1 p1 - 1) ≤ b.place line2 (last.length + 1)) :
    ∃ st, projectLines b t line1 p1 = .ok st ∧
      Gives b t (b.place line1 p1 - 1) t.tokens (lastEnd 1 l + (b.place line1 p1 - 1)) st
        (b.place line1 p1) := by
  have hsize := LineText.linesize_eq hfirst
  have hinside : Inside b (b.place line1 p1 - 1) ⟨none, line1, 1 - p1 + 1,
      first.length + b.lineTerminator.length - p1 + 1⟩ := by
    refine ⟨⟨first, hfirst⟩, ?_, ?_⟩
    · rw [LineText.place]
      ring
    · rw [LineText.place, LineText.start_succ hfirst]
      push_cast
      ring
  have hbegin : 1 + (b.place line1 p1 - 1) ≤ b.place line2 (last.length + 1) :=
    (Int.add_le_add_right (Ascending.le_lastEnd hasc) _).trans hend
  obtain ⟨pos, st, hnext, hpos, -, hline2⟩ := nextPos_spec (i := 0) (o := none) (p := 1) rfl rfl
    hinside (by dsimp only; omega) (get_of_holds hholds) (Nat.zero_le _) hlast hline hbegin
  have hahead : (⟨st, some pos⟩ : TokenState).ahead = some pos := rfl
  have hlength' : t.length = 0 + 2 * l.length := by rw [hlength, Nat.zero_add]
  obtain ⟨st', hread, hgives⟩ :=
    gives_of_located hholds hlength' hasc hlast hend hahead hpos hline2
  refine ⟨st', ?_, ?_⟩
  · simp only [projectLines, projectTokens, projectPos, hsize]
    change ((nextPos b t _ >>= _) >>= _) = _
    rw [hnext]
    exact hread
  · rw [tokens_of_holds hholds hlength]
    rwa [add_sub_cancel] at hgives

end Spec

/-! ## The bytes of the text -/

namespace LineText

variable {b : LineText} {line line1 line2 : ℕ} {s first text : Bytes} {p1 : Int}

/-- Lines with their terminators. -/
def flat (b : LineText) (l : List Bytes) : Bytes := l.flatMap (· ++ b.lineTerminator)

/-- The bytes of a segment. -/
def bytes (b : LineText) (seg : Segment) : Bytes :=
  sub ((tableGet b.lines seg.line).getD [] ++ b.lineTerminator) seg.p1 (seg.p2 - 1)

theorem flat_append (b : LineText) (l l' : List Bytes) :
    b.flat (l ++ l') = b.flat l ++ b.flat l' :=
  List.flatMap_append

theorem length_flat_take (b : LineText) (line : ℕ) :
    (b.flat (b.lines.take line)).length = b.start (line + 1) := by
  rw [flat, start, Nat.add_sub_cancel, List.length_flatMap]
  simp only [List.length_append]

theorem flat_eq_intercalate {l : List Bytes} (hl : l ≠ []) :
    b.flat l = b.lineTerminator.intercalate l ++ b.lineTerminator := by
  induction l with
  | nil => exact absurd rfl hl
  | cons s l ih =>
      cases l with
      | nil => rw [flat, List.flatMap_singleton, List.intercalate_singleton]
      | cons s' l =>
          rw [List.intercalate_cons_cons, List.append_assoc, ← ih (List.cons_ne_nil s' l)]
          rfl

theorem selectText_eq (hfirst : tableGet b.lines line1 = some first) :
    b.selectText line1 p1 (some line2) = .ok (subFrom first p1 ++
      if line2 > line1 then
        b.lineTerminator ++ b.lineTerminator.intercalate ((b.lines.take line2).drop line1)
      else []) := by
  simp only [selectText, LineText.line, hfirst, nonNil, Option.getD_some]
  split_ifs with hlt
  · rw [← List.append_assoc]
    rfl
  · rw [List.append_nil]
    rfl

/-- What is selected is what there is from the place on up to the last terminator. -/
theorem drop_of_selectText (hfirst : tableGet b.lines line1 = some first) (hp1 : 1 ≤ p1)
    (hp1' : p1 ≤ first.length + 1) (hline : line1 ≤ line2) (hline2 : line2 ≤ b.lines.length)
    (h : b.selectText line1 p1 (some line2) = .ok text) :
    (b.flat (b.lines.take line2)).drop (b.place line1 p1 - 1).toNat =
      text ++ b.lineTerminator := by
  obtain ⟨pre, post, hlines, hindex⟩ := tableGet_eq_some_iff.mp hfirst
  have hline1 : line1 = pre.length + 1 := by omega
  have htake : (b.lines.take line2).take line1 = pre ++ [first] := by
    rw [List.take_take, min_eq_left hline, hlines, hline1, List.take_length_add_append,
      List.take_succ_cons, List.take_zero]
  have hflat : b.flat (b.lines.take line2) = b.flat pre ++
      (first ++ (b.lineTerminator ++ b.flat ((b.lines.take line2).drop line1))) := by
    have hparts : b.lines.take line2 = pre ++ ([first] ++ (b.lines.take line2).drop line1) := by
      rw [← List.append_assoc, ← htake, List.take_append_drop]
    have hone : b.flat [first] = first ++ b.lineTerminator := List.flatMap_singleton _ _
    conv_lhs => rw [hparts, flat_append, flat_append, hone, List.append_assoc]
  have hstart : b.start line1 = (b.flat pre).length := by
    have hpre := b.length_flat_take pre.length
    rw [hlines, List.take_left] at hpre
    rw [hline1, hpre]
  have hdrop : (b.place line1 p1 - 1).toNat = (b.flat pre).length + (p1 - 1).toNat := by
    rw [place, hstart]
    omega
  rw [hflat, hdrop, List.drop_length_add_append, List.drop_append_of_le_length (by omega),
    ← Except.ok.inj ((selectText_eq hfirst).symm.trans h), subFrom_drop first hp1,
    List.append_assoc]
  congr 1
  split_ifs with hlt
  · have hmid : (b.lines.take line2).drop line1 ≠ [] := by
      rw [← List.length_pos_iff, List.length_drop, List.length_take]
      omega
    rw [flat_eq_intercalate hmid, List.append_assoc]
  · have hmid : (b.lines.take line2).drop line1 = [] := by
      rw [List.drop_eq_nil_iff, List.length_take]
      omega
    rw [hmid]
    exact List.append_nil _

/-- The bytes of a segment are those between its places. -/
theorem bytes_eq {seg : Segment} (hs : tableGet b.lines seg.line = some s) (h1 : 1 ≤ seg.p1)
    (hle : seg.p1 ≤ seg.p2) (h2 : seg.p2 ≤ s.length + b.lineTerminator.length + 1) :
    b.bytes seg = ((b.flat b.lines).drop (b.place seg.line seg.p1 - 1).toNat).take
      (seg.p2 - seg.p1).toNat := by
  obtain ⟨pre, post, hlines, hindex⟩ := tableGet_eq_some_iff.mp hs
  have hline : seg.line = pre.length + 1 := by omega
  have hflat : b.flat b.lines = b.flat pre ++ ((s ++ b.lineTerminator) ++ b.flat post) := by
    rw [hlines, flat_append]
    rfl
  have hstart : b.start seg.line = (b.flat pre).length := by
    have hpre := b.length_flat_take pre.length
    rw [hlines, List.take_left] at hpre
    rw [hline, hpre]
  have hdrop : (b.place seg.line seg.p1 - 1).toNat =
      (b.flat pre).length + (seg.p1 - 1).toNat := by
    rw [place, hstart]
    omega
  have hlength : (s ++ b.lineTerminator).length = s.length + b.lineTerminator.length :=
    List.length_append
  have htake : (seg.p2 - 1).toNat - (seg.p1 - 1).toNat = (seg.p2 - seg.p1).toNat := by omega
  have hin : (seg.p1 - 1).toNat ≤ (s ++ b.lineTerminator).length := by omega
  have hend : (seg.p2 - seg.p1).toNat ≤
      ((s ++ b.lineTerminator).drop (seg.p1 - 1).toNat).length := by
    rw [List.length_drop]
    omega
  rw [bytes, hs, Option.getD_some, sub_eq_take_drop _ h1 (by omega), List.drop_take, htake, hflat,
    hdrop, List.drop_length_add_append, List.drop_append_of_le_length hin,
    List.take_append_of_le_length hend]

end LineText

/-- Segments that follow each other have the bytes between the places. -/
theorem bytes_of_tiling {b : LineText} {base x y : Int} {toks : List Token}
    {segs : List Segment} (h : Tiling b x segs y) (hfits : ∀ seg ∈ segs, Fits b base toks seg)
    (hx : 1 ≤ x) : x ≤ y ∧ segs.flatMap b.bytes =
      ((b.flat b.lines).drop (x - 1).toNat).take (y - x).toNat := by
  induction segs generalizing x with
  | nil =>
      obtain rfl : x = y := h
      rw [sub_self, Int.toNat_zero, List.take_zero]
      exact ⟨le_rfl, rfl⟩
  | cons seg segs ih =>
      obtain ⟨rfl, hrest⟩ := h
      obtain ⟨s, hs, h1, hle, h2⟩ := (hfits seg List.mem_cons_self).in_line
      have hplace : b.place seg.line seg.p2 = b.place seg.line seg.p1 + (seg.p2 - seg.p1) := by
        rw [LineText.place, LineText.place]
        ring
      obtain ⟨hy, hbytes⟩ := ih hrest (fun seg' hseg' => hfits seg' (List.mem_cons_of_mem _ hseg'))
        (by omega)
      refine ⟨by omega, ?_⟩
      have hlength : (y - b.place seg.line seg.p1).toNat =
          (seg.p2 - seg.p1).toNat + (y - b.place seg.line seg.p2).toNat := by omega
      have hdrop : (b.place seg.line seg.p2 - 1).toNat =
          (b.place seg.line seg.p1 - 1).toNat + (seg.p2 - seg.p1).toNat := by omega
      rw [List.flatMap_cons, LineText.bytes_eq hs h1 hle h2, hbytes, hlength, hdrop,
        List.take_add, List.drop_drop]

/-- The segments that are given for a text follow each other from its beginning to its end,
each in one line and in the token that it has the style of, and have the bytes of the text. -/
theorem project_lines_tile (b : LineText) {t : TokenList} {l : List (Bytes × Int)}
    {line1 line2 : ℕ} {p1 : Int} {first text : Bytes}
    (hfirst : tableGet b.lines line1 = some first) (hp1 : 1 ≤ p1)
    (hp1' : p1 ≤ first.length + 1) (hline : line1 ≤ line2) (hline2 : line2 ≤ b.lines.length)
    (htext : b.selectText line1 p1 (some line2) = .ok text)
    (hholds : t.Holds 0 1 l) (hlength : t.length = 2 * l.length) (hasc : Ascending 1 l)
    (hend : lastEnd 1 l = text.length + 1) :
    ∃ st segs, projectLines b t line1 p1 = .ok st ∧
      (∀ segs', Support.Yields (fun _ st => nextSegment b t st) none st segs' ↔ segs' = segs) ∧
      Tiling b (b.place line1 p1) segs (b.place line1 p1 + text.length) ∧
      (∀ seg ∈ segs, Fits b (b.place line1 p1 - 1) t.tokens seg) ∧
      segs.flatMap b.bytes = text := by
  obtain ⟨pre, post, -, hindex⟩ := tableGet_eq_some_iff.mp hfirst
  have hone : 1 ≤ line2 := by omega
  obtain ⟨last, hlast⟩ := b.exists_line hone hline2
  have hdrop := LineText.drop_of_selectText hfirst hp1 hp1' hline hline2 htext
  have hin := congrArg List.length hdrop
  have hterm := b.terminator_pos
  rw [List.length_drop, LineText.length_flat_take, LineText.start_succ hlast,
    List.length_append] at hin
  have hbegin : 1 ≤ b.place line1 p1 := by
    rw [LineText.place]
    omega
  have hplace : b.place line1 p1 + text.length = b.place line2 (last.length + 1) := by
    simp only [LineText.place] at hin hbegin ⊢
    omega
  have hstop : lastEnd 1 l + (b.place line1 p1 - 1) = b.place line1 p1 + text.length := by
    rw [hend]
    ring
  obtain ⟨st, hproject, hgives⟩ := gives_projectLines hholds hlength hasc hfirst hp1 hlast hline
    (hstop.trans hplace).le
  obtain ⟨segs, hyields, htiling, hfits⟩ := hgives none
  rw [hstop] at htiling
  refine ⟨st, segs, hproject, fun segs' => hyields.iff_eq, htiling, hfits, ?_⟩
  have hlines : b.flat b.lines = b.flat (b.lines.take line2) ++ b.flat (b.lines.drop line2) := by
    rw [← LineText.flat_append, List.take_append_drop]
  have hbefore : (b.place line1 p1 - 1).toNat ≤ (b.flat (b.lines.take line2)).length := by
    rw [LineText.length_flat_take, LineText.start_succ hlast]
    omega
  rw [(bytes_of_tiling htiling hfits hbegin).2, add_sub_cancel_left, Int.toNat_natCast, hlines,
    List.drop_append_of_le_length hbefore, hdrop, List.append_assoc, List.take_left]

/-- Three lines, of which the second is empty. -/
def sampleText : LineText where
  lines := [[97, 98], [], [99]]
  lineTerminator := [10]
  terminator_ne := List.cons_ne_nil 10 []

/-- A token that ends where the second line does, and one that is empty. -/
def sampleTokens : TokenList where
  entries := [some (.pos 1), some (.style [120]), some (.pos 4), some (.style [121]),
    some (.pos 4), some (.style [122]), some (.pos 5)]
  len := none

theorem project_lines_tile_sample :
    ∃ st segs, projectLines sampleText sampleTokens 1 2 = .ok st ∧
      (∀ segs', Support.Yields (fun _ st => nextSegment sampleText sampleTokens st) none st segs' ↔
        segs' = segs) ∧
      Tiling sampleText (sampleText.place 1 2) segs (sampleText.place 1 2 + 4) ∧
      (∀ seg ∈ segs, Fits sampleText (sampleText.place 1 2 - 1) sampleTokens.tokens seg) ∧
      segs.flatMap sampleText.bytes = [98, 10, 10, 99] :=
  @project_lines_tile sampleText sampleTokens [([120], 4), ([121], 4), ([122], 5)] 1 3 2 [97, 98]
    [98, 10, 10, 99] rfl (by decide) (by decide) (by decide) (by decide) rfl
    ⟨rfl, rfl, rfl, rfl, rfl, rfl, rfl⟩ rfl (by unfold Ascending; decide) rfl

end Projection

end LuaAttic.Codedit
