import Mathlib.Data.List.Basic
import Mathlib.Tactic.Ring
import LuaAttic.Lua.Basic

/-!
# Flat token lists

The highlighter keeps the tokens of a text in an array of positions and styles, where
the position after a style is the end of its token and the start of the next one.
`replace_tokens` writes new tokens over the ones from an index on, and shifts the
starts of the new tokens but not their ends; an end is right only because the next
token writes its start over it, and the last token has no next one.
-/

namespace LuaAttic.Codedit

open LuaAttic.Lua

/-- What a slot of a token list holds. -/
inductive Entry where
  | pos (p : Int)
  | style (s : Bytes)
  deriving DecidableEq, Repr

/-- A token list: an array from the index zero on, and the length of it if that is
set. -/
structure TokenList where
  entries : List (Option Entry)
  len : Option ℕ
  deriving DecidableEq, Repr

/-- What `tokens` gives for a token: its index, where it starts and ends, and its
style. -/
structure Token where
  i : ℕ
  p1 : Option Entry
  p2 : Option Entry
  style : Option Entry
  deriving DecidableEq, Repr

namespace TokenList

/-- `t[k]` -/
def get (t : TokenList) (k : ℕ) : Option Entry := t.entries[k]?.join

/-- `t[k] = e` -/
def put (t : TokenList) (k : ℕ) (e : Option Entry) : TokenList :=
  let padding := List.replicate (k + 1 - t.entries.length) none
  { t with entries := (t.entries ++ padding).set k e }

/-- `len`: the explicit length, or `#t`, which does not count the index zero. -/
def length (t : TokenList) : ℕ :=
  t.len.getD (t.entries.tail.takeWhile Option.isSome).length

/-- `unpack_token` -/
def unpackToken (t : TokenList) (i : ℕ) : Option Token :=
  if i ≥ t.length then none
  else some ⟨i, t.get i, t.get (i + 2), t.get (i + 1)⟩

/-- `next_token` -/
def nextToken (t : TokenList) (i : Option ℕ) : Option Token :=
  t.unpackToken (i.elim 0 (· + 2))

/-- The tokens after the index, or all of them; each has a higher index than the one
before, so that the fuel is not used up. -/
def tokensAfter (t : TokenList) : ℕ → Option ℕ → List Token
  | 0, _ => []
  | fuel + 1, i =>
      match t.nextToken i with
      | none => []
      | some token => token :: tokensAfter t fuel (some token.i)

/-- `for i, p1, p2, style in tokens(t)` -/
def tokens (t : TokenList) : List Token := t.tokensAfter (t.length + 1) none

end TokenList

/-- A number in an arithmetic operation; a style is not a numeral. -/
def position : Option Entry → Except Error Int
  | some (.pos p) => .ok p
  | some (.style _) => .error .badArgument
  | none => .error .nilArith

/-- `lex_text`, where `lex` gives the style and the end of each token of a string. -/
def lexText (lex : Bytes → List (Bytes × Int)) (s : Bytes) : TokenList where
  entries := some (.pos 1) :: (lex s).flatMap fun x => [some (.style x.1), some (.pos x.2)]
  len := none

/-- What the loop of `replace_tokens` does with a token. -/
def replaceToken (i : ℕ) (p0 : Int) (t : TokenList) (token : Token) :
    Except Error TokenList := do
  let p1 ← position token.p1
  let t := t.put (i + token.i) (some (.pos (p1 + p0)))
  let t := t.put (i + token.i + 1) token.style
  return t.put (i + token.i + 2) token.p2

/-- `replace_tokens` -/
def replaceTokens (t : TokenList) (i : ℕ) (newt : TokenList) : Except Error TokenList := do
  let p ← position (t.get i)
  let p0 := p - 1
  let t ← newt.tokens.foldlM (replaceToken i p0) t
  return { t with len := some (i + newt.length) }

/-! ## Reading and writing -/

namespace TokenList

@[simp] theorem get_put_self (t : TokenList) (k : ℕ) (e : Option Entry) :
    (t.put k e).get k = e := by
  have hk : k < (t.entries ++ List.replicate (k + 1 - t.entries.length) none).length := by
    rw [List.length_append, List.length_replicate]
    omega
  rw [get, put, List.getElem?_set_self hk, Option.join_some]

theorem get_put_of_ne {t : TokenList} {j k : ℕ} (h : j ≠ k) (e : Option Entry) :
    (t.put k e).get j = t.get j := by
  simp only [get, put, List.getElem?_set_ne h.symm]
  rcases lt_or_ge j t.entries.length with hj | hj
  · rw [List.getElem?_append_left hj]
  · rw [List.getElem?_append_right hj, List.getElem?_eq_none hj, List.getElem?_replicate]
    split <;> rfl

/-! ## What a token list holds -/

/-- From the index on there are the tokens, given by the start of the first one and
the styles and ends of all, and after them the end of the last one. -/
def Holds (t : TokenList) : ℕ → Int → List (Bytes × Int) → Prop
  | i, p, [] => t.get i = some (.pos p)
  | i, p, (s, e) :: rest =>
      t.get i = some (.pos p) ∧ t.get (i + 1) = some (.style s) ∧ t.Holds (i + 2) e rest

/-- A flat token list: there are tokens up to its length. -/
def Flat (t : TokenList) : Prop :=
  ∃ p toks, t.Holds 0 p toks ∧ t.length = 2 * toks.length

end TokenList

/-- The tokens with these styles and ends, from an index and a position on. -/
def tokensOf : ℕ → Int → List (Bytes × Int) → List Token
  | _, _, [] => []
  | i, p, (s, e) :: rest =>
      ⟨i, some (.pos p), some (.pos e), some (.style s)⟩ :: tokensOf (i + 2) e rest

/-- Where the last of the tokens ends. -/
def lastEnd : Int → List (Bytes × Int) → Int
  | p, [] => p
  | _, (_, e) :: rest => lastEnd e rest

/-- Tokens with all their ends shifted. -/
def shifted (p0 : Int) (toks : List (Bytes × Int)) : List (Bytes × Int) :=
  toks.map fun x => (x.1, x.2 + p0)

/-- Tokens with their ends shifted but for the last one. -/
def shiftedButLast (p0 : Int) (toks : List (Bytes × Int)) : List (Bytes × Int) :=
  shifted p0 toks.dropLast ++ toks.getLast?.toList

/-! ## The tokens that are enumerated -/

theorem nextToken_eq {t : TokenList} {i : ℕ} {o : Option ℕ} (ho : o.elim 0 (· + 2) = i)
    (hi : i < t.length) :
    t.nextToken o = some ⟨i, t.get i, t.get (i + 2), t.get (i + 1)⟩ := by
  rw [TokenList.nextToken, TokenList.unpackToken, ho, if_neg (Nat.not_le.mpr hi)]

/-- The position after the last style is read with the token before it. -/
theorem get_of_holds {t : TokenList} {i : ℕ} {p : Int} {toks : List (Bytes × Int)}
    (h : t.Holds i p toks) : t.get i = some (.pos p) := by
  rcases toks with - | ⟨x, rest⟩
  · exact h
  · exact h.1

theorem tokensAfter_of_holds {t : TokenList} {i : ℕ} {p : Int} {toks : List (Bytes × Int)}
    {o : Option ℕ} {fuel : ℕ} (ho : o.elim 0 (· + 2) = i) (h : t.Holds i p toks)
    (hlength : t.length = i + 2 * toks.length) (hfuel : toks.length < fuel) :
    t.tokensAfter fuel o = tokensOf i p toks := by
  induction toks generalizing i p o fuel with
  | nil =>
      obtain ⟨fuel, rfl⟩ := Nat.exists_eq_add_one.mpr hfuel
      have hnone : t.nextToken o = none := by
        rw [TokenList.nextToken, TokenList.unpackToken, ho]
        exact if_pos hlength.le
      simp only [TokenList.tokensAfter, hnone, tokensOf]
  | cons x rest ih =>
      obtain ⟨fuel, rfl⟩ := Nat.exists_eq_add_one.mpr (Nat.zero_lt_of_lt hfuel)
      obtain ⟨hstart, hstyle, hrest⟩ := h
      have hi : i < t.length := by
        rw [hlength, List.length_cons]
        omega
      simp only [TokenList.tokensAfter, nextToken_eq ho hi, hstart, hstyle,
        get_of_holds hrest, tokensOf]
      have hlength' : t.length = i + 2 + 2 * rest.length := by
        rw [hlength, List.length_cons]
        ring
      have hnext : (some i).elim 0 (· + 2) = i + 2 := rfl
      rw [ih hnext hrest hlength' (Nat.lt_of_succ_lt_succ hfuel)]

/-- A flat list gives the tokens that it holds. -/
theorem tokens_of_holds {t : TokenList} {p : Int} {toks : List (Bytes × Int)}
    (h : t.Holds 0 p toks) (hlength : t.length = 2 * toks.length) :
    t.tokens = tokensOf 0 p toks := by
  have hlength' : t.length = 0 + 2 * toks.length := by rw [hlength, Nat.zero_add]
  have hfirst : (none : Option ℕ).elim 0 (· + 2) = 0 := rfl
  exact tokensAfter_of_holds hfirst h hlength' (by omega)

theorem tokensOf_append {i : ℕ} {p : Int} (toks toks' : List (Bytes × Int)) :
    tokensOf i p (toks ++ toks') =
      tokensOf i p toks ++ tokensOf (i + 2 * toks.length) (lastEnd p toks) toks' := by
  induction toks generalizing i p with
  | nil => rfl
  | cons x rest ih =>
      have hindex : i + 2 + 2 * rest.length = i + 2 * (rest.length + 1) := by ring
      simp only [List.cons_append, tokensOf, ih, lastEnd, List.length_cons, hindex]

theorem tokensOf_eq_nil_iff {i : ℕ} {p : Int} {toks : List (Bytes × Int)} :
    tokensOf i p toks = [] ↔ toks = [] := by
  rcases toks with - | ⟨x, rest⟩ <;> simp [tokensOf]

theorem tokensOf_injective {i : ℕ} {p : Int} {toks toks' : List (Bytes × Int)}
    (h : tokensOf i p toks = tokensOf i p toks') : toks = toks' := by
  induction toks generalizing i p toks' with
  | nil => exact (tokensOf_eq_nil_iff.mp h.symm).symm
  | cons x rest ih =>
      rcases toks' with - | ⟨y, rest'⟩
      · exact absurd h (by simp [tokensOf])
      · simp only [tokensOf, List.cons.injEq, Token.mk.injEq, Option.some.injEq,
          Entry.pos.injEq, Entry.style.injEq] at h
        obtain ⟨⟨-, -, hend, hstyle⟩, hrest⟩ := h
        rw [hend] at hrest
        rw [Prod.ext hstyle hend, ih hrest]

/-- A token of the list comes after some of the tokens, at the index and the position
where these end. -/
theorem exists_of_mem_tokensOf {i : ℕ} {p : Int} {toks : List (Bytes × Int)} {k : Token}
    (hk : k ∈ tokensOf i p toks) : ∃ pre x post, toks = pre ++ x :: post ∧
      k.i = i + 2 * pre.length ∧ k.p1 = some (.pos (lastEnd p pre)) := by
  induction toks generalizing i p with
  | nil => exact absurd hk List.not_mem_nil
  | cons x rest ih =>
      rcases List.mem_cons.mp hk with rfl | hk
      · exact ⟨[], x, rest, rfl, rfl, rfl⟩
      · obtain ⟨pre, y, post, rfl, hindex, hstart⟩ := ih hk
        refine ⟨x :: pre, y, post, rfl, ?_, hstart⟩
        rw [hindex, List.length_cons]
        ring

theorem le_of_mem_tokensOf {i : ℕ} {p : Int} {toks : List (Bytes × Int)} {k : Token}
    (hk : k ∈ tokensOf i p toks) : i ≤ k.i ∧ k.i < i + 2 * toks.length := by
  obtain ⟨pre, x, post, rfl, hindex, -⟩ := exists_of_mem_tokensOf hk
  rw [List.length_append, List.length_cons]
  omega

/-! ## A lexed text -/

theorem holds_append (entries : List (Option Entry)) (len : Option ℕ) (p : Int)
    (toks : List (Bytes × Int)) :
    TokenList.Holds ⟨entries ++ some (.pos p) ::
      toks.flatMap fun x => [some (.style x.1), some (.pos x.2)], len⟩
      entries.length p toks := by
  induction toks generalizing entries p with
  | nil => simp [TokenList.Holds, TokenList.get]
  | cons x rest ih =>
      refine ⟨by simp [TokenList.get], by simp [TokenList.get], ?_⟩
      have hrest := ih (entries ++ [some (.pos p), some (.style x.1)]) x.2
      simpa using hrest

theorem lexText_holds (lex : Bytes → List (Bytes × Int)) (s : Bytes) :
    (lexText lex s).Holds 0 1 (lex s) :=
  holds_append [] none 1 (lex s)

theorem length_lexText (lex : Bytes → List (Bytes × Int)) (s : Bytes) :
    (lexText lex s).length = 2 * (lex s).length := by
  have hall : ∀ e ∈ (lexText lex s).entries.tail, Option.isSome e = true := by
    intro e he
    obtain ⟨x, -, hx⟩ := List.mem_flatMap.mp he
    rcases List.mem_pair.mp hx with rfl | rfl <;> rfl
  have htake := List.takeWhile_eq_self_iff.mpr hall
  simp only [TokenList.length, htake]
  simp [lexText, Nat.mul_comm]

theorem tokens_lexText (lex : Bytes → List (Bytes × Int)) (s : Bytes) :
    (lexText lex s).tokens = tokensOf 0 1 (lex s) :=
  tokens_of_holds (lexText_holds lex s) (length_lexText lex s)

/-! ## Replacing the tokens -/

/-- The loop writes a token into three slots, the first of which is the end of the token
before. -/
theorem replaceToken_spec (i j : ℕ) (p0 p e : Int) (s : Bytes) (t : TokenList) :
    ∃ t', replaceToken i p0 t ⟨j, some (.pos p), some (.pos e), some (.style s)⟩ = .ok t' ∧
      t'.get (i + j) = some (.pos (p + p0)) ∧ t'.get (i + j + 1) = some (.style s) ∧
      t'.get (i + j + 2) = some (.pos e) ∧ ∀ k < i + j, t'.get k = t.get k := by
  refine ⟨((t.put (i + j) (some (.pos (p + p0)))).put (i + j + 1) (some (.style s))).put
    (i + j + 2) (some (.pos e)), rfl, ?_, ?_, TokenList.get_put_self _ _ _, ?_⟩
  · rw [TokenList.get_put_of_ne (by omega), TokenList.get_put_of_ne (by omega),
      TokenList.get_put_self]
  · rw [TokenList.get_put_of_ne (by omega), TokenList.get_put_self]
  · intro k hk
    rw [TokenList.get_put_of_ne (by omega), TokenList.get_put_of_ne (by omega),
      TokenList.get_put_of_ne (by omega)]

theorem shiftedButLast_cons {p0 : Int} (x : Bytes × Int) {rest : List (Bytes × Int)}
    (hrest : rest ≠ []) :
    shiftedButLast p0 (x :: rest) = (x.1, x.2 + p0) :: shiftedButLast p0 rest := by
  obtain ⟨y, rest, rfl⟩ := List.exists_cons_of_ne_nil hrest
  simp [shiftedButLast, shifted]

/-- What the loop leaves from its first index on; the end of each token but the last is
overwritten by the start of the next one. -/
theorem replaceLoop_spec (i j : ℕ) (p0 q : Int) (toks : List (Bytes × Int)) (t : TokenList) :
    ∃ t', (tokensOf j q toks).foldlM (replaceToken i p0) t = .ok t' ∧
      (∀ k < i + j, t'.get k = t.get k) ∧ (toks = [] → t' = t) ∧
      (toks ≠ [] → t'.Holds (i + j) (q + p0) (shiftedButLast p0 toks)) := by
  induction toks generalizing j q t with
  | nil => exact ⟨t, rfl, fun _ _ => rfl, fun _ => rfl, fun h => absurd rfl h⟩
  | cons x rest ih =>
      obtain ⟨t₁, hstep, hstart, hstyle, hend, hbelow⟩ :=
        replaceToken_spec i j p0 q x.2 x.1 t
      obtain ⟨t', hloop, hkept, hnil, hholds⟩ := ih (j + 2) x.2 t₁
      refine ⟨t', ?_, ?_, fun h => absurd h (List.cons_ne_nil _ _), ?_⟩
      · rw [tokensOf, List.foldlM_cons, hstep]
        exact hloop
      · intro k hk
        rw [hkept k (by omega), hbelow k hk]
      · intro _
        by_cases hrest : rest = []
        · obtain rfl := hnil hrest
          subst hrest
          exact ⟨hstart, hstyle, hend⟩
        · rw [shiftedButLast_cons x hrest]
          refine ⟨?_, ?_, hholds hrest⟩
          · rw [hkept _ (by omega), hstart]
          · rw [hkept _ (by omega), hstyle]

/-- The tokens before the index stay, where what is from the index on starts where the
last of them ends. -/
theorem holds_replace {t t' : TokenList} {i : ℕ} {p : Int} {pre post new : List (Bytes × Int)}
    (h : t.Holds i p (pre ++ post)) (hkept : ∀ k < i + 2 * pre.length, t'.get k = t.get k)
    (hnew : t'.Holds (i + 2 * pre.length) (lastEnd p pre) new) :
    t'.Holds i p (pre ++ new) := by
  induction pre generalizing i p with
  | nil => exact hnew
  | cons x pre ih =>
      obtain ⟨hstart, hstyle, hrest⟩ := h
      rw [List.length_cons] at hkept hnew
      refine ⟨?_, ?_, ih hrest ?_ ?_⟩
      · rw [hkept _ (by omega), hstart]
      · rw [hkept _ (by omega), hstyle]
      · intro k hk
        exact hkept k (by omega)
      · have hindex : i + 2 * (pre.length + 1) = i + 2 + 2 * pre.length := by ring
        rw [hindex] at hnew
        exact hnew

theorem holds_of_append {t : TokenList} {i : ℕ} {p : Int} {pre post : List (Bytes × Int)}
    (h : t.Holds i p (pre ++ post)) :
    t.Holds (i + 2 * pre.length) (lastEnd p pre) post := by
  induction pre generalizing i p with
  | nil => exact h
  | cons x pre ih =>
      have hindex : i + 2 * (pre.length + 1) = i + 2 + 2 * pre.length := by ring
      rw [List.length_cons, hindex]
      exact ih h.2.2

theorem length_shiftedButLast (p0 : Int) (toks : List (Bytes × Int)) :
    (shiftedButLast p0 toks).length = toks.length := by
  rcases List.eq_nil_or_concat' toks with rfl | ⟨init, last, rfl⟩ <;>
    simp [shiftedButLast, shifted]

/-- The explicit length is not an entry. -/
theorem holds_setLen {t : TokenList} {i : ℕ} {p : Int} {toks : List (Bytes × Int)}
    (h : t.Holds i p toks) (len : Option ℕ) :
    TokenList.Holds { t with len := len } i p toks := by
  induction toks generalizing i p with
  | nil => exact h
  | cons x rest ih => exact ⟨h.1, h.2.1, ih h.2.2⟩

/-- A flat list stays one: the tokens before the index, and the new ones with the last
end as it is. -/
theorem replaceTokens_holds {t : TokenList} {p : Int} {pre post : List (Bytes × Int)}
    (h : t.Holds 0 p (pre ++ post)) (lex : Bytes → List (Bytes × Int)) (s : Bytes) :
    ∃ t', replaceTokens t (2 * pre.length) (lexText lex s) = .ok t' ∧
      t'.Holds 0 p (pre ++ shiftedButLast (lastEnd p pre - 1) (lex s)) ∧
      t'.length = 2 * (pre.length + (lex s).length) := by
  have hget := get_of_holds (holds_of_append h)
  rw [Nat.zero_add] at hget
  obtain ⟨t₁, hloop, hkept, hnil, hholds⟩ :=
    replaceLoop_spec (2 * pre.length) 0 (lastEnd p pre - 1) 1 (lex s) t
  have hnew : t₁.Holds (0 + 2 * pre.length) (lastEnd p pre)
      (shiftedButLast (lastEnd p pre - 1) (lex s)) := by
    rw [Nat.zero_add]
    by_cases hlex : lex s = []
    · rw [hnil hlex, hlex]
      exact hget
    · have hstart : 1 + (lastEnd p pre - 1) = lastEnd p pre := by ring
      have hfrom := hholds hlex
      rw [hstart] at hfrom
      exact hfrom
  have hbelow : ∀ k < 0 + 2 * pre.length, t₁.get k = t.get k := by
    intro k hk
    exact hkept k (by omega)
  refine ⟨{ t₁ with len := some (2 * pre.length + (lexText lex s).length) }, ?_,
    holds_setLen (holds_replace h hbelow hnew) _, ?_⟩
  · simp only [replaceTokens, hget, position, tokens_lexText, bind, Except.bind, hloop]
    rfl
  · rw [length_lexText]
    simp only [TokenList.length, Option.getD_some]
    ring

theorem tokens_replaceTokens {t t' : TokenList} {p : Int} {pre post : List (Bytes × Int)}
    (h : t.Holds 0 p (pre ++ post)) (lex : Bytes → List (Bytes × Int)) (s : Bytes)
    (ht' : replaceTokens t (2 * pre.length) (lexText lex s) = .ok t') :
    t'.tokens = tokensOf 0 p pre ++ tokensOf (2 * pre.length) (lastEnd p pre)
      (shiftedButLast (lastEnd p pre - 1) (lex s)) := by
  obtain ⟨t₁, hok, hholds, hlength⟩ := replaceTokens_holds h lex s
  obtain rfl := Except.ok.inj (hok.symm.trans ht')
  have htokens := tokens_of_holds hholds (by
    rw [hlength, List.length_append, length_shiftedButLast])
  rw [htokens, tokensOf_append, Nat.zero_add]

/-! ## The shifts -/

/-- A position shifted. -/
def Entry.shift (p0 : Int) : Entry → Entry
  | .pos p => .pos (p + p0)
  | .style s => .style s

/-- A token of a text that starts at the index `i` and the position `p0 + 1`. -/
def Token.shift (i : ℕ) (p0 : Int) (x : Token) : Token where
  i := i + x.i
  p1 := x.p1.map (Entry.shift p0)
  p2 := x.p2.map (Entry.shift p0)
  style := x.style

theorem map_shift_tokensOf (i j : ℕ) (p0 q : Int) (toks : List (Bytes × Int)) :
    (tokensOf j q toks).map (Token.shift i p0) = tokensOf (i + j) (q + p0) (shifted p0 toks) := by
  induction toks generalizing j q with
  | nil => rfl
  | cons x rest ih =>
      simp only [tokensOf, List.map_cons, ih]
      rfl

/-- Only the last end tells the two apart. -/
theorem shiftedButLast_eq_iff {p0 : Int} {toks : List (Bytes × Int)} :
    shiftedButLast p0 toks = shifted p0 toks ↔ p0 = 0 ∨ toks = [] := by
  rcases List.eq_nil_or_concat' toks with rfl | ⟨init, last, rfl⟩
  · simp [shiftedButLast, shifted]
  · have hlast : last.2 = last.2 + p0 ↔ p0 = 0 := left_eq_add
    simp [shiftedButLast, shifted, Prod.ext_iff, hlast]

theorem filter_tokensOf (p : Int) (pre post : List (Bytes × Int)) :
    (tokensOf 0 p (pre ++ post)).filter (·.i < 2 * pre.length) = tokensOf 0 p pre := by
  have hpre : ∀ k ∈ tokensOf 0 p pre, decide (k.i < 2 * pre.length) = true := by
    intro k hk
    have hbounds := le_of_mem_tokensOf hk
    exact decide_eq_true (by omega)
  have hpost : ∀ k ∈ tokensOf (0 + 2 * pre.length) (lastEnd p pre) post,
      ¬ decide (k.i < 2 * pre.length) = true := by
    intro k hk
    have hbounds := le_of_mem_tokensOf hk
    rw [decide_eq_true_eq]
    omega
  rw [tokensOf_append, List.filter_append, List.filter_eq_self.mpr hpre,
    List.filter_eq_nil_iff.mpr hpost, List.append_nil]

/-- Replacing the tokens from a token on gives the tokens before it and the new ones,
shifted to where it starts, exactly where there is nothing to shift. -/
theorem replaceTokens_iff {t : TokenList} (ht : t.Flat) {k : Token} (hk : k ∈ t.tokens)
    (lex : Bytes → List (Bytes × Int)) (s : Bytes) :
    ∃ p t', k.p1 = some (.pos p) ∧ replaceTokens t k.i (lexText lex s) = .ok t' ∧
      (t'.tokens = t.tokens.filter (·.i < k.i) ++
          (lexText lex s).tokens.map (Token.shift k.i (p - 1)) ↔
        p = 1 ∨ (lexText lex s).tokens = []) := by
  obtain ⟨q, toks, hholds, hlength⟩ := ht
  rw [tokens_of_holds hholds hlength] at hk ⊢
  obtain ⟨pre, x, post, rfl, hindex, hstart⟩ := exists_of_mem_tokensOf hk
  rw [Nat.zero_add] at hindex
  obtain ⟨t', hok, -, -⟩ := replaceTokens_holds hholds lex s
  refine ⟨lastEnd q pre, t', hstart, ?_, ?_⟩
  · rw [hindex]
    exact hok
  · have hfirst : 1 + (lastEnd q pre - 1) = lastEnd q pre := by ring
    have hzero : lastEnd q pre - 1 = 0 ↔ lastEnd q pre = 1 := sub_eq_zero
    rw [tokens_replaceTokens hholds lex s hok, hindex, filter_tokensOf, tokens_lexText,
      map_shift_tokensOf, hfirst, Nat.add_zero, List.append_cancel_left_eq,
      tokensOf_eq_nil_iff, ← hzero, ← shiftedButLast_eq_iff]
    exact ⟨tokensOf_injective, fun h => by rw [h]⟩

/-- Two tokens of one character each. -/
def twoTokens : TokenList :=
  lexText (fun _ => [([97], 2), ([98], 3)]) []

theorem flat_twoTokens : twoTokens.Flat :=
  ⟨1, [([97], 2), ([98], 3)], lexText_holds _ _, length_lexText _ _⟩

/-- The second of the tokens. -/
def secondToken : Token := ⟨2, some (.pos 2), some (.pos 3), some (.style [98])⟩

/-- The second of two tokens does not start at the position 1, and there is a token to
put in its place. -/
theorem replaceTokens_iff_second : ∃ t',
    replaceTokens twoTokens 2 (lexText (fun _ => [([98], 2)]) [98]) = .ok t' ∧
      ¬ t'.tokens = twoTokens.tokens.filter (·.i < 2) ++
        (lexText (fun _ => [([98], 2)]) [98]).tokens.map (Token.shift 2 1) := by
  have hmem : secondToken ∈ twoTokens.tokens := by decide
  obtain ⟨p, t', hp, hok, hiff⟩ :=
    replaceTokens_iff flat_twoTokens hmem (fun _ => [([98], 2)]) [98]
  obtain rfl : p = 2 := by simpa [secondToken, eq_comm] using hp
  refine ⟨t', hok, ?_⟩
  intro htokens
  exact absurd (hiff.mp htokens) (by decide)

/-- The new token ends where it does in its own text, which is where it starts now. -/
theorem replaceTokens_last_end : twoTokens.Flat ∧ secondToken ∈ twoTokens.tokens ∧ ∃ t',
    replaceTokens twoTokens secondToken.i (lexText (fun _ => [([98], 2)]) [98]) = .ok t' ∧
      t'.tokens = [⟨0, some (.pos 1), some (.pos 2), some (.style [97])⟩,
        ⟨2, some (.pos 2), some (.pos 2), some (.style [98])⟩] ∧
      t'.tokens ≠ twoTokens.tokens.filter (·.i < secondToken.i) ++
        (lexText (fun _ => [([98], 2)]) [98]).tokens.map (Token.shift secondToken.i 1) := by
  refine ⟨flat_twoTokens, by decide, _, rfl, by decide, by decide⟩

end LuaAttic.Codedit
