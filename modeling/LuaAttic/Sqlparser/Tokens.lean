import LuaAttic.Lua.Pattern

/-!
# The tokens of a query (`sqlparser.lua`)

A pass skips white space and then tries one class of tokens after the other.
Positions are counted from one; the end of a token is the position after it, and
is nil for a comment that does not match.
-/

namespace LuaAttic.Sqlparser

open LuaAttic.Lua

/-! ## Tokens -/

inductive Kind
  | space
  | comment
  | string
  | ident
  | number
  | nparam
  | vparam
  | op
  | error
  deriving DecidableEq, Repr

/-- What is yielded: `kind, i, j, text`. -/
structure Token where
  kind : Kind
  i : ℕ
  j : Option ℕ
  text : Option Bytes := none
  deriving DecidableEq, Repr

/-- How a pass ends: `goto again` with a position, which can be nil, `return`, or
an error that is raised. -/
inductive Next
  | again (i : Option ℕ)
  | stop
  | raise (e : Error)
  deriving DecidableEq, Repr

structure Pass where
  tokens : List Token
  next : Next
  deriving DecidableEq, Repr

/-- `yield(kind, i, j, text); i = j; goto again` -/
def Pass.accept (kind : Kind) (i j : ℕ) (text : Option Bytes := none) : Pass :=
  ⟨[⟨kind, i, some j, text⟩], .again (some j)⟩

/-- `yield('error', i, j, text); return` -/
def Pass.reject (i j : ℕ) (text : Bytes) : Pass :=
  ⟨[⟨.error, i, some j, some text⟩], .stop⟩

/-! ## Matching -/

/-- `s:match(p, i)` for a pattern that starts with `^`. -/
def matchAt (p : Pattern) (s : Bytes) (i : ℕ) : Option Match :=
  p.matchHere (s.drop (i - 1))

/-- The `()` at the end of a pattern. -/
def matchEnd (p : Pattern) (s : Bytes) (i : ℕ) : Option ℕ :=
  (matchAt p s i).map fun m => i + m.whole.length

/-- `^%s*()(.)()` -/
def spacePattern : Pattern where
  items := [.star isSpace, .capStart, .one anyChar, .capStop]
  anchored := true

/-- `^%-%s+.-\r?\n?()` -/
def dashPattern : Pattern where
  items := [.one (chr '-'), .plus isSpace, .lazy anyChar, .opt (· = 13), .opt (· = 10)]
  anchored := true

/-- `^.-\r?\n?()` -/
def hashPattern : Pattern where
  items := [.lazy anyChar, .opt (· = 13), .opt (· = 10)]
  anchored := true

/-- `^%*.-%*/()` -/
def slashPattern : Pattern where
  items := [.one (chr '*'), .lazy anyChar, .one (chr '*'), .one (chr '/')]
  anchored := true

/-- `()([c\])()(.)` -/
def stringPattern (c : UInt8) : Pattern where
  items := [.capStart, .one fun b => b = c || b = 92, .capStop,
    .capStart, .one anyChar, .capStop]

/-- `^0x[0-9a-fA-F]+()` -/
def hexPattern : Pattern where
  items := [.one (chr '0'), .one (chr 'x'), .plus isXDigit]
  anchored := true

/-- `^0b[01]+()` -/
def binaryPattern : Pattern where
  items := [.one (chr '0'), .one (chr 'b'), .plus (oneOf "01")]
  anchored := true

/-- `^[%-%+]?%d*%.?%d*[eE]?[%-%+]?%d*()` -/
def numberPattern : Pattern where
  items := [.opt (oneOf "-+"), .star isDigit, .opt (chr '.'), .star isDigit,
    .opt (oneOf "eE"), .opt (oneOf "-+"), .star isDigit]
  anchored := true

/-- `%d` -/
def digitPattern : Pattern where
  items := [.one isDigit]

/-- `^[%a_$][%w_$]*()` -/
def identPattern : Pattern where
  items := [.one fun b => isAlpha b || oneOf "_$" b, .star fun b => isAlnum b || oneOf "_$" b]
  anchored := true

/-- `^:(:?)([%a_][%w_]*)()` -/
def paramPattern : Pattern where
  items := [.one (chr ':'), .capStart, .opt (chr ':'), .capStop,
    .capStart, .one fun b => isAlpha b || chr '_' b, .star fun b => isAlnum b || chr '_' b,
    .capStop]
  anchored := true

/-- `^([^%s]..)()` with `n` times `[^%s]` -/
def opPattern (n : ℕ) : Pattern where
  items := .capStart :: List.replicate n (.one fun b => !isSpace b) ++ [.capStop]
  anchored := true

/-- `ops` -/
def ops : List Bytes :=
  ["*", ";", ",", "&", ">", ">>", ">=", "<", "<>", "!=", "<<", "<=", "<=>", "%", "*", "+",
    "-", "->", "->>", "/", ":=", "=", "^", "&&", "(", ")", "!", "||", "|", "~", "?",
    "??"].map lit

/-! ## Strings -/

/-- How a quoted string ends. -/
inductive StringEnd
  | closed (j : ℕ)
  | unfinished
  | unfinishedEscape (i : ℕ)
  deriving DecidableEq, Repr

theorem find_stringPattern_nil (c : UInt8) : (stringPattern c).find [] = none := rfl

/-- The loop that looks for the end of a string. -/
def closeString (q : UInt8) (s : Bytes) (j : ℕ) : StringEnd :=
  match h : (stringPattern q).find (s.drop (j - 1)) with
  | none => .unfinished
  | some (before, m) =>
      let i1 := j + before.length
      let c := m.values.getD 0 []
      let j1 := i1 + 1
      let c2 := m.values.getD 1 []
      if c = [92] then
        if c2 = [] then .unfinishedEscape (i1 + 1) else closeString q s (j1 + 1)
      else if c2 = c then closeString q s (j1 + 1)
      else .closed j1
  termination_by s.length + 1 - j
  decreasing_by
    all_goals
      have hlt : j - 1 < s.length := by
        by_contra hge
        rw [List.drop_of_length_le (Nat.not_lt.mp hge), find_stringPattern_nil] at h
        cases h
      omega

/-! ## Classes of tokens -/

/-- ``-- ...`` -/
def dashComment (s : Bytes) (i : ℕ) (c : UInt8) : Option Pass :=
  if chr '-' c then (matchEnd dashPattern s (i + 1)).map fun j => .accept .comment i j
  else none

/-- ``# ...`` -/
def hashComment (s : Bytes) (i : ℕ) (c : UInt8) : Option Pass :=
  if chr '#' c then (matchEnd hashPattern s (i + 1)).map fun j => .accept .comment i j
  else none

/-- `/* ... */`; there is no check that the pattern matches. -/
def slashComment (s : Bytes) (i : ℕ) (c : UInt8) : Option Pass :=
  if chr '/' c then
    let j := matchEnd slashPattern s (i + 1)
    some ⟨[⟨.comment, i, j, none⟩], .again j⟩
  else none

/-- A string, or an identifier in backticks. -/
def quoted (ansiQuotes : Bool) (s : Bytes) (i : ℕ) (c : UInt8) : Option Pass :=
  if oneOf "'\"\x60" c then
    match closeString c s (i + 1) with
    | .unfinished => some (.reject i i (lit "unfinished string"))
    | .unfinishedEscape i1 => some (.reject i1 i1 (lit "unfinished backslash escape"))
    | .closed j =>
        some (.accept (if chr '\x60' c || chr '"' c && ansiQuotes then .ident else .string) i j)
  else none

/-- A class that is the one pattern. -/
def matched (p : Pattern) (kind : Kind) (s : Bytes) (i : ℕ) : Option Pass :=
  (matchEnd p s i).map fun j => .accept kind i j

/-- A number; the digit can be anywhere in the query. -/
def number (s : Bytes) (i : ℕ) : Option Pass :=
  match matchEnd numberPattern s i with
  | some j => if j > i ∧ digitPattern.matches s then some (.accept .number i j) else none
  | none => none

/-- A parameter; the captures are `param, dbl`, in this order. -/
def param (s : Bytes) (i : ℕ) : Option Pass :=
  (matchAt paramPattern s i).map fun m =>
    let param := m.values.getD 0 []
    let dbl := m.values.getD 1 []
    .accept (if dbl = lit ":" then .nparam else .vparam) i (i + m.whole.length) (some param)

/-- An operator of `n` characters. -/
def operator (n : ℕ) (s : Bytes) (i : ℕ) : Option Pass :=
  match matchAt (opPattern n) s i with
  | some m =>
      let op := m.values.getD 0 []
      if ops.contains op then some (.accept .op i (i + m.whole.length) (some op)) else none
  | none => none

/-- The token at a position, at which there is the character. -/
def token (ansiQuotes : Bool) (s : Bytes) (i : ℕ) (c : UInt8) : Pass :=
  ([dashComment s i c, hashComment s i c, slashComment s i c, quoted ansiQuotes s i c,
    matched hexPattern .number s i, matched binaryPattern .number s i, number s i,
    matched identPattern .ident s i, param s i, operator 3 s i, operator 2 s i,
    operator 1 s i].findSome? id).getD
      (.reject i (i + 1) (lit "invalid char \"" ++ sub s i (i + 1) ++ lit "\""))

/-! ## Passes -/

/-- From `::again::` on. -/
def pass (ansiQuotes : Bool) (s : Bytes) (i : Option ℕ) : Pass :=
  match matchAt spacePattern s (i.getD 1) with
  | none => ⟨[], .stop⟩
  | some m =>
      match i with
      | none => ⟨[], .raise .nilCompare⟩
      | some i =>
          let i1 := i + (m.whole.length - 1)
          let c := (m.values.getD 0 []).headD 0
          if i1 ≥ i then
            let space : Token := ⟨.space, i, some i1, none⟩
            if i1 = s.length then ⟨[space], .stop⟩
            else
              let p := token ansiQuotes s i1 c
              ⟨space :: p.tokens, p.next⟩
          else token ansiQuotes s i c

/-- All that `pp.tokens(s)` yields from a position on, and the error that is
raised in the end, if any; none if the fuel runs out. -/
def tokens (ansiQuotes : Bool) (s : Bytes) :
    ℕ → Option ℕ → Option (List Token × Option Error)
  | 0, _ => none
  | n + 1, i =>
      let p := pass ansiQuotes s i
      match p.next with
      | .stop => some (p.tokens, none)
      | .raise e => some (p.tokens, some e)
      | .again j => (tokens ansiQuotes s n j).map fun r => (p.tokens ++ r.1, r.2)

end LuaAttic.Sqlparser
