import LuaAttic.Lua.Glue

/-!
# The tokens of header values (`http_headers.lua`)

A header value is cut into quoted strings, comments, separators and other
tokens.  Lists of tokens are split at a separator, and a part of them is read
as a key with a value, or as a value with parameters.
-/

namespace LuaAttic.Http.Headers

open LuaAttic.Lua

/-! ## Tokens -/

/-- `[]()<>@,;:\"/[?=\x7b\x7d]`, with braces. -/
def separator : CharClass := oneOf "]()<>@,;:\\\"/[?=\x7b\x7d"

/-- A character of a token: neither a separator nor a space. -/
def tokenChar : CharClass := fun b => !(separator b || b == 0x20)

/-- What a quoted string contains, after its first quote, and how many
characters there are with its last one.  A backslash takes the character after
it. -/
def quotedEnd : Bytes → Option (Bytes × ℕ)
  | [] => none
  | [b] => if b = 0x22 then some ([], 1) else none
  | b :: d :: s =>
      if b = 0x22 then some ([], 1)
      else if b = 0x5C then
        (quotedEnd s).map fun r => (b :: d :: r.1, r.2 + 2)
      else (quotedEnd (d :: s)).map fun r => (b :: r.1, r.2 + 1)

/-- The number of characters up to the bracket that closes a comment, after its
first one, with as many more comments open in it. -/
def commentEnd : ℕ → Bytes → Option ℕ
  | _, [] => none
  | depth, [b] => if b = 0x29 ∧ depth = 0 then some 1 else none
  | depth, b :: d :: s =>
      if b = 0x5C then (commentEnd depth s).map (· + 2)
      else if b = 0x28 then (commentEnd (depth + 1) (d :: s)).map (· + 1)
      else if b = 0x29 then
        if depth = 0 then some 1
        else (commentEnd (depth - 1) (d :: s)).map (· + 1)
      else (commentEnd depth (d :: s)).map (· + 1)

/-- The comment at the start of a string, brackets included. -/
def comment (s : Bytes) : Option Bytes :=
  match s with
  | [] => none
  | b :: s => if b = 0x28 then (commentEnd 0 s).map fun n => b :: s.take n else none

/-- The captures of a comment: itself and then those in it. -/
def comments : Bytes → List Bytes
  | [] => []
  | [b] => (comment [b]).toList
  | b :: d :: s =>
      if b = 0x5C then comments s
      else (comment (b :: d :: s)).toList ++ comments (d :: s)

/-- `s:gsub('\\([^\\])', '%1')` -/
def unquote (s : Bytes) : Bytes :=
  gsub ⟨[.one (chr '\\'), .capStart, .one (noneOf "\\"), .capStop], false⟩
    List.head? s

/-- The tokens of a string after its first `skip` characters. -/
def tokensFrom : ℕ → Bytes → List Bytes
  | _, [] => []
  | skip + 1, _ :: s => tokensFrom skip s
  | 0, b :: s =>
      match if b = 0x22 then quotedEnd s else none with
      | some (w, n) => unquote w :: tokensFrom n s
      | none =>
          match comment (b :: s) with
          | some w => comments w ++ tokensFrom (w.length - 1) s
          | none =>
              if separator b then [b] :: tokensFrom 0 s
              else if b = 0x20 then tokensFrom 0 s
              else
                let w := s.takeWhile tokenChar
                (b :: w) :: tokensFrom w.length s

/-- `tokens(s)`: `a,b, "a,b" ; (a,b)` gives `a`, `,`, `b`, `,`, `a,b`, `;` and
`(a,b)`. -/
def tokens (s : Bytes) : List Bytes := tokensFrom 0 s

/-! ## Parts of lists of tokens -/

/-- A part of a list that is not empty, and what comes after it in the list. -/
structure Part where
  first : Bytes
  more : List Bytes
  after : List Bytes

/-- `unpack(t, i, j)` -/
def Part.tokens (p : Part) : List Bytes := p.first :: p.more

/-- `t[i + n]`, which may be past the part. -/
def Part.get (p : Part) (n : ℕ) : Option Bytes := (p.tokens ++ p.after)[n]?

/-- The parts of a list, of which some tokens have been passed. -/
def tsplitFrom (sep : Bytes) : List Bytes → List Bytes → List Part
  | [], [] => []
  | x :: l, [] => [⟨x, l, []⟩]
  | [], x :: t =>
      if x = sep then tsplitFrom sep [] t else tsplitFrom sep [x] t
  | y :: l, x :: t =>
      if x = sep then ⟨y, l, x :: t⟩ :: tsplitFrom sep [] t
      else tsplitFrom sep (y :: (l ++ [x])) t

/-- `tsplit(t, sep)`; empty parts are skipped. -/
def tsplit (t : List Bytes) (sep : Bytes) : List Part := tsplitFrom sep [] t

/-- `Some-Name` gives `some_name`; nil for the empty string. -/
def name (s : Bytes) : Option Bytes :=
  if s = [] then none
  else some (lower (gsub ⟨[.one (chr '-')], false⟩ (fun _ => some (lit "_")) s))

theorem name_eq_none_iff {s : Bytes} : name s = none ↔ s = [] := by
  unfold name
  split_ifs with hs
  · exact iff_of_true rfl hs
  · exact iff_of_false nofun hs

/-! ## Lists of names -/

/-- `' ?, ?'` -/
def commaPattern : Pattern where
  items := [.opt (chr ' '), .one (chr ','), .opt (chr ' ')]

/-- `namesplit(s)`: a string without a comma has no names. -/
def namesplit (s : Bytes) : List Bytes :=
  if commaPattern.matches s then (gsplit commaPattern s).filter (· ≠ []) else []

end LuaAttic.Http.Headers
