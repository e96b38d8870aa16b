import LuaAttic.Lua.Basic

/-!
# Plain text boundaries (`codedit_str.lua`)

Character, whitespace, word and line boundaries of a byte string.  Indices
count from one.  A function that asserts something about its index raises; a
nil starting index is passed as `0` to the functions that search forwards, and
as `#s + 1` to those that search backwards, which is what they replace it by.
-/

namespace LuaAttic.Codedit.Str

open LuaAttic.Lua

/-- `'\t'` -/
def TAB : UInt8 := 9

/-- `'\n'` -/
def LF : UInt8 := 10

/-- `'\r'` -/
def CR : UInt8 := 13

/-- `' '` -/
def SPACE : UInt8 := 32

/-! ## Characters -/

def nextChar (s : Bytes) (i : Int) : Except Error (Option Int) :=
  if 0 ≤ i then
    .ok (if (s.length : Int) ≤ i then none else some (i + 1))
  else .error .assertionFailed

def prevChar (s : Bytes) (i : Int) : Except Error (Option Int) :=
  if i ≤ s.length + 1 then
    .ok (if i ≤ 1 then none else some (i - 1))
  else .error .assertionFailed

/-! ## Tabs and whitespace -/

/-- The assertion of `ischar` is that the string has a byte at the index. -/
def ischar (s : Bytes) (i : Int) (c : UInt8) : Except Error Bool :=
  match byteAt s i with
  | some b => .ok (b == c)
  | none => .error .assertionFailed

def isspace (s : Bytes) (i : Int) : Except Error Bool := ischar s i SPACE

def istab (s : Bytes) (i : Int) : Except Error Bool := ischar s i TAB

def isterm (s : Bytes) (i : Int) : Except Error Bool := do
  if ← ischar s i CR then return true
  ischar s i LF

def iswhitespace (s : Bytes) (i : Int) : Except Error Bool := do
  if ← isspace s i then return true
  if ← istab s i then return true
  isterm s i

def isnonspace (s : Bytes) (i : Int) : Except Error Bool := do
  return !(← iswhitespace s i)

/-- The loop of `next_char_which`; the fuel bounds the characters left. -/
def nextCharWhich (s : Bytes) (is : Int → Except Error Bool) :
    ℕ → Int → Except Error (Option Int)
  | 0, _ => .ok none
  | fuel + 1, i => do
      match ← nextChar s i with
      | none => return none
      | some j => if ← is j then return some j else nextCharWhich s is fuel j

/-- The loop of `prev_char_which`; the fuel bounds the characters left. -/
def prevCharWhich (s : Bytes) (is : Int → Except Error Bool) :
    ℕ → Int → Except Error (Option Int)
  | 0, _ => .ok none
  | fuel + 1, i => do
      match ← prevChar s i with
      | none => return none
      | some j => if ← is j then return some j else prevCharWhich s is fuel j

/-- Index of the last non-space character before `i`. -/
def prevNonspaceChar (s : Bytes) (i : Int) : Except Error (Option Int) :=
  prevCharWhich s (isnonspace s) (s.length + 1) i

/-- Index of the first non-space character after `i`. -/
def nextNonspaceChar (s : Bytes) (i : Int) : Except Error (Option Int) :=
  nextCharWhich s (isnonspace s) (s.length + 1) i

/-! ## Words -/

/-- `isword`, for a pattern that is one anchored character class. -/
def isword (s : Bytes) (i : Int) (wordChars : UInt8 → Bool) :
    Except Error Bool :=
  match byteAt s i with
  | some b => .ok (wordChars b)
  | none => .error .assertionFailed

/-- What a run of characters is made of while looking for its end. -/
inductive Expect
  | space
  | word
  | nonword
  deriving DecidableEq, Repr

def expectWord (s : Bytes) (i : Int) (wordChars : UInt8 → Bool) :
    Except Error Expect := do
  if ← isword s i wordChars then return .word else return .nonword

/-- The loop of `next_word_break_char`.  `some none` is the nil returned at a
line terminator; `none` means that the characters ran out. -/
def wordBreakLoop (s : Bytes) (wordChars : UInt8 → Bool) :
    ℕ → Expect → Int → Except Error (Option (Option Int))
  | 0, _, _ => .ok none
  | fuel + 1, expect, i => do
      match ← nextChar s i with
      | none => return none
      | some j =>
          if ← isterm s j then return some none
          let white ← iswhitespace s j
          if expect = .space then
            if white then wordBreakLoop s wordChars fuel expect j
            else return some (some j)
          else if white then wordBreakLoop s wordChars fuel .space j
          else if expect ≠ (← expectWord s j wordChars) then
            return some (some j)
          else wordBreakLoop s wordChars fuel expect j

/-- The index that the loop of the source binds hides the argument `i` only
inside the loop, so the last line moves on from the argument. -/
def nextWordBreakChar (s : Bytes) (i : Int) (wordChars : UInt8 → Bool) :
    Except Error (Option Int) := do
  if i < 0 then throw .assertionFailed
  else if i = 0 then return some 1
  else if (s.length : Int) ≤ i then return none
  else if ← isterm s i then return none
  else
    let expect ←
      if ← iswhitespace s i then pure Expect.space
      else expectWord s i wordChars
    match ← wordBreakLoop s wordChars (s.length + 1) expect i with
    | some result => return result
    | none => nextChar s i

/-- The loop of `prev_word_break_char`, from the last break found. -/
def prevWordBreakLoop (s : Bytes) (firsti : Int) (wordChars : UInt8 → Bool) :
    ℕ → Option Int → Except Error (Option Int)
  | 0, _ => .ok none
  | fuel + 1, lasti => do
      match ← nextWordBreakChar s (lasti.getD 0) wordChars with
      | none => return none
      | some i =>
          if firsti ≤ i then return lasti
          else prevWordBreakLoop s firsti wordChars fuel (some i)

def prevWordBreakChar (s : Bytes) (firsti : Int) (wordChars : UInt8 → Bool) :
    Except Error (Option Int) :=
  prevWordBreakLoop s firsti wordChars (s.length + 2) none

/-! ## Lines -/

/-- A byte of a line terminator. -/
def isTermByte (c : UInt8) : Bool := c == CR || c == LF

def hasterm (s : Bytes) : Bool :=
  match s.getLast? with
  | some c => isTermByte c
  | none => false

def removeTerm (s : Bytes) : Bytes :=
  if hasterm s then s.rdropWhile isTermByte else s

def addTerm (s term : Bytes) : Bytes :=
  if hasterm s then s else s ++ term

/-- Position of the first byte of the terminator run that ends the string, or
`#s + 1`. -/
def termChar (s : Bytes) : Int := (s.rdropWhile isTermByte).length + 1

/-- The number of bytes that `^[^\r\n]*\r?\n?` matches. -/
def matchLine (s : Bytes) : ℕ :=
  let body := s.takeWhile (fun c => !isTermByte c)
  let rest := s.drop body.length
  let cr := if rest.head? = some CR then 1 else 0
  let lf := if (rest.drop cr).head? = some LF then 1 else 0
  body.length + cr + lf

/-- End and start indices of the line starting at `i`; the empty line after a
final terminator is iterated two bytes beyond the string. -/
def nextLine (s : Bytes) (i : Int) : Option (Int × Int) :=
  if i > s.length + 1 then none
  else if i = s.length + 1 then
    if s.length = 0 ∨ hasterm s then some (i + 1, i + 1) else none
  else some (i + matchLine (s.drop (i - 1).toNat), i)

/-- The iteration of `next_line` from `i`; the fuel bounds the lines left. -/
def linesFrom (s : Bytes) : ℕ → Int → List (Int × Int)
  | 0, _ => []
  | fuel + 1, i =>
      match nextLine s i with
      | none => []
      | some (j, i') => (j, i') :: linesFrom s fuel j

def lines (s : Bytes) : List (Int × Int) := linesFrom s (s.length + 2) 1

/-- The strings `s:sub(i, j-1)` that the callers of `lines` cut out. -/
def lineStrings (s : Bytes) : List Bytes :=
  (lines s).map fun p => sub s p.2 (p.1 - 1)

example : lineStrings [LF, CR, LF, CR] = [[LF], [CR, LF], [CR], []] := by
  decide

/-- The counts of `detect_term`: of `'\n'`, `'\r'` and `'\r\n'`. -/
structure TermCounts where
  n : ℕ
  r : ℕ
  rn : ℕ
  deriving DecidableEq, Repr

/-- The loop of `detect_term`; the fuel bounds the characters left.  The module has
no function `is`, which is what a character other than `'\r'` is tested with. -/
def detectTermLoop (s : Bytes) : ℕ → Int → TermCounts → Except Error TermCounts
  | 0, _, counts => .ok counts
  | fuel + 1, i, counts => do
      match ← nextChar s i with
      | none => return counts
      | some i =>
          if ← ischar s i CR then
            if ← (if i < s.length then ischar s (i + 1) LF else pure false) then
              detectTermLoop s fuel i { counts with rn := counts.rn + 1 }
            else detectTermLoop s fuel i { counts with r := counts.r + 1 }
          else throw .nilCall

/-- The most common line terminator, if any, and whether there are mixed ones. -/
def detectTerm (s : Bytes) : Except Error (Option Bytes × Bool) := do
  let ⟨n, r, rn⟩ ← detectTermLoop s (s.length + 1) 0 ⟨0, 0, 0⟩
  let mixed := rn ≠ n ∨ rn ≠ r ∨ r ≠ n
  let term :=
    if rn > n ∧ rn > r then some [CR, LF]
    else if r > n then some [CR]
    else if n > 0 then some [LF]
    else none
  return (term, mixed)

end LuaAttic.Codedit.Str
