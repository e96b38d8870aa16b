import LuaAttic.Codedit.Str
import LuaAttic.Support.Ring

/-!
# Reflowing text (`codedit_reflow.lua`)

Lines are split into paragraphs, paragraphs into words; the words are wrapped into
lines again and the lines are aligned.  The functions of `codedit_str` that are
missing there are those of byte strings: `len`, `sub`, `byte_indices`, `prev` (the
last index) and `next_nonspace`, where a space is what `isspace` says.

`align.justify` draws random numbers until one of them is new or there are no retries
left: `rnd k min max` is what the call `k` of `math.random(min, max)` returns since
`math.randomseed(0)`, and fuel bounds the loop.
-/

namespace LuaAttic.Codedit.Reflow

open LuaAttic.Support LuaAttic.Lua Str

/-- A computation that raises, or that runs out of fuel. -/
abbrev Run := ExceptT Error Option

def run {α : Type} (x : Except Error α) : Run α := ExceptT.mk (some x)

/-- `table.concat(t, sep, i, j)` -/
def tableConcat (t : List Bytes) (sep : Bytes) (i j : Int) : Except Error Bytes :=
  if j < i then .ok []
  else if 1 ≤ i ∧ j ≤ t.length then
    .ok (sep.intercalate ((t.take j.toNat).drop (i - 1).toNat))
  else .error .badArgument

/-! ## Paragraphs and words -/

/-- A list of lines and the field `indent`. -/
structure Paragraph where
  indent : Bytes
  lines : List Bytes
  deriving DecidableEq, Repr

/-- `str.next_nonspace(s)` -/
def nextNonspace (s : Bytes) : Except Error (Option Int) :=
  nextCharWhich s (fun i => not <$> isspace s i) (s.length + 1) 0

/-- The body of the loop: the last paragraph is the current one. -/
def paragraphsStep (paragraphs : List Paragraph) (line : Bytes) :
    Except Error (List Paragraph) := do
  let indentCol ← nextNonspace line
  let paragraphs :=
    if paragraphs = [] ∨ indentCol = none then
      -- first paragraph, or empty line: start a new paragraph
      paragraphs ++ [⟨sub line 1 ((indentCol.map (· - 1)).getD (-1)), []⟩]
    else paragraphs
  return paragraphs.modifyLast fun p => { p with lines := p.lines ++ [line] }

def paragraphs (lines : List Bytes) : Except Error (List Paragraph) :=
  lines.foldlM paragraphsStep []

structure LineWords where
  words : List Bytes
  starti : Option Int
  lasti : Option Int

def lineWordsStep (line : Bytes) (s : LineWords) (i : Int) : Except Error LineWords := do
  match s.starti, ← isspace line i with
  | none, false => return { s with starti := some i, lasti := some i }
  | some starti, true =>
      return ⟨s.words ++ [sub line starti (s.lasti.getD (-1))], none, some i⟩
  | _, _ => return { s with lasti := some i }

/-- The words of a line, behind the given ones. -/
def lineWords (line : Bytes) (words : List Bytes) : Except Error (List Bytes) := do
  let s ← (interval 1 line.length).foldlM (lineWordsStep line) ⟨words, none, none⟩
  match s.starti with
  | some starti => return s.words ++ [subFrom line starti]
  | none => return s.words

/-- `str.words(lines)`, which is nil without lines. -/
def words (lines : List Bytes) : Except Error (Option (List Bytes)) :=
  lines.foldlM (fun words line => some <$> lineWords line (words.getD [])) none

/-! ## Wrapping -/

structure Wrap where
  lines : List Bytes
  spaceLeft : Int
  i1 : Int
  lasti : Option Int

/-- The body of the loop of `wrap.greedy`. -/
def greedyStep (words : List Bytes) (lineWidth : Int) (s : Wrap) (i : Int) (word : Bytes) :
    Except Error Wrap := do
  let wordWidth : Int := word.length
  if s.spaceLeft < wordWidth + 1 then
    let onlyWord : Bool := s.i1 = i
    let line ← tableConcat words [SPACE] s.i1 (if onlyWord then s.i1 else i - 1)
    return ⟨s.lines ++ [line], lineWidth - wordWidth, if onlyWord then i + 1 else i, some i⟩
  else return { s with spaceLeft := s.spaceLeft - (wordWidth + 1), lasti := some i }

/-- The loop over the words from `i` on. -/
def greedyLoop (words : List Bytes) (lineWidth : Int) :
    Wrap → Int → List Bytes → Except Error Wrap
  | s, _, [] => .ok s
  | s, i, word :: rest => do
      greedyLoop words lineWidth (← greedyStep words lineWidth s i word) (i + 1) rest

/-- `wrap.greedy` -/
def greedy (words : List Bytes) (lineWidth : Int) : Except Error (List Bytes) := do
  let s ← greedyLoop words lineWidth ⟨[], lineWidth, 1, none⟩ 1 words
  if s.i1 ≤ words.length then
    let line ← tableConcat words [SPACE] s.i1 (s.lasti.getD words.length)
    return s.lines ++ [line]
  else return s.lines

/-! ## Alignment -/

/-- How many spaces are added before the word at a position; nil for none. -/
abbrev Places := Int → Option Int

/-- `places[pos] = (places[pos] or 0) + 1` -/
def Places.add (places : Places) (pos : Int) : Places :=
  Function.update places pos (some ((places pos).getD 0 + 1))

section Random

variable (rnd : ℕ → Int → Int → Int) (fuel : ℕ)

/-- Also the number of calls so far. -/
def uniqueRandomNumber (min max : Int) (numbers : Places) :
    ℕ → Int → ℕ → Run (Int × ℕ)
  | 0, _, _ => ExceptT.mk none
  | n + 1, retries, k =>
      let pos := rnd k min max
      if numbers pos = none ∨ retries = 0 then pure (pos, k + 1)
      else uniqueRandomNumber min max numbers n (retries - 1) (k + 1)

/-- `for _ = 1, count`; the last component counts the turns left. -/
def addRandomLoop (min max retries : Int) : Places → Int → ℕ → ℕ → Run (Places × Int × ℕ)
  | places, count, k, 0 => pure (places, count, k)
  | places, count, k, n + 1 => do
      let (pos, k) ← uniqueRandomNumber rnd min max places fuel retries k
      addRandomLoop min max retries (places.add pos) (count - 1) k n

def addRandomPlaces (places : Places) (count min max : Int) (k : ℕ) :
    Run (Places × Int × ℕ) :=
  if count ≤ max - min + 1 then
    addRandomLoop rnd fuel min max (2 * count) places count k count.toNat
  else throw .assertionFailed

/-- `str.prev(word)` -/
def prev (s : Bytes) : Option Int := if s = [] then none else some s.length

/-- `[.!?,;]` -/
def isPunctuation (c : UInt8) : Bool := c ∈ [46, 33, 63, 44, 59]

/-- The loop of `add_punctuation_places` over positions. -/
def addPunctuationLoop (words : List Bytes) :
    Places → Int → List Int → Except Error (Places × Int)
  | places, count, [] => .ok (places, count)
  | places, count, pos :: rest => do
      if count < 1 then return (places, count)
      let word ← nonNil .nilIndex (tableGet words (pos - 1))
      let i ← nonNil .nilCompare (prev word)
      if ← isword word i isPunctuation then
        addPunctuationLoop words (places.add pos) (count - 1) rest
      else addPunctuationLoop words places count rest

def addPunctuationPlaces (places : Places) (count : Int) (words : List Bytes) :
    Except Error (Places × Int) :=
  addPunctuationLoop words places count (interval 2 (words.length - 1))

/-- `words[pos] = string.rep(' ', min_spaces + (places[pos] or 0)) .. words[pos]` -/
def padWord (minSpaces : Int) (places : Places) (words : List Bytes) (pos : Int) :
    Except Error (List Bytes) := do
  let word ← nonNil .nilConcat (tableGet words pos)
  return tableSet words pos (rep [SPACE] (minSpaces + (places pos).getD 0) ++ word)

/-- The body of the loop of `align.justify`; the division is only used by lines with
places. -/
def justifyLine (lineWidth : Int) (line : Bytes) (k : ℕ) : Run (Bytes × ℕ) := do
  let words ← run (lineWords line [])
  let spaces := lineWidth - line.length
  let places : Int := words.length - 1
  let minSpaces := spaces / places
  let leftoverSpaces := spaces - minSpaces * places
  if 0 < places then
    let (places, leftoverSpaces) ← run (addPunctuationPlaces (fun _ => none) leftoverSpaces words)
    let (places, leftoverSpaces, k) ←
      addRandomPlaces rnd fuel places leftoverSpaces 2 words.length k
    if leftoverSpaces ≠ 0 then throw .assertionFailed
    let words ← run ((interval 2 (words.length - 1)).foldlM (padWord minSpaces places) words)
    return (← run (tableConcat words [SPACE] 1 words.length), k)
  else return (← run (tableConcat words [SPACE] 1 words.length), k)

def justifyLoop (lineWidth : Int) : List Bytes → ℕ → Run (List Bytes)
  | [], _ => pure []
  | line :: lines, k => do
      let (line, k) ← justifyLine rnd fuel lineWidth line k
      return line :: (← justifyLoop lineWidth lines k)

/-- `align.justify`; inserting the last line of no lines, which is nil, does
nothing. -/
def justify (lines : List Bytes) (lineWidth : Int) : Run (List Bytes) := do
  let outLines ← justifyLoop rnd fuel lineWidth lines.dropLast 0
  return outLines ++ lines.getLast?.toList

/-- The alignment algorithms. -/
inductive Align
  | left
  | right
  | justify
  deriving DecidableEq, Repr

/-- `str.align` -/
def align (lines : List Bytes) (lineWidth : Int) : Align → Run (List Bytes)
  | .left => pure lines
  | .right => pure (lines.map fun line => rep [SPACE] (lineWidth - line.length) ++ line)
  | .justify => justify rnd fuel lines lineWidth

/-! ## Reflowing -/

/-- The body of the loop, with the index of the paragraph; the wrapping algorithm is
`greedy`. -/
def reflowStep (lineWidth : Int) (how : Align) (outLines : List Bytes) (i : ℕ)
    (paragraph : Paragraph) : Run (List Bytes) := do
  let words ← run (do nonNil .nilIndex (← words paragraph.lines))
  let words := words.modifyHead (paragraph.indent ++ ·)
  let lines ← run (greedy words lineWidth)
  let lines ← align rnd fuel lines lineWidth how
  return (if 1 < i then outLines ++ [[]] else outLines) ++ lines

def reflowLoop (lineWidth : Int) (how : Align) :
    List Bytes → ℕ → List Paragraph → Run (List Bytes)
  | outLines, _, [] => pure outLines
  | outLines, i, paragraph :: rest => do
      let outLines ← reflowStep rnd fuel lineWidth how outLines i paragraph
      reflowLoop lineWidth how outLines (i + 1) rest

/-- `str.reflow`, with `greedy` wrapping. -/
def reflow (lines : List Bytes) (lineWidth : Int) (how : Align) : Run (List Bytes) := do
  let ps ← run (paragraphs lines)
  reflowLoop rnd fuel lineWidth how [] 1 ps

end Random

end LuaAttic.Codedit.Reflow
