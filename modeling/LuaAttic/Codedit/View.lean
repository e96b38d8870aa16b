import LuaAttic.Codedit.Buffer

/-!
# Measuring and hit testing (`codedit_view.lua`)

The view places characters of a fixed width, and tabs that reach to the next
tabstop, at pixel coordinates.  Coordinates and metrics are integers; the
divisions of the source are by positive metrics and always rounded to an
integer.  Rendering is left out, but for the clip rectangle that it stores:
there is none before the first rendering.
-/

namespace LuaAttic.Codedit

open LuaAttic.Lua Str

/-- The clip rectangle of the client area. -/
structure ClipRect where
  clipX : Int
  clipY : Int
  clipW : Int
  clipH : Int
  deriving DecidableEq, Repr

/-- The metrics of a view and its scroll state. -/
structure View where
  tabsize : Int
  tabsize_pos : 0 < tabsize
  tabstopMargin : Int
  lineH : Int
  lineH_pos : 0 < lineH
  charW : Int
  charW_pos : 0 < charW
  marginTop : Int
  marginLeft : Int
  marginRight : Int
  marginBottom : Int
  scrollX : Int
  scrollY : Int
  clip : Option ClipRect

namespace View

/-- The metrics of the class. -/
def new : View where
  tabsize := 3
  tabsize_pos := by decide
  tabstopMargin := 1
  lineH := 16
  lineH_pos := by decide
  charW := 8
  charW_pos := by decide
  marginTop := 16
  marginLeft := 0
  marginRight := 0
  marginBottom := 16
  scrollX := 0
  scrollY := 0
  clip := none

variable (v : View) (b : Buffer)

def clamp (x lo hi : Int) : Int := min (max x lo) hi

/-! ## Tabstop metrics -/

def spaceWidth (n : Int) : Int := v.charW * n

def tabstopWidth : Int := v.spaceWidth v.tabsize

/-- The coordinate of the first tabstop to the right. -/
def nextTabstopX (x0 : Int) : Int :=
  -(-(x0 + v.tabstopMargin) / v.tabstopWidth) * v.tabstopWidth

/-- The coordinate of the first tabstop to the left. -/
def prevTabstopX (x0 : Int) : Int :=
  (x0 - v.tabstopMargin) / v.tabstopWidth * v.tabstopWidth

/-! ## Text positioning -/

/-- The characters of a line that `buffer:chars` iterates over. -/
def nonterm (s : Bytes) : Bytes := s.takeWhile fun c => !isTermByte c

/-- `next_x`, for the character that is at `x`. -/
def nextX (x : Int) (c : UInt8) : Int :=
  if c = TAB then v.nextTabstopX x else x + v.charW

/-- The loop of `char_x`, at the character with index `i1`. -/
def charXLoop (i : Int) : Int → Int → Bytes → Int
  | _, x, [] => x
  | i1, x, c :: s =>
      if i = i1 then x else charXLoop i (i1 + 1) (v.nextX x c) s

def charX (line i : Int) : Except Error Int :=
  if 1 ≤ i ∧ 1 ≤ line then
    .ok (v.charXLoop i 1 0 (nonterm ((b.lineAt line).getD [])))
  else .error .assertionFailed

def lineY (line : Int) : Except Error Int :=
  if 1 ≤ line then .ok (v.lineH * (line - 1)) else .error .assertionFailed

def charCoords (line i : Int) : Except Error (Int × Int) := do
  let y ← v.lineY line
  let x ← v.charX b line i
  return (x, y)

/-! ## Text hit testing -/

def lineAtY (y : Int) : Int := max 1 (y / v.lineH + 1)

/-- The loop of `char_at_line`, at the character with index `i`.  `xi` and `x0`
are the coordinates of that character and of the one before it, which has index
`i0`; `eol` is what is returned behind the last character. -/
def charAtLoop (x : Int) (closest : Bool) (eol : Option Int) :
    Int → Int → Int → Int → Bytes → Option Int
  | xi, x0, i0, _, [] =>
      if xi > x then
        if closest then if x - x0 < xi - x then some i0 else eol
        else some i0
      else eol
  | xi, x0, i0, i, c :: s =>
      if xi > x then
        if closest then if x - x0 < xi - x then some i0 else some i
        else some i0
      else charAtLoop x closest eol (v.nextX xi c) xi i (i + 1) s

def charAtLine (line x : Int) (closest : Bool) : Option Int :=
  v.charAtLoop x closest (b.eol line) 0 0 1 1
    (nonterm ((b.lineAt line).getD []))

/-! ## Cursor hit testing -/

def spaceChars (w : Int) : Int :=
  (2 * w + v.spaceWidth 1) / (2 * v.spaceWidth 1)

def cursorCharAtLine (line x : Int) (restrictEof : Bool) :
    Except Error Int :=
  if line > b.lines.length ∧ restrictEof = false then
    .ok (v.spaceChars x + 1)
  else do
    let line := if line > b.lines.length then (b.lines.length : Int) else line
    let i ← nonNil .nilCompare (v.charAtLine b line x true)
    if some i = b.eol line then
      -- possibly outside the line
      let w := x - (← v.charX b line i)
      return if w > 0 then i + v.spaceChars w else i
    else return i

def cursorCharAt (x y : Int) (restrictEof : Bool) : Except Error (Int × Int) := do
  let line := v.lineAtY y
  return (line, ← v.cursorCharAtLine b line x restrictEof)

/-! ## Clipping and scrolling -/

def screenToClient (x y : Int) : Except Error (Int × Int) := do
  let clip ← nonNil .nilArith v.clip
  return (x - clip.clipX - v.scrollX, y - clip.clipY - v.scrollY)

/-- How many lines are in the clipping rectangle. -/
def pagesize : Except Error Int := do
  let clip ← nonNil .nilArith v.clip
  return (2 * clip.clipH + v.lineH) / (2 * v.lineH)

/-- Scroll to make a rectangle visible. -/
def makeRectVisible (x y w h : Int) : Except Error View := do
  let clip ← nonNil .nilArith v.clip
  return { v with
    scrollX := -clamp (-v.scrollX) (x + w - clip.clipW) x
    scrollY := -clamp (-v.scrollY) (y + h - clip.clipH) y }

/-- Scroll to make the character at a position visible. -/
def cursorMakeVisible (line i : Int) : Except Error View := do
  let p ← v.charCoords b line i
  v.makeRectVisible (p.1 - v.marginLeft) (p.2 - v.marginTop)
    (v.marginRight + v.marginLeft) (v.lineH + v.marginBottom + v.marginTop)

end View

end LuaAttic.Codedit
