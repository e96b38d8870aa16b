import LuaAttic.Lua.Basic

/-!
# Converting commands in 2D paths (`path_convert.lua`)

A path is a flat array: each command is its name and then its arguments.  The
array is edited while it is iterated over.
-/

namespace LuaAttic.PathConvert

open LuaAttic.Lua

/-! ## Paths -/

/-- The names of commands, with those apart that are converted or that reflect a
control point. -/
inductive Name
  | line
  | hline
  | vline
  | curve
  | symmCurve
  | smoothCurve
  | relSymmCurve
  | relSmoothCurve
  | other (s : String)
  deriving DecidableEq, Repr

inductive Item (K : Type)
  | cmd (s : Name)
  | num (v : K)
  deriving DecidableEq, Repr

abbrev Path (K : Type) := List (Item K)

/-- What is known between two commands: `cpx, cpy`, `spx, spy`, `bx, by` and
`qx, qy`, each of them both numbers or both nil. -/
structure State (K : Type) where
  cp : Option (K × K) := none
  sp : Option (K × K) := none
  b : Option (K × K) := none
  q : Option (K × K) := none

/-- What is used of `path_edit`, `path_state`, `path_point` and `path_line`. -/
structure Library (K : Type) where
  /-- `edit.insert(path, i, ...)` -/
  insert : Path K → ℕ → List K → Path K
  /-- `edit.remove(path, i, n)`, where `n` is one if it is missing -/
  remove : Path K → ℕ → ℕ → Path K
  /-- the number of arguments of a command -/
  argc : Name → ℕ
  /-- `path_state.next_state(path, i, cpx, cpy, ...)` -/
  nextState : Path K → ℕ → State K → State K
  /-- `point.reflect_point(x, y, cx, cy)` -/
  reflectPoint : K → K → K → K → K × K
  /-- `point.reflect_point_distance(x, y, cx, cy, length)` -/
  reflectPointDistance : K → K → K → K → K → K × K
  /-- `point.distance(x1, y1, x2, y2)` -/
  distance : K → K → K → K → K
  /-- `line.split(t, x1, y1, x2, y2)` -/
  split : K → K → K → K → K → List K

variable {K : Type} (lib : Library K)

/-- `path[i] = s` -/
def rename (path : Path K) (i : ℕ) (s : Name) : Path K := path.set (i - 1) (.cmd s)

/-- `path[i]`, for a number. -/
def number (path : Path K) (i : ℕ) : Except Error K :=
  match path[i - 1]? with
  | some (.num v) => .ok v
  | _ => .error .badArgument

/-! ## Commands, lines and curves -/

structure Command (K : Type) where
  name : Name
  args : List K
  deriving DecidableEq, Repr

def Command.items (c : Command K) : Path K := .cmd c.name :: c.args.map .num

section Curves

variable [Field K]

/-- The line between two points. -/
def lineAt (p1 p2 : K × K) (t : K) : K × K :=
  (p1.1 + t * (p2.1 - p1.1), p1.2 + t * (p2.2 - p1.2))

def cubic (v1 v2 v3 v4 t : K) : K :=
  (1 - t) ^ 3 * v1 + 3 * t * (1 - t) ^ 2 * v2 + 3 * t ^ 2 * (1 - t) * v3 + t ^ 3 * v4

/-- The curve with two endpoints and two control points between them. -/
def bezier (p1 p2 p3 p4 : K × K) (t : K) : K × K :=
  (cubic p1.1 p2.1 p3.1 p4.1 t, cubic p1.2 p2.2 p3.2 p4.2 t)

/-- `point.reflect_point`, exactly. -/
def reflect (p c : K × K) : K × K := (2 * c.1 - p.1, 2 * c.2 - p.2)

end Curves

/-! ## The table of conversions -/

section Conversions

variable (path : Path K) (i : ℕ) (st : State K)

/-- `convert.line.hline` -/
def lineHline : Except Error (Path K) := do
  let path := rename path i .hline
  return lib.remove path (i + 2) 1

/-- `convert.hline.line` -/
def hlineLine : Except Error (Path K) := do
  let path := rename path i .line
  return lib.insert path (i + 2) [(← nonNil .badArgument st.cp).2]

/-- `convert.line.vline` -/
def lineVline : Except Error (Path K) := do
  let path := rename path i .vline
  return lib.remove path (i + 1) 1

/-- `convert.vline.line` -/
def vlineLine : Except Error (Path K) := do
  let path := rename path i .line
  return lib.insert path (i + 1) [(← nonNil .badArgument st.cp).1]

/-- The values of `split` from the third one, of which two are used. -/
def splitPoint (t x1 y1 x2 y2 : K) : Except Error (K × K) := do
  let vs := lib.split t x1 y1 x2 y2
  return (← nonNil .badArgument vs[2]?, ← nonNil .badArgument vs[3]?)

/-- `convert.line.curve` -/
def lineCurve [Field K] : Except Error (Path K) := do
  let path := rename path i .curve
  let cp ← nonNil .nilArith st.cp
  let (x, y) := (← number path (i + 1), ← number path (i + 2))
  let (x2, y2) ← splitPoint lib (1 / 3) cp.1 cp.2 x y
  let (x3, y3) ← splitPoint lib (2 / 3) cp.1 cp.2 x y
  return lib.insert path (i + 1) [x2, y2, x3, y3]

/-- `convert.curve.line` -/
def curveLine : Except Error (Path K) := do
  let path := rename path i .line
  return lib.remove path (i + 1) 4

/-- `convert.symm_curve.curve` -/
def symmCurveCurve : Except Error (Path K) := do
  let cp ← nonNil .nilArith st.cp
  let b := st.b.getD cp
  let (x2, y2) := lib.reflectPoint b.1 b.2 cp.1 cp.2
  let path := rename path i .curve
  return lib.insert path (i + 1) [x2, y2]

/-- `convert.curve.symm_curve` -/
def curveSymmCurve : Except Error (Path K) := do
  let path := rename path i .symmCurve
  return lib.remove path (i + 1) 2

/-- `convert.smooth_curve.curve` -/
def smoothCurveCurve : Except Error (Path K) := do
  let cp ← nonNil .nilArith st.cp
  let b := st.b.getD cp
  let (x2, y2) := lib.reflectPointDistance b.1 b.2 cp.1 cp.2 (← number path (i + 1))
  let path := rename path i .curve
  return lib.insert path (i + 1) [x2, y2]

/-- `convert.curve.smooth_curve` -/
def curveSmoothCurve : Except Error (Path K) := do
  let path := rename path i .smoothCurve
  let cp ← nonNil .nilArith st.cp
  let len := lib.distance cp.1 cp.2 (← number path (i + 1)) (← number path (i + 2))
  let path := path.set i (.num len)
  return lib.remove path (i + 2) 1

/-- `convert[s][cmd](path, i, cpx, cpy, ...)` -/
def convert [Field K] (s cmd : Name) : Except Error (Path K) :=
  match s, cmd with
  | .line, .hline => lineHline lib path i
  | .hline, .line => hlineLine lib path i st
  | .line, .vline => lineVline lib path i
  | .vline, .line => vlineLine lib path i st
  | .line, .curve => lineCurve lib path i st
  | .curve, .line => curveLine lib path i
  | .symmCurve, .curve => symmCurveCurve lib path i st
  | .curve, .symmCurve => curveSymmCurve lib path i
  | .smoothCurve, .curve => smoothCurveCurve lib path i st
  | .curve, .smoothCurve => curveSmoothCurve lib path i st
  | _, _ => .error .nilCall

end Conversions

/-! ## All commands -/

variable [Field K] (query : Path K → ℕ → Name → Option Name)

/-- The command that a lossless conversion makes of a command. -/
def Command.convertTo (c : Command K) (st : State K) (cmd : Name) : Command K :=
  match c.name, cmd, c.args, st.cp with
  | .hline, .line, [x], some cp => ⟨.line, [x, cp.2]⟩
  | .vline, .line, [y], some cp => ⟨.line, [cp.1, y]⟩
  | .line, .curve, [x, y], some cp =>
      let (x2, y2) := lineAt cp (x, y) (1 / 3)
      let (x3, y3) := lineAt cp (x, y) (2 / 3)
      ⟨.curve, [x2, y2, x3, y3, x, y]⟩
  | .symmCurve, .curve, [x3, y3, x4, y4], some cp =>
      let (x2, y2) := reflect (st.b.getD cp) cp
      ⟨.curve, [x2, y2, x3, y3, x4, y4]⟩
  | _, _, _, _ => c

/-- The body of the loop up to the conversion. -/
def convertAt (path : Path K) (i : ℕ) (s : Name) (st : State K) : Except Error (Path K) :=
  match query path i s with
  | some cmd => convert lib path i st s cmd
  | none => .ok path

/-- The loop over `path_state.commands(path)`, which reads the path again at each
step; what is no command has no number of arguments. None if the fuel runs out. -/
def convertLoop : ℕ → Path K → ℕ → State K → Option (Except Error (Path K))
  | 0, _, _, _ => none
  | n + 1, path, i, st =>
      match path[i - 1]? with
      | none => some (.ok path)
      | some (.num _) => some (.error .nilArith)
      | some (.cmd s) =>
          match convertAt lib query path i s st with
          | .error e => some (.error e)
          | .ok path =>
              match path[i - 1]? with
              | some (.cmd s) =>
                  convertLoop n path (i + lib.argc s + 1) (lib.nextState path i st)
              | _ => some (.error .nilArith)

/-- `convert_commands(path, query)` -/
def convertCommands (path : Path K) : Option (Except Error (Path K)) :=
  convertLoop lib query (path.length + 1) path 1 {}

/-- `convert_command(path, i, cmd)` -/
def convertCommand (path : Path K) (i : ℕ) (cmd : Name) : Option (Except Error (Path K)) :=
  convertCommands lib (fun _ i' _ => if i' = i then some cmd else none) path

end LuaAttic.PathConvert
