import Mathlib.Algebra.Group.Prod
import LuaAttic.Lua.Basic
import LuaAttic.Varlinker.Linker

/-!
# Path editor (`path_editor.lua`)

A path is edited by its points.  Each command makes variables for its
coordinates in the path and for its points, and links them.
-/

namespace LuaAttic.PathEditor

open LuaAttic.Lua LuaAttic.Varlinker

/-! ## Paths -/

/-- A path command; with `rel` it is the one whose name starts with `rel_`. -/
inductive Command (α : Type)
  | move (rel : Bool) (x y : α)
  | line (rel : Bool) (x y : α)
  | hline (rel : Bool) (x : α)
  | vline (rel : Bool) (y : α)
  | curve (rel : Bool) (x2 y2 x3 y3 x4 y4 : α)
  deriving DecidableEq, Repr

def Command.map {α β : Type} (f : α → β) : Command α → Command β
  | .move rel x y => .move rel (f x) (f y)
  | .line rel x y => .line rel (f x) (f y)
  | .hline rel x => .hline rel (f x)
  | .vline rel y => .vline rel (f y)
  | .curve rel x2 y2 x3 y3 x4 y4 =>
      .curve rel (f x2) (f y2) (f x3) (f y3) (f x4) (f y4)

variable {K : Type} [AddCommGroup K]

/-- What the coordinates of a command are relative to. -/
def origin (rel : Bool) (cp : K × K) : K × K := if rel then cp else 0

/-- The endpoint of a command, and then its control points, given the current
point. -/
def Command.points (cp : K × K) : Command K → List (K × K)
  | .move rel x y | .line rel x y => [origin rel cp + (x, y)]
  | .hline rel x => [((origin rel cp).1 + x, cp.2)]
  | .vline rel y => [(cp.1, (origin rel cp).2 + y)]
  | .curve rel x2 y2 x3 y3 x4 y4 =>
      [origin rel cp + (x4, y4), origin rel cp + (x2, y2), origin rel cp + (x3, y3)]

def Command.endpoint (cp : K × K) (c : Command K) : K × K := (c.points cp).headD cp

/-- The points of a path, command by command. -/
def evaluate (cp : K × K) : List (Command K) → List (K × K)
  | [] => []
  | c :: cs => c.points cp ++ evaluate (c.endpoint cp) cs

/-! ## Links -/

/-- The variable `delta`, which is the first one. -/
def delta : ℕ := 1

def add (var1 var2 : ℕ) : Dep K where
  inputs := [var1, var2]
  fn t := t var1 + t var2
  reads s t h := by rw [h var1 (by simp), h var2 (by simp)]

def sub (var1 var2 : ℕ) : Dep K where
  inputs := [var1, var2]
  fn t := t var1 - t var2
  reads s t h := by rw [h var1 (by simp), h var2 (by simp)]

/-- The calls of `link` and `expr` that the editor makes. -/
inductive Call
  /-- `link(k1, k2)` -/
  | link (k1 k2 : ℕ)
  /-- `link(k1, k2, add, k2, delta)` -/
  | linkAdd (k1 k2 : ℕ)
  /-- `expr(k2, sub, var1, var2)` -/
  | exprSub (k2 var1 var2 : ℕ)
  deriving DecidableEq, Repr

def Call.make (L : Linkset K) : Call → Linkset K
  | .link k1 k2 => L.link k1 k2 none
  | .linkAdd k1 k2 => L.link k1 k2 (some (add k2 delta))
  | .exprSub k2 var1 var2 => L.expr k2 (sub var1 var2)

/-! ## The editor -/

/-- The editor while it is made and after: the next variable, the cells that the
variables refer to, the links, the path with its coordinates as variables, the
variables of the points, and the current point. -/
structure Editor (K : Type) where
  next : ℕ := 2
  vals : ℕ → K
  calls : List Call := []
  path : List (Command ℕ) := []
  points : List (ℕ × ℕ) := []
  pcp : Option (ℕ × ℕ) := none

namespace Editor

variable (e : Editor K)

/-- `var(t, i)`, for a cell with a value -/
def var (v : K) : ℕ × Editor K :=
  (e.next, { e with next := e.next + 1, vals := Function.update e.vals e.next v })

/-- `point(x, y)` -/
def point (x y : K) : (ℕ × ℕ) × Editor K :=
  let (px, e) := e.var x
  let (py, e) := e.var y
  ((px, py), { e with points := e.points ++ [(px, py)] })

def link (k1 k2 : ℕ) : Editor K := { e with calls := e.calls ++ [.link k1 k2] }

def linkAdd (k1 k2 : ℕ) : Editor K := { e with calls := e.calls ++ [.linkAdd k1 k2] }

def exprSub (k2 var1 var2 : ℕ) : Editor K :=
  { e with calls := e.calls ++ [.exprSub k2 var1 var2] }

/-- `cpline(p1x, p1y, p2x, p2y)` -/
def cpline (p1 p2 : ℕ × ℕ) : Editor K :=
  let (cp1x, e) := e.var (e.vals p1.1)
  let (cp1y, e) := e.var (e.vals p1.2)
  let e := (e.link p1.1 cp1x).link p1.2 cp1y
  let (cp2x, e) := e.var (e.vals p2.1)
  let (cp2y, e) := e.var (e.vals p2.2)
  (e.link p2.1 cp2x).link p2.2 cp2y

/-- `move` and `line` -/
def line (command : Bool → ℕ → ℕ → Command ℕ) (x y : K) : Editor K :=
  let (c2x, e) := e.var x
  let (c2y, e) := e.var y
  let (p2, e) := e.point x y
  -- point updates point in path
  let e := (e.link p2.1 c2x).link p2.2 c2y
  { e with path := e.path ++ [command false c2x c2y], pcp := some p2 }

/-- `rel_move` and `rel_line` -/
def relLine (command : Bool → ℕ → ℕ → Command ℕ) (p1 : ℕ × ℕ) (x y : K) : Editor K :=
  let (ox, oy) := (e.vals p1.1, e.vals p1.2)
  let (c2x, e) := e.var x
  let (c2y, e) := e.var y
  let (p2, e) := e.point (ox + x) (oy + y)
  -- both first and second points update point in path
  let e := (e.exprSub c2x p2.1 p1.1).exprSub c2y p2.2 p1.2
  { e with path := e.path ++ [command true c2x c2y], pcp := some p2 }

/-- `hline` -/
def hline (p1 : ℕ × ℕ) (x : K) : Editor K :=
  let (c2x, e) := e.var x
  let (p2, e) := e.point x (e.vals p1.2)
  -- point updates length in path
  let e := e.link p2.1 c2x
  -- second point updates first point, and first point updates second point
  let e := (e.link p2.2 p1.2).link p1.2 p2.2
  { e with path := e.path ++ [.hline false c2x], pcp := some p2 }

/-- `vline` -/
def vline (p1 : ℕ × ℕ) (y : K) : Editor K :=
  let (c2y, e) := e.var y
  let (p2, e) := e.point (e.vals p1.1) y
  let e := e.link p2.2 c2y
  let e := (e.link p2.1 p1.1).link p1.1 p2.1
  { e with path := e.path ++ [.vline false c2y], pcp := some p2 }

/-- `rel_hline` -/
def relHline (p1 : ℕ × ℕ) (x : K) : Editor K :=
  let (ox, oy) := (e.vals p1.1, e.vals p1.2)
  let (c2x, e) := e.var x
  let (p2, e) := e.point (ox + x) oy
  -- both first point and second point update length in path
  let e := e.exprSub c2x p2.1 p1.1
  let e := (e.link p2.2 p1.2).link p1.2 p2.2
  { e with path := e.path ++ [.hline true c2x], pcp := some p2 }

/-- `rel_vline` -/
def relVline (p1 : ℕ × ℕ) (y : K) : Editor K :=
  let (ox, oy) := (e.vals p1.1, e.vals p1.2)
  let (c2y, e) := e.var y
  let (p2, e) := e.point ox (oy + y)
  let e := e.exprSub c2y p2.2 p1.2
  let e := (e.link p2.1 p1.1).link p1.1 p2.1
  { e with path := e.path ++ [.vline true c2y], pcp := some p2 }

/-- `curve` and `rel_curve` -/
def curve (rel : Bool) (p1 : ℕ × ℕ) (x2 y2 x3 y3 x4 y4 : K) : Editor K :=
  let (ox, oy) := origin rel (e.vals p1.1, e.vals p1.2)
  let (c2x, e) := e.var x2
  let (c2y, e) := e.var y2
  let (c3x, e) := e.var x3
  let (c3y, e) := e.var y3
  let (c4x, e) := e.var x4
  let (c4y, e) := e.var y4
  -- the endpoint comes before the control points
  let (p4, e) := e.point (ox + x4) (oy + y4)
  let (p2, e) := e.point (ox + x2) (oy + y2)
  let (p3, e) := e.point (ox + x3) (oy + y3)
  -- points update themselves in path
  let e :=
    if rel then
      let e := (e.exprSub c2x p2.1 p1.1).exprSub c2y p2.2 p1.2
      let e := (e.exprSub c3x p3.1 p1.1).exprSub c3y p3.2 p1.2
      (e.exprSub c4x p4.1 p1.1).exprSub c4y p4.2 p1.2
    else
      let e := (e.link p2.1 c2x).link p2.2 c2y
      let e := (e.link p3.1 c3x).link p3.2 c3y
      (e.link p4.1 c4x).link p4.2 c4y
  -- first and last point move their control points
  let e := (e.linkAdd p1.1 p2.1).linkAdd p1.2 p2.2
  let e := (e.linkAdd p4.1 p3.1).linkAdd p4.2 p3.2
  let e := (e.cpline p1 p2).cpline p3 p4
  { e with path := e.path ++ [.curve rel c2x c2y c3x c3y c4x c4y], pcp := some p4 }

/-- The loop over the commands, for one of them. -/
def command (c : Command K) : Except Error (Editor K) :=
  match c with
  | .move false x y => return e.line .move x y
  | .line false x y => return e.line .line x y
  | .move true x y => do return e.relLine .move (← nonNil .badArgument e.pcp) x y
  | .line true x y => do return e.relLine .line (← nonNil .badArgument e.pcp) x y
  | .hline false x => do return e.hline (← nonNil .badArgument e.pcp) x
  | .vline false y => do return e.vline (← nonNil .badArgument e.pcp) y
  | .hline true x => do return e.relHline (← nonNil .badArgument e.pcp) x
  | .vline true y => do return e.relVline (← nonNil .badArgument e.pcp) y
  | .curve rel x2 y2 x3 y3 x4 y4 => do
      return e.curve rel (← nonNil .badArgument e.pcp) x2 y2 x3 y3 x4 y4

/-- The links, with the dependents of a variable in some order. -/
def linkset : Linkset K := e.calls.foldl Call.make {}

/-- `point_vars` -/
def pointVars : List ℕ := e.points.flatMap fun p => [p.1, p.2]

end Editor

/-- `editor(path)` -/
def editor (path : List (Command K)) : Except Error (Editor K) :=
  path.foldlM Editor.command { vals := fun _ => 0 }

/-! ## Editing -/

variable [DecidableEq K]

/-- `update(xi, x)`, where `pairs` visits dependents in the order of the linkset;
none if the fuel of the linker runs out. -/
def update (e : Editor K) (L : Linkset K) (xi : ℕ) (x : K) (val : ℕ → K) :
    Option (ℕ → K) := do
  let px ← e.pointVars[xi - 1]?
  let d := x - val px
  if d = 0 then return val
  let linker : Linker K := { linksets := [L] }
  let val ← linker.update delta d val
  linker.update px x val

/-- `update_point(xi, x, y)` -/
def updatePoint (e : Editor K) (L : Linkset K) (xi : ℕ) (x y : K) (val : ℕ → K) :
    Option (ℕ → K) := do
  let val ← update e L xi x val
  update e L (xi + 1) y val

end LuaAttic.PathEditor
