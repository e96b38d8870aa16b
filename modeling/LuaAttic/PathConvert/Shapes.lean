import Mathlib
import LuaAttic.PathConvert.Convert

/-!
# What commands describe

Lines and curves are functions of time.  A command that reflects the control point
before it has a first control point that is not in the path; no other command
depends on that point.
-/

namespace LuaAttic.PathConvert

variable {K O : Type}

/-! ## Commands -/

/-- A path with its commands one after the other. -/
def flatten (cs : List (Command K)) : Path K := cs.flatMap Command.items

theorem flatten_cons (c : Command K) (cs : List (Command K)) :
    flatten (c :: cs) = c.items ++ flatten cs := rfl

/-- What follows the arguments of a command is no number. -/
theorem flatten_ne_num_cons (cs : List (Command K)) (v : K) (rest : Path K) :
    flatten cs ≠ .num v :: rest := by
  cases cs with
  | nil => nofun
  | cons c cs => exact fun h => nomatch (List.cons.inj h).1

theorem args_append_injective {args args' : List K} {cs cs' : List (Command K)}
    (h : args.map .num ++ flatten cs = args'.map .num ++ flatten cs') :
    args = args' ∧ flatten cs = flatten cs' := by
  induction args generalizing args' with
  | nil =>
      cases args' with
      | nil => exact ⟨rfl, h⟩
      | cons v args' => exact absurd h (flatten_ne_num_cons cs v _)
  | cons v args ih =>
      cases args' with
      | nil => exact absurd h.symm (flatten_ne_num_cons cs' v _)
      | cons v' args' =>
          obtain ⟨hv, hargs⟩ := List.cons.inj h
          obtain rfl := Item.num.inj hv
          obtain ⟨rfl, hrest⟩ := ih hargs
          exact ⟨rfl, hrest⟩

theorem items_append_injective {c c' : Command K} {cs cs' : List (Command K)}
    (h : c.items ++ flatten cs = c'.items ++ flatten cs') :
    c = c' ∧ flatten cs = flatten cs' := by
  obtain ⟨name, args⟩ := c
  obtain ⟨name', args'⟩ := c'
  obtain ⟨hname, h⟩ := List.cons.inj h
  obtain rfl := Item.cmd.inj hname
  obtain ⟨rfl, hrest⟩ := args_append_injective h
  exact ⟨rfl, hrest⟩

/-- A path has its commands in one way only. -/
theorem flatten_injective {cs cs' : List (Command K)} (h : flatten cs = flatten cs') :
    cs = cs' := by
  induction cs generalizing cs' with
  | nil =>
      cases cs' with
      | nil => rfl
      | cons c' cs' => cases h
  | cons c cs ih =>
      cases cs' with
      | nil => cases h
      | cons c' cs' =>
          obtain ⟨rfl, hrest⟩ := items_append_injective h
          rw [ih hrest]

/-! ## Lines and curves -/

variable [Field K]

section CharZero

variable [CharZero K]

theorem cubic_line (v1 v2 t : K) :
    cubic v1 (v1 + 1 / 3 * (v2 - v1)) (v1 + 2 / 3 * (v2 - v1)) v2 t = v1 + t * (v2 - v1) := by
  have h3 : (3 : K) ≠ 0 := by norm_num
  rw [cubic]
  field_simp
  ring

/-- A line is a curve with control points at one third and two thirds of it. -/
theorem bezier_line (p1 p2 : K × K) :
    bezier p1 (lineAt p1 p2 (1 / 3)) (lineAt p1 p2 (2 / 3)) p2 = lineAt p1 p2 := by
  funext t
  exact Prod.ext (cubic_line p1.1 p2.1 t) (cubic_line p1.2 p2.2 t)

theorem cubic_injective {v1 v2 v2' v3 v4 t : K} (ht : t ≠ 0) (ht' : 1 - t ≠ 0)
    (h : cubic v1 v2 v3 v4 t = cubic v1 v2' v3 v4 t) : v2 = v2' := by
  have hcoeff : 3 * t * (1 - t) ^ 2 ≠ 0 :=
    mul_ne_zero (mul_ne_zero (by norm_num) ht) (pow_ne_zero 2 ht')
  refine mul_left_cancel₀ hcoeff ?_
  rw [cubic, cubic] at h
  linear_combination h

/-- The first control point makes a difference. -/
theorem bezier_injective {p1 p2 p2' p3 p4 : K × K}
    (h : bezier p1 p2 p3 p4 = bezier p1 p2' p3 p4) : p2 = p2' := by
  have ht : (2 : K) ≠ 0 := by norm_num
  have ht' : (1 : K) - 2 ≠ 0 := by norm_num
  have hat := congrFun h 2
  exact Prod.ext (cubic_injective ht ht' (congrArg Prod.fst hat))
    (cubic_injective ht ht' (congrArg Prod.snd hat))

end CharZero

/-! ## Meanings -/

/-- What the other commands are: how many arguments they have, what they leave, and
what they describe. -/
structure Others (K O : Type) where
  argc : String → ℕ
  next : String → List K → State K → State K
  draw : String → List K → State K → O

/-- How many arguments a command has. -/
def Others.count (others : Others K O) : Name → ℕ
  | .line => 2
  | .hline | .vline => 1
  | .curve => 6
  | .symmCurve | .relSymmCurve => 4
  | .smoothCurve | .relSmoothCurve => 5
  | .other s => others.argc s

/-- What a command describes. -/
inductive Shape (K O : Type)
  | curve (f : K → K × K)
  | other (o : O)

variable (lib : Library K) (others : Others K O)

/-- The last control point, or the current point, at a distance on the other side of
the current point. -/
def reflectDistance (p c : K × K) (length : K) : K × K :=
  lib.reflectPointDistance p.1 p.2 c.1 c.2 length

/-- The first control point of a command that reflects the last one. -/
def Command.control (c : Command K) (st : State K) : Option (K × K) :=
  match c.name, c.args, st.cp with
  | .symmCurve, [_, _, _, _], some cp | .relSymmCurve, [_, _, _, _], some cp =>
      some (reflect (st.b.getD cp) cp)
  | .smoothCurve, [len, _, _, _, _], some cp | .relSmoothCurve, [len, _, _, _, _], some cp =>
      some (reflectDistance lib (st.b.getD cp) cp len)
  | _, _, _ => none

/-- What a command describes, if it has its arguments and the current point where it
needs one. -/
def Command.shape (c : Command K) (st : State K) : Option (Shape K O) :=
  match c.name, c.args, st.cp with
  | .line, [x, y], some cp => some (.curve (lineAt cp (x, y)))
  | .hline, [x], some cp => some (.curve (lineAt cp (x, cp.2)))
  | .vline, [y], some cp => some (.curve (lineAt cp (cp.1, y)))
  | .curve, [x2, y2, x3, y3, x4, y4], some cp =>
      some (.curve (bezier cp (x2, y2) (x3, y3) (x4, y4)))
  | .symmCurve, [x3, y3, x4, y4], some cp =>
      some (.curve (bezier cp (reflect (st.b.getD cp) cp) (x3, y3) (x4, y4)))
  | .relSymmCurve, [x3, y3, x4, y4], some cp =>
      some (.curve (bezier cp (reflect (st.b.getD cp) cp) (cp + (x3, y3)) (cp + (x4, y4))))
  | .smoothCurve, [len, x3, y3, x4, y4], some cp =>
      some (.curve (bezier cp (reflectDistance lib (st.b.getD cp) cp len) (x3, y3) (x4, y4)))
  | .relSmoothCurve, [len, x3, y3, x4, y4], some cp =>
      some (.curve (bezier cp (reflectDistance lib (st.b.getD cp) cp len) (cp + (x3, y3))
        (cp + (x4, y4))))
  | .other s, args, _ => some (.other (others.draw s args { st with b := none }))
  | _, _, _ => none

/-- What a command leaves. -/
def Command.next (c : Command K) (st : State K) : State K :=
  match c.name, c.args with
  | .line, [x, y] => { st with cp := some (x, y), b := none, q := none }
  | .hline, [x] => { st with cp := st.cp.map fun cp => (x, cp.2), b := none, q := none }
  | .vline, [y] => { st with cp := st.cp.map fun cp => (cp.1, y), b := none, q := none }
  | .curve, [_, _, x3, y3, x4, y4] | .symmCurve, [x3, y3, x4, y4]
  | .smoothCurve, [_, x3, y3, x4, y4] =>
      { st with cp := some (x4, y4), b := some (x3, y3), q := none }
  | .relSymmCurve, [x3, y3, x4, y4] | .relSmoothCurve, [_, x3, y3, x4, y4] =>
      { st with
        cp := st.cp.map (· + (x4, y4))
        b := st.cp.map (· + (x3, y3))
        q := none }
  | .other s, args => others.next s args { st with b := none }
  | _, _ => st

/-- What the commands of a path describe, one after the other. -/
def shapes (st : State K) : List (Command K) → List (Option (Shape K O))
  | [] => []
  | c :: cs => c.shape lib others st :: shapes (c.next others st) cs

/-- Each command has its arguments, and the current point where it needs one. -/
structure WellFormed (st : State K) (cs : List (Command K)) : Prop where
  counts : ∀ c ∈ cs, c.args.length = others.count c.name
  shaped : none ∉ shapes lib others st cs

end LuaAttic.PathConvert
