import Mathlib
import LuaAttic.Support.Dfs
import LuaAttic.Support.Schedule

/-!
# Linked variables (`varlinker.lua`)

A linkset says which variables depend on a variable, and by which functions.
An assignment sets a variable and then its dependents, in depth, each of them
once.
-/

namespace LuaAttic.Varlinker

open LuaAttic.Support

variable {Val : Type}

/-! ## Linksets -/

/-- A function with its arguments, which are the variables that it reads. -/
structure Dep (Val : Type) where
  inputs : List ℕ
  fn : (ℕ → Val) → Val
  reads : ∀ s t, (∀ x ∈ inputs, s x = t x) → fn s = fn t

/-- `{get, k1}` -/
def Dep.get (k1 : ℕ) : Dep Val where
  inputs := [k1]
  fn s := s k1
  reads _ _ h := h k1 List.mem_cons_self

/-- `deps`: the dependents of each variable, in the order in which `pairs`
visits them. -/
structure Linkset (Val : Type) where
  deps : List (ℕ × List (ℕ × Dep Val)) := []

/-- `t[k] = v` -/
def setKey {α : Type} (t : List (ℕ × α)) (k : ℕ) (v : α) : List (ℕ × α) :=
  (k, v) :: t.filter fun e => e.1 ≠ k

/-- `deps[k1]`, which may be missing. -/
def Linkset.dependents (L : Linkset Val) (k1 : ℕ) : List (ℕ × Dep Val) :=
  (List.lookup k1 L.deps).getD []

/-- `deps[k1][k2] = dep` -/
def Linkset.setDep (L : Linkset Val) (k1 k2 : ℕ) (dep : Dep Val) : Linkset Val :=
  ⟨setKey L.deps k1 (setKey (L.dependents k1) k2 dep)⟩

/-- `link(linkset, k1, k2, f, ...)` -/
def Linkset.link (L : Linkset Val) (k1 k2 : ℕ) (f : Option (Dep Val)) :
    Linkset Val :=
  L.setDep k1 k2 (f.getD (.get k1))

/-- `expr(linkset, k2, f, ...)` -/
def Linkset.expr (L : Linkset Val) (k2 : ℕ) (dep : Dep Val) : Linkset Val :=
  dep.inputs.foldl (fun L k1 => L.setDep k1 k2 dep) L

/-- The setters of the variables that are constrained, and the linksets in the
order in which `pairs` visits them. -/
structure Linker (Val : Type) where
  setters : ℕ → Option ((ℕ → Val) → Val) := fun _ => none
  linksets : List (Linkset Val) := []

/-! ## Assignments -/

/-- `set(k, v)` -/
def Linker.set (Λ : Linker Val) (k : ℕ) (v : Val) (s : ℕ → Val) : ℕ → Val :=
  let s := Function.update s k v
  match Λ.setters k with
  | some setter => Function.update s k (setter s)
  | none => s

/-- The values of the variables, and those touched in the order in which they
were. -/
structure State (Val : Type) where
  vals : ℕ → Val
  touched : List ℕ := []

/-- `update_linkset(linkset, k, v, touched)`; none if the fuel runs out. -/
def Linker.updateLinkset (Λ : Linker Val) (L : Linkset Val) :
    ℕ → ℕ → Val → State Val → Option (State Val)
  | 0, _, _, _ => none
  | n + 1, k, v, st =>
      if k ∈ st.touched then some st
      else
        (L.dependents k).foldlM
          (fun st e => Λ.updateLinkset L n e.1 (e.2.fn st.vals) st)
          ⟨Λ.set k v st.vals, st.touched ++ [k]⟩

/-- One more than the variables that a walk can touch. -/
def Linkset.fuel (L : Linkset Val) : ℕ :=
  (L.deps.map fun e => e.2.length).sum + 2

/-- `val[k] = v` -/
def Linker.update (Λ : Linker Val) (k : ℕ) (v : Val) (s : ℕ → Val) :
    Option (ℕ → Val) :=
  Λ.linksets.foldlM
    (fun s L => (Λ.updateLinkset L L.fuel k v ⟨s, []⟩).map State.vals) s

/-! ## Graphs -/

/-- What depends on what: an edge goes to a dependent, and the function of a
variable reads its inputs. -/
structure Graph where
  edge : ℕ → ℕ → Prop
  reads : ℕ → ℕ → Prop

def Linkset.graph (L : Linkset Val) : Graph where
  edge x w := ∃ dep, (w, dep) ∈ L.dependents x
  reads y w := ∃ x dep, (w, dep) ∈ L.dependents x ∧ y ∈ dep.inputs

def Graph.Acyclic (g : Graph) : Prop :=
  ∀ x, ¬ Relation.TransGen (fun a b => g.edge a b ∨ g.reads a b) x x

/-- The variables that can be reached from one by links and expressions. -/
def Graph.Reaches (g : Graph) (k w : ℕ) : Prop := Relation.TransGen g.edge k w

/-- Each variable is computed by at most one link or expression. -/
def Linkset.ComputesOnce (L : Linkset Val) : Prop :=
  ∀ x x' w dep dep', (w, dep) ∈ L.dependents x → (w, dep') ∈ L.dependents x' →
    dep = dep'

def Linker.graphs (Λ : Linker Val) : List Graph := Λ.linksets.map Linkset.graph

/-- There are no constraints, and the linksets are acyclic and compute each
variable once. -/
structure Linker.Admissible (Λ : Linker Val) : Prop where
  unconstrained : ∀ k, Λ.setters k = none
  once : ∀ L ∈ Λ.linksets, L.ComputesOnce
  acyclic : ∀ L ∈ Λ.linksets, L.graph.Acyclic

/-- After the assignment the variable has the value, and each one reached from
it in a linkset is what its function there gives for the final values. -/
def Linker.Consistent (Λ : Linker Val) (k : ℕ) (v : Val) (s : ℕ → Val) : Prop :=
  ∃ t, Λ.update k v s = some t ∧ t k = v ∧
    ∀ L ∈ Λ.linksets, ∀ x w dep, (w, dep) ∈ L.dependents x →
      L.graph.Reaches k w → t w = dep.fn t

end LuaAttic.Varlinker
