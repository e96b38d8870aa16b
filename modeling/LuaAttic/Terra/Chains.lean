import Mathlib.Data.Set.Function
import Mathlib.Order.Interval.Set.Defs
import LuaAttic.Terra.Dispatch

/-!
# Chains of classes

A class after its superclasses: the slots of all of them are its own, and in each
there is what the most derived class made of the method.
-/

namespace LuaAttic.Terra

open LuaAttic.Lua LuaAttic.Support

variable {Ty Body : Type} [DecidableEq Ty]

variable {d : Decl Ty Body} {ds : List (Decl Ty Body)} {c : Class Ty Body}

theorem compileChain_cons {o : Option (Class Ty Body)}
    (h : compileChain (d :: ds) = .ok o) : ∃ super c, compileChain ds = .ok super ∧
      compileMethods super d = .ok c ∧ o = some c := by
  obtain ⟨super, hsuper, h⟩ := bind_eq_ok_iff.mp h
  obtain ⟨c, hc, h⟩ := bind_eq_ok_iff.mp h
  exact ⟨super, c, hsuper, hc, (Except.ok.inj h).symm⟩

theorem compileChain_isSome {o : Option (Class Ty Body)} (h : compileChain ds = .ok o) :
    o.isSome ↔ ds ≠ [] := by
  cases ds with
  | nil =>
      obtain rfl := Except.ok.inj h
      simp
  | cons d ds =>
      obtain ⟨super, c, -, -, rfl⟩ := compileChain_cons h
      simp

/-- Every class of a chain is what `compile_methods` makes of its superclass. -/
theorem compileChain_built (h : compileChain (d :: ds) = .ok (some c)) :
    ∃ super, compileChain ds = .ok super ∧ c.Built super (d.asts super.isSome) := by
  induction ds generalizing d c with
  | nil =>
      obtain ⟨super, c', hsuper, hc, hsome⟩ := compileChain_cons h
      obtain rfl := Option.some.inj hsome
      obtain rfl := Except.ok.inj hsuper
      exact ⟨none, rfl, compileMethods_built (fun s hs => nomatch hs) hc⟩
  | cons e es ih =>
      obtain ⟨super, c', hsuper, hc, hsome⟩ := compileChain_cons h
      obtain rfl := Option.some.inj hsome
      refine ⟨super, hsuper, compileMethods_built ?_ hc⟩
      rintro s rfl
      obtain ⟨_, -, hbuilt⟩ := ih hsuper
      exact hbuilt.layout

theorem compileChain_level (h : compileChain (d :: ds) = .ok (some c)) :
    c.level = ds.length := by
  induction ds generalizing d c with
  | nil =>
      obtain ⟨super, hsuper, hbuilt⟩ := compileChain_built h
      obtain rfl := Except.ok.inj hsuper
      exact hbuilt.level
  | cons e es ih =>
      obtain ⟨super, hsuper, hbuilt⟩ := compileChain_built h
      obtain ⟨_, s, -, -, rfl⟩ := compileChain_cons hsuper
      rw [hbuilt.level, Option.elim_some, ih hsuper, List.length_cons]

/-- A method is defined or hooked by a class. -/
def Decl.Defines (d : Decl Ty Body) (hasSuper : Bool) (sig : Sig Ty) : Prop :=
  ∃ ast ∈ d.asts hasSuper, ast.sig = sig

theorem withSig_ne_nil_iff {hasSuper : Bool} {sig : Sig Ty} :
    withSig (d.asts hasSuper) sig ≠ [] ↔ d.Defines hasSuper sig := by
  rw [ne_eq, List.eq_nil_iff_forall_not_mem, not_forall]
  simp only [mem_withSig, Decl.Defines, not_not]

/-- The slots of an ancestor are those of the class. -/
theorem vindex_of_ancestor {pre as : List (Decl Ty Body)} {a : Class Ty Body}
    (h : compileChain (pre ++ as) = .ok (some c)) (ha : compileChain as = .ok (some a))
    {sig : Sig Ty} {i : ℕ} (hi : a.vindex sig = some i) : c.vindex sig = some i := by
  induction pre generalizing c with
  | nil =>
      obtain rfl := Option.some.inj (Except.ok.inj (ha.symm.trans h))
      exact hi
  | cons p pre ih =>
      obtain ⟨super, hsuper, hbuilt⟩ := compileChain_built h
      have hne : pre ++ as ≠ [] := by
        rintro hnil
        obtain ⟨-, rfl⟩ := List.append_eq_nil_iff.mp hnil
        cases ha
      obtain ⟨s, rfl⟩ := Option.isSome_iff_exists.mp ((compileChain_isSome hsuper).mpr hne)
      exact hbuilt.extended s rfl sig i (ih hsuper)

/-- What is in a slot: the stub of the most derived class that defines or hooks
the method. -/
structure Class.Slot (c : Class Ty Body) (chain : List (Decl Ty Body)) (sig : Sig Ty)
    (i : ℕ) (pre : List (Decl Ty Body)) (e : Decl Ty Body) (es : List (Decl Ty Body))
    (super : Option (Class Ty Body)) : Prop where
  split : chain = pre ++ e :: es
  superclass : compileChain es = .ok super
  more : ∀ p ∈ pre, ¬ p.Defines true sig
  defines : e.Defines super.isSome sig
  slot : c.vtable[i - 1]? = some (.stub es.length sig)
  isSome : (c.definition es.length sig).isSome
  definition : c.definition es.length sig = layers
    (super.bind fun s => (s.vindex sig).bind fun j => s.vtable[j - 1]?)
    (withSig (e.asts super.isSome) sig)

theorem slot_of_defines {super : Option (Class Ty Body)} {sig : Sig Ty} {i : ℕ}
    (h : compileChain (d :: ds) = .ok (some c)) (hsuper : compileChain ds = .ok super)
    (hbuilt : c.Built super (d.asts super.isSome)) (hi : c.vindex sig = some i)
    (hdefines : d.Defines super.isSome sig) : c.Slot (d :: ds) sig i [] d ds super := by
  obtain ⟨hslot, hsome, hdefinition⟩ :=
    hbuilt.defined sig i hi (withSig_ne_nil_iff.mpr hdefines)
  rw [compileChain_level h] at hslot hsome hdefinition
  exact ⟨rfl, hsuper, fun p hp => absurd hp List.not_mem_nil, hdefines, hslot, hsome,
    hdefinition⟩

/-- What a class inherits of a slot. -/
theorem Class.Slot.inherit {s : Class Ty Body} {pre es : List (Decl Ty Body)}
    {e : Decl Ty Body} {super : Option (Class Ty Body)} {sig : Sig Ty} {i : ℕ}
    (hslot : s.Slot ds sig i pre e es super) (h : compileChain (d :: ds) = .ok (some c))
    (hbuilt : c.Built (some s) (d.asts true)) (hi : c.vindex sig = some i)
    (hnot : ¬ d.Defines true sig) : c.Slot (d :: ds) sig i (d :: pre) e es super := by
  have hnil : withSig (d.asts true) sig = [] := by
    by_contra hne
    exact hnot (withSig_ne_nil_iff.mp hne)
  obtain ⟨s', hs', -, hsame⟩ := hbuilt.inherited sig i hi hnil
  obtain rfl := Option.some.inj hs'
  have hlevel : es.length ≠ c.level := by
    have hsplit := congrArg List.length hslot.split
    rw [List.length_append, List.length_cons] at hsplit
    rw [compileChain_level h]
    omega
  have hlower := hbuilt.lower s rfl es.length sig hlevel
  refine ⟨?_, hslot.superclass, ?_, hslot.defines, ?_, ?_, ?_⟩
  · rw [hslot.split, List.cons_append]
  · exact List.forall_mem_cons.mpr ⟨hnot, hslot.more⟩
  · rw [hsame, hslot.slot]
  · rw [hlower]
    exact hslot.isSome
  · rw [hlower, hslot.definition]

theorem exists_slot (h : compileChain (d :: ds) = .ok (some c)) {sig : Sig Ty} {i : ℕ}
    (hi : c.vindex sig = some i) : ∃ pre e es super, c.Slot (d :: ds) sig i pre e es super ∧
      ∃ a : Class Ty Body, compileChain (e :: es) = .ok (some a) ∧ a.vindex sig = some i := by
  induction ds generalizing d c with
  | nil =>
      obtain ⟨super, hsuper, hbuilt⟩ := compileChain_built h
      have hdefines : d.Defines super.isSome sig := by
        rw [← withSig_ne_nil_iff]
        intro hnil
        obtain ⟨s, rfl, -⟩ := hbuilt.inherited sig i hi hnil
        cases hsuper
      exact ⟨[], d, [], super, slot_of_defines h hsuper hbuilt hi hdefines, c, h, hi⟩
  | cons e es ih =>
      obtain ⟨super, hsuper, hbuilt⟩ := compileChain_built h
      by_cases hdefines : d.Defines super.isSome sig
      · exact ⟨[], d, e :: es, super, slot_of_defines h hsuper hbuilt hi hdefines, c, h, hi⟩
      · have hnil : withSig (d.asts super.isSome) sig = [] := by
          by_contra hne
          exact hdefines (withSig_ne_nil_iff.mp hne)
        obtain ⟨s, rfl, hs, -⟩ := hbuilt.inherited sig i hi hnil
        obtain ⟨pre, e', es', super', hslot, hclass⟩ := ih hsuper hs
        exact ⟨d :: pre, e', es', super', hslot.inherit h hbuilt hi hdefines, hclass⟩

/-- The private methods of an ancestor have no slot in the class. -/
theorem stub_not_mem_of_private {pre as : List (Decl Ty Body)} {p : Decl Ty Body}
    {a : Class Ty Body} (h : compileChain (d :: ds) = .ok (some c))
    (hsplit : d :: ds = pre ++ p :: as) (ha : compileChain (p :: as) = .ok (some a))
    {sig : Sig Ty} (hnone : a.vindex sig = none) :
    Func.stub as.length sig ∉ c.vtable := by
  intro hmem
  obtain ⟨k, hk, hget⟩ := List.getElem_of_mem hmem
  obtain ⟨super, -, hbuilt⟩ := compileChain_built h
  obtain ⟨sig', hsig'⟩ := hbuilt.layout.slots.surj (k + 1) (Nat.le_add_left 1 k) hk
  obtain ⟨pre', e, es, super', hslot, a', ha', hi⟩ := exists_slot h hsig'
  have hstub := hslot.slot
  rw [Nat.add_sub_cancel, List.getElem?_eq_getElem hk, hget] at hstub
  obtain ⟨hlen, rfl⟩ := Func.stub.inj (Option.some.inj hstub)
  have hsame : p :: as = e :: es := by
    have hcat : pre ++ p :: as = pre' ++ e :: es := hsplit.symm.trans hslot.split
    exact (List.append_inj' hcat (by simp [hlen])).2
  rw [hsame, ha'] at ha
  obtain rfl := Option.some.inj (Except.ok.inj ha)
  rw [hnone] at hi
  cases hi

/-- Private methods are called without the table, and are not inherited. -/
theorem private_of_chain (h : compileChain (d :: ds) = .ok (some c)) {sig : Sig Ty}
    {m : Method Ty Body} (hm : c.methods.get sig = some m) (hprivate : m.isPrivate = true) :
    c.vindex sig = none ∧
    (m.ismacro = false → m.func = some (.stub ds.length sig) ∧ m.vfunc = none) ∧
    ∀ e e', compileChain (e :: d :: ds) = .ok (some e') → ¬ e.Defines true sig →
      e'.methods.get sig = none := by
  obtain ⟨super, -, hbuilt⟩ := compileChain_built h
  refine ⟨?_, ?_, ?_⟩
  · cases hi : c.vindex sig with
    | none => rfl
    | some i =>
        have hsome : (c.vindex sig).isSome := by rw [hi]; rfl
        obtain ⟨m', hm', hpublic, -⟩ := (hbuilt.layout.vindex_iff sig).mp hsome
        obtain rfl := Option.some.inj (hm.symm.trans hm')
        rw [hprivate] at hpublic
        cases hpublic
  · intro hexpands
    rw [← compileChain_level h]
    exact hbuilt.static sig m hm hprivate hexpands
  · intro e e' he hnot
    obtain ⟨super', hsuper', hbuilt'⟩ := compileChain_built he
    obtain rfl := Except.ok.inj (h.symm.trans hsuper')
    refine hbuilt'.private_ sig m hm hprivate ?_
    by_contra hne
    exact hnot (withSig_ne_nil_iff.mp hne)

/-- What holds of a class after its superclasses. -/
structure Vtables (d : Decl Ty Body) (ds : List (Decl Ty Body)) (c : Class Ty Body) :
    Prop where
  superclass : ∀ s, compileChain ds = .ok (some s) → ∀ sig i, s.vindex sig = some i →
    c.vindex sig = some i
  bijection : Set.BijOn c.vindex {sig | c.Public sig} (some '' Set.Icc 1 c.vtable.length)
  no_other : ∀ sig, ¬ c.Public sig → c.vindex sig = none
  calls : ∀ pre as a, d :: ds = pre ++ as → compileChain as = .ok (some a) →
    ∀ sig m, a.methods.get sig = some m → m.isPrivate = false → m.ismacro = false →
      ∃ i, m.func = some (.slot i) ∧ a.vindex sig = some i ∧ c.vindex sig = some i
  most_derived : ∀ sig i, c.vindex sig = some i →
    ∃ pre e es super, c.Slot (d :: ds) sig i pre e es super
  private_ : ∀ pre p as a, d :: ds = pre ++ p :: as → compileChain (p :: as) = .ok (some a) →
    ∀ sig m, a.methods.get sig = some m → m.isPrivate = true →
      a.vindex sig = none ∧ Func.stub as.length sig ∉ c.vtable ∧
      (m.ismacro = false → m.func = some (.stub as.length sig) ∧ m.vfunc = none) ∧
      ∀ e e', compileChain (e :: p :: as) = .ok (some e') → ¬ e.Defines true sig →
        e'.methods.get sig = none

theorem vtables_of_chain (h : compileChain (d :: ds) = .ok (some c)) : Vtables d ds c where
  superclass s hs _ _ hi :=
    vindex_of_ancestor (show compileChain ([d] ++ ds) = .ok (some c) from h) hs hi
  bijection := by
    obtain ⟨super, -, hbuilt⟩ := compileChain_built h
    have hiff := hbuilt.layout.vindex_iff
    have hslots := hbuilt.layout.slots
    refine ⟨?_, ?_, ?_⟩
    · intro sig hsig
      obtain ⟨i, hi⟩ := Option.isSome_iff_exists.mp ((hiff sig).mpr hsig)
      exact ⟨i, hslots.range sig i hi, hi.symm⟩
    · intro sig hsig sig' _ heq
      obtain ⟨i, hi⟩ := Option.isSome_iff_exists.mp ((hiff sig).mpr hsig)
      exact hslots.inj sig sig' i hi (heq.symm.trans hi)
    · rintro _ ⟨i, ⟨h1, hn⟩, rfl⟩
      obtain ⟨sig, hsig⟩ := hslots.surj i h1 hn
      exact ⟨sig, (hiff sig).mp (by rw [hsig]; rfl), hsig⟩
  no_other sig hnot := by
    obtain ⟨super, -, hbuilt⟩ := compileChain_built h
    rw [← hbuilt.layout.vindex_iff] at hnot
    simpa using hnot
  calls pre as a hsplit ha sig m hm hpublic hexpands := by
    rw [hsplit] at h
    cases as with
    | nil => cases ha
    | cons p as =>
        obtain ⟨super, -, hbuilt⟩ := compileChain_built ha
        have hsome := (hbuilt.layout.vindex_iff sig).mpr ⟨m, hm, hpublic, hexpands⟩
        obtain ⟨i, hi⟩ := Option.isSome_iff_exists.mp hsome
        obtain ⟨hfunc, -⟩ := hbuilt.layout.methods sig i m hi hm
        exact ⟨i, hfunc, hi, vindex_of_ancestor h ha hi⟩
  most_derived _ _ hi := by
    obtain ⟨pre, e, es, super, hslot, -⟩ := exists_slot h hi
    exact ⟨pre, e, es, super, hslot⟩
  private_ pre p as a hsplit ha sig m hm hprivate := by
    obtain ⟨hnone, hstatic, hinherited⟩ := private_of_chain ha hm hprivate
    exact ⟨hnone, stub_not_mem_of_private h hsplit ha hnone, hstatic, hinherited⟩

/-- Methods in the order in which they were added. -/
def inOrder : Order (Sig ℕ) := ⟨id, fun _ => .refl _⟩

/-- A class with a public and a private method. -/
def shape : Decl ℕ ℕ where
  methods := [{ name := "draw", body := 1 }, { name := "area", isPrivate := true, body := 2 }]
  initBody := 0
  freeBody := 0
  order := inOrder

/-- A class with a hook of the public method and one more method. -/
def square : Decl ℕ ℕ where
  methods := [{ name := "draw", hook := some .before, body := 3 },
    { name := "side", argTypes := [1], body := 4 }]
  initBody := 0
  freeBody := 0
  order := inOrder

theorem square_vtables : ∃ c, compileChain [square, shape] = .ok (some c) ∧
    Vtables square [shape] c ∧ c.vindex ⟨"draw", some []⟩ = some 3 ∧
    c.vtable[2]? = some (.stub 1 ⟨"draw", some []⟩) ∧
    c.vindex ⟨"side", some [1]⟩ = some 4 ∧ c.vindex ⟨"area", some []⟩ = none :=
  ⟨_, rfl, vtables_of_chain rfl, rfl, rfl, rfl, rfl⟩

/-!
## Hooks as functions (`oo.t`)

A method and its hooks with the types that Terra checks, as they are compiled.
What their bodies do is done in a monad.
-/

variable {Ty Val : Type} {m : Type → Type}

/-! ### Terra functions -/

/-- The type of what returns nothing, what that is, and how a value of a type is
returned as another one. -/
structure Casts (Ty Val : Type) where
  unit : Ty
  nothing : Val
  cast : Ty → Ty → Option (Val → Val)

/-- A value is returned as it is where its type is the declared one, and nothing
else is returned as nothing. -/
structure Casts.Lawful (C : Casts Ty Val) : Prop where
  cast_self : ∀ T, C.cast T T = some id
  cast_unit : ∀ T, T ≠ C.unit → C.cast T C.unit = none

/-- What the body of a hook can refer to, apart from its arguments. -/
structure Scope (Val : Type) (m : Type → Type) where
  inherited : Option (List Val → m Val) := none
  retval : Option Val := none

/-- What a body returns, and what it leaves in `retval`. -/
structure Exit (Val : Type) where
  value : Val
  retval : Val

/-- A body with the return type that is declared, and the type of what it returns
where none is. -/
structure Code (Ty Val : Type) (m : Type → Type) where
  retType : Option Ty := none
  inferred : Ty
  run : Scope Val m → List Val → m (Exit Val)

/-- A function: its return type, and a call of it. -/
structure TerraFn (Ty Val : Type) (m : Type → Type) where
  type : Ty
  call : List Val → m Val

/-- What is refused. -/
inductive CompileError
  /-- a value is returned where another type is declared -/
  | badReturn
  /-- a stub is defined by a function of another type -/
  | otherType
  /-- what is hooked is not a function -/
  | notFunction
  /-- a name that is not defined -/
  | undefinedName (name : String)
  deriving DecidableEq, Repr

/-! ### Methods and hooks -/

section Override

variable [Monad m] (C : Casts Ty Val)

/-- The return type of what `mkterra` makes of a body that returns a value, and
how the value is returned. -/
def mkReturn (retType : Option Ty) (type : Ty) : Except CompileError (Ty × (Val → Val)) :=
  match retType with
  | none => .ok (type, id)
  | some T =>
      match C.cast type T with
      | some f => .ok (T, f)
      | none => .error .badReturn

/-- The type of what a body returns. -/
def Code.type (code : Code Ty Val m) : Ty := code.retType.getD code.inferred

/-- `compile_terra(ast)` -/
def compileTerra (ast : Ast Ty (Code Ty Val m)) : TerraFn Ty Val m where
  type := ast.body.type
  call args := Exit.value <$> ast.body.run {} args

/-- `compile_terra_override:over(ast, func)` -/
def compileOver (ast : Ast Ty (Code Ty Val m)) (func : TerraFn Ty Val m) :
    Except CompileError (TerraFn Ty Val m) := do
  let (type, cast) ← mkReturn C (some func.type) ast.body.type
  return {
    type := type
    call := fun args => do
      let e ← ast.body.run { inherited := some func.call } args
      return cast e.value }

/-- `compile_terra_override:before(ast, func)` -/
def compileBefore (ast : Ast Ty (Code Ty Val m)) (func : TerraFn Ty Val m) :
    Except CompileError (TerraFn Ty Val m) := do
  let (type, cast) ← mkReturn C ast.body.retType func.type
  return {
    type := type
    call := fun args => do
      let _ ← ast.body.run {} args
      let v ← func.call args
      return cast v }

variable [DecidableEq Ty]

/-- `compile_terra_override:after(ast, func)`; the last branch calls a function
that is local to the other branches. -/
def compileAfter (ast : Ast Ty (Code Ty Val m)) (func : TerraFn Ty Val m) :
    Except CompileError (TerraFn Ty Val m) :=
  if func.type = C.unit then
    .ok {
      type := func.type
      call := fun args => do
        let _ ← func.call args
        let _ ← ast.body.run {} args
        return C.nothing }
  else if ast.body.retType = none ∨ ast.body.retType = some C.unit then
    .ok {
      type := func.type
      call := fun args => do
        let retval ← func.call args
        let e ← ast.body.run { inherited := some func.call, retval := some retval } args
        return e.retval }
  else .error (.undefinedName "after_func")

/-- `compile_terra_override(ast, func)` -/
def compileTerraOverride (hook : Hook) (ast : Ast Ty (Code Ty Val m))
    (func : TerraFn Ty Val m) : Except CompileError (TerraFn Ty Val m) :=
  match hook with
  | .over => compileOver C ast func
  | .before => compileBefore C ast func
  | .after => compileAfter C ast func

/-! ### The methods with one signature -/

/-- `m.inherited`, which can be `true` instead of a function, and the definition
of the stub. -/
structure Cell (Ty Val : Type) (m : Type → Type) where
  inherited : Option (Option (TerraFn Ty Val m))
  definition : Option (TerraFn Ty Val m) := none

/-- `resetdefinition(stub, func, ast)` for a stub of a type. -/
def Cell.reset (cell : Cell Ty Val m) (stub : Ty) (func : TerraFn Ty Val m) :
    Except CompileError (Cell Ty Val m) :=
  if func.type = stub then .ok { cell with definition := some func } else .error .otherType

/-- The loop that compiles the methods and hooks, for one of them.  Where there is
a hook, `m.inherited` is not nil. -/
def Cell.compile (stub : Ty) (cell : Cell Ty Val m) (ast : Ast Ty (Code Ty Val m)) :
    Except CompileError (Cell Ty Val m) :=
  match ast.hook with
  | none =>
      let func := compileTerra ast
      if cell.inherited.isSome then .ok { cell with inherited := some (some func) }
      else cell.reset stub func
  | some hook =>
      match cell.inherited with
      | some (some inherited) => do
          let func ← compileTerraOverride C hook ast inherited
          let cell ← cell.reset stub func
          return { cell with inherited := some (some func) }
      | _ => .error .notFunction

/-- A method that is compiled. -/
structure Implementation (Ty Val : Type) (m : Type → Type) where
  isPrivate : Bool
  fn : TerraFn Ty Val m

/-- What `compile_methods` makes of the methods and hooks with a signature, over
what is inherited: the type of the stub is that of the inherited function or the
declared one. -/
def compileSig (super : Option (Implementation Ty Val m)) (asts : List (Ast Ty (Code Ty Val m))) :
    Except CompileError (Option (Implementation Ty Val m)) :=
  match asts with
  | [] => .ok super
  | ast :: _ => do
      let stub := match super with
        | some s => s.fn.type
        | none => ast.body.retType.getD C.unit
      let inherited := if asts.any (·.hook.isSome) then some (super.map (·.fn)) else none
      let cell ← asts.foldlM (Cell.compile C stub) { inherited := inherited }
      return cell.definition.map fun fn =>
        { isPrivate := super.isNone && ast.isPrivate, fn := fn }

/-- The methods with a signature in a chain of classes; private ones are not
inherited. -/
def compileSigs (sig : Sig Ty) :
    List (Decl Ty (Code Ty Val m)) → Except CompileError (Option (Implementation Ty Val m))
  | [] => .ok none
  | d :: ds => do
      let super ← compileSigs sig ds
      compileSig C (super.filter fun s => !s.isPrivate) (withSig (d.asts (!ds.isEmpty)) sig)

end Override

/-! ### Functions of a compiled class -/

section Functions

variable [Monad m] [DecidableEq Ty] (C : Casts Ty Val)

/-- What the functions of compiled classes are, where stubs have definitions. -/
inductive Denotes (definition : ℕ → Sig Ty → Option (Func Ty (Code Ty Val m))) :
    Func Ty (Code Ty Val m) → TerraFn Ty Val m → Prop
  | stub {level : ℕ} {sig : Sig Ty} {func : Func Ty (Code Ty Val m)} {fn : TerraFn Ty Val m}
      (hdefinition : definition level sig = some func) (h : Denotes definition func fn) :
      Denotes definition (.stub level sig) fn
  | compiled (ast : Ast Ty (Code Ty Val m)) : Denotes definition (.compiled ast) (compileTerra ast)
  | overridden {ast : Ast Ty (Code Ty Val m)} {hook : Hook} {func : Func Ty (Code Ty Val m)}
      {fn fn' : TerraFn Ty Val m} (hhook : ast.hook = some hook)
      (h : Denotes definition func fn) (hfn : compileTerraOverride C hook ast fn = .ok fn') :
      Denotes definition (.overridden ast func) fn'

/-- What a call of a method on an object of the class reaches. -/
def Class.target {Body : Type} (c : Class Ty Body) (m : Method Ty Body) :
    Option (Func Ty Body) :=
  match m.func with
  | some (.slot vidx) => c.vtable[vidx - 1]?
  | func => func

end Functions

end LuaAttic.Terra
