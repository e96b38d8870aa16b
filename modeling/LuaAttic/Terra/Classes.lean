import LuaAttic.Lua.Basic
import LuaAttic.Lua.Tables

/-!
# Classes (`oo.t`)

A class is compiled after its superclass.  Its methods are those that are
inherited and those of its definition; each public one has a slot in the table
of virtual functions.
-/

namespace LuaAttic.Terra

open LuaAttic.Lua

/-! ## Definitions -/

inductive Hook
  | before
  | after
  | over
  deriving DecidableEq, Repr

/-- What identifies a method: its name and the types of its arguments; a macro
has its name only. -/
structure Sig (Ty : Type) where
  name : String
  args : Option (List Ty)
  deriving DecidableEq, Repr

/-- A method or macro as it was parsed, with its types evaluated. -/
structure Ast (Ty Body : Type) where
  name : String
  argTypes : List Ty := []
  ismacro : Bool := false
  isPrivate : Bool := false
  hook : Option Hook := none
  body : Body

variable {Ty Body : Type}

/-- `type_method(ast)` -/
def Ast.sig (ast : Ast Ty Body) : Sig Ty :=
  ⟨ast.name, if ast.ismacro then none else some ast.argTypes⟩

/-- A class as it was parsed, the bodies of its initializer and finalizer, and
the order in which `pairs` visits methods while it is compiled. -/
structure Decl (Ty Body : Type) where
  methods : List (Ast Ty Body)
  initBody : Body
  freeBody : Body
  order : Order (Sig Ty)

/-- `ast.methods` once the fields are compiled. -/
def Decl.asts (d : Decl Ty Body) (hasSuper : Bool) : List (Ast Ty Body) :=
  { name := "free", hook := if hasSuper then some .before else none, body := d.freeBody } ::
  { name := "init", hook := if hasSuper then some .after else none, body := d.initBody } ::
  d.methods

/-! ## Functions -/

/-- The functions that methods refer to. -/
inductive Func (Ty Body : Type)
  /-- the stub of a method, made for the class with a level -/
  | stub (level : ℕ) (sig : Sig Ty)
  /-- `compile_terra(ast)` -/
  | compiled (ast : Ast Ty Body)
  /-- `compile_terra_override(ast, func)` -/
  | overridden (ast : Ast Ty Body) (func : Func Ty Body)
  /-- `compile_macro(ast)` -/
  | expanded (ast : Ast Ty Body)
  /-- a call of what is in a slot of the table of the object -/
  | slot (vidx : ℕ)

/-- A method of a class.  `inherited` can be `true` instead of a function. -/
structure Method (Ty Body : Type) where
  ast : Option (Ast Ty Body) := none
  isPrivate : Bool := false
  ismacro : Bool := false
  func : Option (Func Ty Body) := none
  vfunc : Option (Func Ty Body) := none
  inherited : Option (Option (Func Ty Body)) := none

/-- A class while it is compiled and after, with what the stubs of all classes
have been reset to. -/
structure Class (Ty Body : Type) where
  level : ℕ
  methods : Table (Sig Ty) (Method Ty Body) := .empty
  vtable : List (Func Ty Body) := []
  vindex : Sig Ty → Option ℕ := fun _ => none
  definition : ℕ → Sig Ty → Option (Func Ty Body) := fun _ _ => none

/-! ## Compiling methods -/

variable [DecidableEq Ty]

/-- What is inherited of a method that is not private. -/
def Method.inherit (m : Method Ty Body) : Method Ty Body :=
  { func := m.func, vfunc := m.vfunc, ismacro := m.ismacro }

/-- The loop that inherits the methods of a superclass, for one of them. -/
def Class.inheritMethod (s : Class Ty Body) (t : Table (Sig Ty) (Method Ty Body))
    (sig : Sig Ty) : Table (Sig Ty) (Method Ty Body) :=
  match s.methods.get sig with
  | some m => if m.isPrivate then t else t.set sig m.inherit
  | none => t

/-- The class with what it inherits; a class without superclass inherits
nothing. -/
def inheritFrom (super : Option (Class Ty Body)) (order : Order (Sig Ty)) :
    Class Ty Body :=
  match super with
  | none => { level := 0 }
  | some s =>
      { level := s.level + 1
        vtable := s.vtable
        vindex := s.vindex
        definition := s.definition
        methods := (order.apply s.methods.keys).foldl s.inheritMethod .empty }

/-- A new method, or a hook of one. -/
def declareMethod (m : Option (Method Ty Body)) (ast : Ast Ty Body) :
    Except Error (Method Ty Body) :=
  match m with
  | none =>
      if ast.hook.isSome then .error .assertionFailed
      else .ok { ast := some ast, isPrivate := ast.isPrivate, ismacro := ast.ismacro }
  | some m =>
      if ast.hook.isNone then .error .assertionFailed
      else if m.ast.isNone ∧ m.vfunc.isNone then .error .assertionFailed
      else .ok { m with inherited := some m.vfunc }

/-- The loop that adds new methods and hooks. -/
def declareMethods (asts : List (Ast Ty Body)) (t : Table (Sig Ty) (Method Ty Body)) :
    Except Error (Table (Sig Ty) (Method Ty Body)) :=
  asts.foldlM (fun t ast => do
    let m ← declareMethod (t.get ast.sig) ast
    return t.set ast.sig m) t

/-- The loop that makes stubs, for one method. -/
def Class.makeStub (c : Class Ty Body) (sig : Sig Ty) : Class Ty Body :=
  match c.methods.get sig with
  | none => c
  | some m =>
      if m.ismacro ∨ m.ast.isNone ∧ m.inherited.isNone then c
      else
        let stub := Func.stub c.level sig
        match c.vindex sig with
        | some vidx =>
            { c with
              methods := c.methods.set sig { m with vfunc := some stub }
              vtable := c.vtable.set (vidx - 1) stub }
        | none =>
            if m.isPrivate then
              { c with methods := c.methods.set sig { m with func := some stub } }
            else
              let vidx := c.vtable.length + 1
              { c with
                methods := c.methods.set sig
                  { m with vfunc := some stub, func := some (.slot vidx) }
                vindex := Function.update c.vindex sig (some vidx)
                vtable := c.vtable ++ [stub] }

/-- `stub:resetdefinition(func)` -/
def Class.resetDefinition (c : Class Ty Body) (stub : Option (Func Ty Body))
    (func : Func Ty Body) : Class Ty Body :=
  match stub with
  | some (.stub level sig) =>
      { c with definition := fun l s =>
          if l = level ∧ s = sig then some func else c.definition l s }
  | _ => c

/-- What a hook overrides: `m.inherited or m.vfunc`. -/
def Method.overridden (m : Method Ty Body) : Except Error (Func Ty Body) :=
  match m.inherited with
  | some inherited => nonNil .nilCall inherited
  | none => nonNil .nilCall m.vfunc

/-- The loop that compiles the methods and hooks, for one of them. -/
def Class.compileMethod (c : Class Ty Body) (ast : Ast Ty Body) :
    Except Error (Class Ty Body) := do
  let m ← nonNil .nilIndex (c.methods.get ast.sig)
  let stub := m.vfunc.or m.func
  if ast.ismacro then
    if ast.hook = none ∨ ast.hook = some .over then
      let func := Func.expanded ast
      return { c with methods := c.methods.set ast.sig { m with vfunc := func, func := func } }
    else .error .assertionFailed
  else
    match ast.hook with
    | none =>
        let func := Func.compiled ast
        if m.inherited.isSome then
          return { c with methods := c.methods.set ast.sig { m with inherited := some func } }
        else
          return c.resetDefinition stub func
    | some _ => do
        let func := Func.overridden ast (← m.overridden)
        let c := c.resetDefinition stub func
        return { c with methods := c.methods.set ast.sig { m with inherited := some func } }

/-- `compile_methods()` -/
def compileMethods (super : Option (Class Ty Body)) (d : Decl Ty Body) :
    Except Error (Class Ty Body) := do
  let asts := d.asts super.isSome
  let c := inheritFrom super d.order
  let methods ← declareMethods asts c.methods
  let c := { c with methods := methods }
  let c := (d.order.apply c.methods.keys).foldl Class.makeStub c
  asts.foldlM Class.compileMethod c

/-- A chain of classes, of which the first is the most derived. -/
def compileChain : List (Decl Ty Body) → Except Error (Option (Class Ty Body))
  | [] => .ok none
  | d :: ds => do
      let super ← compileChain ds
      let c ← compileMethods super d
      return some c

end LuaAttic.Terra
