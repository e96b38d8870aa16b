import LuaAttic.Terra.Chains

/-!
# Nested hooks

Each hook is a wrapper around all that was declared before it.  The classes are
accepted, and calls are such wrappers, where the declared return types let each
hook fit its method.
-/

namespace LuaAttic.Terra

open LuaAttic.Lua LuaAttic.Support

variable {Ty Val : Type} {m : Type → Type} [Monad m] [DecidableEq Ty]

/-! ## What is asked for -/

section Asked

variable (C : Casts Ty Val)

/-- A value is declared to be returned. -/
def Code.Returns (code : Code Ty Val m) : Prop :=
  code.retType ≠ none ∧ code.retType ≠ some C.unit

instance (code : Code Ty Val m) : Decidable (code.Returns C) := by
  unfold Code.Returns
  infer_instance

/-- A hook around a function: before it, after it, or in its place.  An after hook
replaces the result by the value that it returns; one that returns no value can
do so through `retval`. -/
def wrap (hook : Hook) (ast : Ast Ty (Code Ty Val m)) (inner : TerraFn Ty Val m) :
    TerraFn Ty Val m where
  type := inner.type
  call args :=
    match hook with
    | .before => do
        let _ ← ast.body.run {} args
        inner.call args
    | .over => do
        let e ← ast.body.run { inherited := some inner.call } args
        return ((C.cast ast.body.type inner.type).getD id) e.value
    | .after => do
        let r ← inner.call args
        if inner.type = C.unit then
          let _ ← ast.body.run {} args
          return C.nothing
        else
          let e ← ast.body.run { inherited := some inner.call, retval := some r } args
          return if ast.body.Returns C then e.value else e.retval

/-- One more definition or hook. -/
def nest (func : Option (TerraFn Ty Val m)) (ast : Ast Ty (Code Ty Val m)) :
    Option (TerraFn Ty Val m) :=
  match ast.hook with
  | none => some { compileTerra ast with type := ast.body.retType.getD C.unit }
  | some hook => func.map (wrap C hook ast)

/-- A hook fits a method with a return type: what it declares to return is what a
before hook has to pass on, what an over hook has to return, and nothing for an
after hook of a method that returns a value. -/
def Code.FitsHook (code : Code Ty Val m) (T : Ty) : Hook → Prop
  | .before => code.retType = none ∨ code.retType = some T
  | .over => (C.cast code.type T).isSome
  | .after => T = C.unit ∨ ¬ code.Returns C

/-- A method declares the value that it returns, and hooks fit. -/
def Fits (func : Option (TerraFn Ty Val m)) : List (Ast Ty (Code Ty Val m)) → Prop
  | [] => True
  | ast :: asts =>
      (match ast.hook with
        | none => ast.body.retType ≠ none ∨ ast.body.inferred = C.unit
        | some hook => ∀ fn ∈ func, ast.body.FitsHook C fn.type hook) ∧
      Fits (nest C func ast) asts

end Asked

/-! ## One hook -/

section Hooks

variable {C : Casts Ty Val} {fn fn' : TerraFn Ty Val m} {ast : Ast Ty (Code Ty Val m)}
  {hook : Hook} {asts : List (Ast Ty (Code Ty Val m))}

theorem eq_wrap_iff (hrun : compileTerraOverride C hook ast fn = .ok (wrap C hook ast fn))
    (hfits : ast.body.FitsHook C fn.type hook) :
    compileTerraOverride C hook ast fn = .ok fn' ∧ fn'.type = fn.type ↔
      ast.body.FitsHook C fn.type hook ∧ fn' = wrap C hook ast fn := by
  rw [hrun]
  constructor
  · rintro ⟨h, -⟩
    exact ⟨hfits, (Except.ok.inj h).symm⟩
  · rintro ⟨-, rfl⟩
    exact ⟨rfl, rfl⟩

theorem compileOver_eq_ok_iff :
    compileTerraOverride C .over ast fn = .ok fn' ∧ fn'.type = fn.type ↔
      ast.body.FitsHook C fn.type .over ∧ fn' = wrap C .over ast fn := by
  cases hcast : C.cast ast.body.type fn.type with
  | none => simp [compileTerraOverride, compileOver, mkReturn, hcast, Code.FitsHook]
  | some f =>
      refine eq_wrap_iff ?_ (by simp [Code.FitsHook, hcast])
      simp [compileTerraOverride, compileOver, mkReturn, hcast, wrap]

theorem compileBefore_eq_ok_iff [LawfulMonad m] (hC : C.Lawful) :
    compileTerraOverride C .before ast fn = .ok fn' ∧ fn'.type = fn.type ↔
      ast.body.FitsHook C fn.type .before ∧ fn' = wrap C .before ast fn := by
  cases hret : ast.body.retType with
  | none =>
      refine eq_wrap_iff ?_ (.inl hret)
      simp [compileTerraOverride, compileBefore, mkReturn, hret, wrap]
  | some T =>
      by_cases hT : T = fn.type
      · subst hT
        refine eq_wrap_iff ?_ (.inr hret)
        simp [compileTerraOverride, compileBefore, mkReturn, hret, wrap, hC.cast_self]
      · constructor
        · rintro ⟨hrun, htype⟩
          cases hcast : C.cast fn.type T with
          | none => simp [compileTerraOverride, compileBefore, mkReturn, hret, hcast] at hrun
          | some f =>
              simp [compileTerraOverride, compileBefore, mkReturn, hret, hcast] at hrun
              rw [← hrun] at htype
              exact absurd htype hT
        · rintro ⟨hfits | hfits, -⟩
          · rw [hret] at hfits
            cases hfits
          · exact absurd (Option.some.inj (hret.symm.trans hfits)) hT

theorem compileAfter_eq_ok_iff :
    compileTerraOverride C .after ast fn = .ok fn' ∧ fn'.type = fn.type ↔
      ast.body.FitsHook C fn.type .after ∧ fn' = wrap C .after ast fn := by
  by_cases hunit : fn.type = C.unit
  · refine eq_wrap_iff ?_ (.inl hunit)
    simp [compileTerraOverride, compileAfter, wrap, hunit]
  · by_cases hreturns : ast.body.Returns C
    · have hnot : ¬ (ast.body.retType = none ∨ ast.body.retType = some C.unit) :=
        not_or.mpr hreturns
      simp [compileTerraOverride, compileAfter, Code.FitsHook, hunit, hreturns, hnot]
    · have hnone : ast.body.retType = none ∨ ast.body.retType = some C.unit := by
        by_contra hnot
        exact hreturns (not_or.mp hnot)
      refine eq_wrap_iff ?_ (.inr hreturns)
      simp [compileTerraOverride, compileAfter, wrap, hunit, hreturns, hnone]

/-- A hook is compiled to a function of the same type exactly if it fits. -/
theorem compileTerraOverride_eq_ok_iff [LawfulMonad m] (hC : C.Lawful) (hook : Hook) :
    compileTerraOverride C hook ast fn = .ok fn' ∧ fn'.type = fn.type ↔
      ast.body.FitsHook C fn.type hook ∧ fn' = wrap C hook ast fn :=
  match hook with
  | .over => compileOver_eq_ok_iff
  | .before => compileBefore_eq_ok_iff hC
  | .after => compileAfter_eq_ok_iff

omit [DecidableEq Ty] in
theorem mkReturn_cases {retType : Option Ty} {type type' : Ty} {f : Val → Val}
    (h : mkReturn C retType type = .ok (type', f)) :
    (retType = none ∧ type' = type) ∨ retType = some type' ∧ C.cast type type' = some f := by
  unfold mkReturn at h
  cases retType with
  | none =>
      simp only [Except.ok.injEq, Prod.mk.injEq] at h
      exact .inl ⟨rfl, h.1.symm⟩
  | some T =>
      cases hcast : C.cast type T with
      | none => simp [hcast] at h
      | some g =>
          simp only [hcast, Except.ok.injEq, Prod.mk.injEq] at h
          obtain ⟨rfl, rfl⟩ := h
          exact .inr ⟨rfl, hcast⟩

/-- Only a function that returns nothing is wrapped in one that does. -/
theorem unit_of_compileTerraOverride (hC : C.Lawful)
    (h : compileTerraOverride C hook ast fn = .ok fn') (hunit : fn'.type = C.unit) :
    fn.type = C.unit := by
  by_contra hne
  cases hook with
  | «over» =>
      obtain ⟨⟨type, f⟩, hreturn, h⟩ := bind_eq_ok_iff.mp h
      obtain rfl := Except.ok.inj h
      rcases mkReturn_cases hreturn with ⟨hnone, -⟩ | ⟨hsome, -⟩
      · cases hnone
      · exact hne ((Option.some.inj hsome).trans hunit)
  | before =>
      obtain ⟨⟨type, f⟩, hreturn, h⟩ := bind_eq_ok_iff.mp h
      obtain rfl := Except.ok.inj h
      obtain rfl : type = C.unit := hunit
      rcases mkReturn_cases hreturn with ⟨-, htype⟩ | ⟨-, hcast⟩
      · exact hne htype.symm
      · rw [hC.cast_unit _ hne] at hcast
        cases hcast
  | after =>
      simp only [compileTerraOverride, compileAfter, if_neg hne] at h
      split at h
      · obtain rfl := Except.ok.inj h
        exact hne hunit
      · cases h

end Hooks

/-! ## The methods and hooks of a class -/

section Runs

variable {C : Casts Ty Val} {fn : TerraFn Ty Val m} {ast : Ast Ty (Code Ty Val m)}
  {asts : List (Ast Ty (Code Ty Val m))} {cell cell' : Cell Ty Val m} {stub : Ty}

omit [Monad m] in
theorem reset_eq_ok_iff {func : TerraFn Ty Val m} :
    cell.reset stub func = .ok cell' ↔
      func.type = stub ∧ cell' = { cell with definition := some func } := by
  unfold Cell.reset
  split_ifs with htype
  · simp [htype, eq_comm]
  · simp [htype]

/-- A hook of a function with the type of the stub. -/
theorem compile_hook_eq_ok_iff [LawfulMonad m] (hC : C.Lawful) {hook : Hook}
    (hhook : ast.hook = some hook) (hcell : cell.inherited = some (some fn))
    (htype : fn.type = stub) :
    cell.compile C stub ast = .ok cell' ↔ ast.body.FitsHook C fn.type hook ∧
      cell' = ⟨some (some (wrap C hook ast fn)), some (wrap C hook ast fn)⟩ := by
  subst htype
  simp only [Cell.compile, hhook, hcell]
  constructor
  · intro h
    obtain ⟨func, hfunc, h⟩ := bind_eq_ok_iff.mp h
    obtain ⟨cell₁, hreset, h⟩ := bind_eq_ok_iff.mp h
    obtain ⟨htype, rfl⟩ := reset_eq_ok_iff.mp hreset
    obtain ⟨hfits, rfl⟩ := (compileTerraOverride_eq_ok_iff hC hook).mp ⟨hfunc, htype⟩
    exact ⟨hfits, (Except.ok.inj h).symm⟩
  · rintro ⟨hfits, rfl⟩
    obtain ⟨hfunc, htype⟩ := (compileTerraOverride_eq_ok_iff hC hook).mpr ⟨hfits, rfl⟩
    have hreset : cell.reset fn.type (wrap C hook ast fn) =
        .ok { cell with definition := some (wrap C hook ast fn) } :=
      reset_eq_ok_iff.mpr ⟨htype, rfl⟩
    exact bind_eq_ok_iff.mpr ⟨_, hfunc, bind_eq_ok_iff.mpr ⟨_, hreset, rfl⟩⟩

/-- Hooks of a function with the type of the stub. -/
theorem compile_hooks_eq_ok_iff [LawfulMonad m] (hC : C.Lawful)
    (hall : ∀ a ∈ asts, a.hook ≠ none) (hcell : cell.inherited = some (some fn))
    (htype : fn.type = stub) :
    asts.foldlM (Cell.compile C stub) cell = .ok cell' ↔ Fits C (some fn) asts ∧
      ∃ fn', asts.foldl (nest C) (some fn) = some fn' ∧
        cell' = ⟨some (some fn'), if asts = [] then cell.definition else some fn'⟩ := by
  induction asts generalizing cell fn with
  | nil =>
      constructor
      · intro h
        obtain rfl := Except.ok.inj h
        refine ⟨trivial, fn, rfl, ?_⟩
        rw [← hcell]
        rfl
      · rintro ⟨-, fn', hfn', rfl⟩
        obtain rfl := Option.some.inj hfn'
        rw [← hcell]
        rfl
  | cons a asts ih =>
      obtain ⟨hook, hhook⟩ := Option.ne_none_iff_exists'.mp (hall a List.mem_cons_self)
      have hnest : nest C (some fn) a = some (wrap C hook a fn) := by
        simp [nest, hhook]
      have hrest : asts.foldlM (Cell.compile C stub)
          ⟨some (some (wrap C hook a fn)), some (wrap C hook a fn)⟩ = .ok cell' ↔ _ :=
        ih (fun b hb => hall b (List.mem_cons_of_mem a hb)) rfl htype
      have hlast : ∀ fn', asts.foldl (nest C) (some (wrap C hook a fn)) = some fn' →
          (if asts = [] then some (wrap C hook a fn) else some fn') = some fn' := by
        intro fn' hfn'
        split_ifs with hnil
        · subst hnil
          exact hfn'
        · rfl
      have hfits : Fits C (some fn) (a :: asts) ↔
          a.body.FitsHook C fn.type hook ∧ Fits C (some (wrap C hook a fn)) asts := by
        simp [Fits, hhook, hnest]
      rw [List.foldlM_cons, hfits, List.foldl_cons, hnest]
      simp only [if_neg (List.cons_ne_nil a asts)]
      constructor
      · intro h
        obtain ⟨cell₁, hstep, h⟩ := bind_eq_ok_iff.mp h
        obtain ⟨hhead, rfl⟩ := (compile_hook_eq_ok_iff hC hhook hcell htype).mp hstep
        obtain ⟨htail, fn', hfn', rfl⟩ := hrest.mp h
        exact ⟨⟨hhead, htail⟩, fn', hfn', by rw [hlast fn' hfn']⟩
      · rintro ⟨⟨hhead, htail⟩, fn', hfn', rfl⟩
        have hstep := (compile_hook_eq_ok_iff hC hhook hcell htype).mpr ⟨hhead, rfl⟩
        refine bind_eq_ok_iff.mpr ⟨_, hstep, hrest.mpr ⟨htail, fn', hfn', ?_⟩⟩
        rw [hlast fn' hfn']

/-- Hooks of a function that returns a value are no definition of a stub that
returns nothing. -/
theorem compile_hooks_ne_ok (hC : C.Lawful) (hall : ∀ a ∈ asts, a.hook ≠ none)
    (hne : asts ≠ []) (hcell : cell.inherited = some (some fn)) (htype : fn.type ≠ C.unit) :
    asts.foldlM (Cell.compile C C.unit) cell ≠ .ok cell' := by
  cases asts with
  | nil => exact absurd rfl hne
  | cons a asts =>
      obtain ⟨hook, hhook⟩ := Option.ne_none_iff_exists'.mp (hall a List.mem_cons_self)
      intro h
      obtain ⟨cell₁, hstep, -⟩ := bind_eq_ok_iff.mp h
      simp only [Cell.compile, hhook, hcell] at hstep
      obtain ⟨func, hfunc, hstep⟩ := bind_eq_ok_iff.mp hstep
      obtain ⟨_, hreset, -⟩ := bind_eq_ok_iff.mp hstep
      exact htype (unit_of_compileTerraOverride hC hfunc (reset_eq_ok_iff.mp hreset).1)

omit [DecidableEq Ty] in
/-- The type of the stub is that of the method. -/
theorem type_compileTerra_iff :
    (compileTerra ast).type = ast.body.retType.getD C.unit ↔
      ast.body.retType ≠ none ∨ ast.body.inferred = C.unit := by
  cases hret : ast.body.retType <;> simp [compileTerra, Code.type, hret]

theorem nest_new (hhook : ast.hook = none) (func : Option (TerraFn Ty Val m))
    (htype : (compileTerra ast).type = ast.body.retType.getD C.unit) :
    nest C func ast = some (compileTerra ast) := by
  simp only [nest, hhook, ← htype]

theorem compileSig_cons_iff {super impl : Option (Implementation Ty Val m)} :
    compileSig C super (ast :: asts) = .ok impl ↔
      ∃ cell, (ast :: asts).foldlM
          (Cell.compile C (super.elim (ast.body.retType.getD C.unit) (·.fn.type)))
          { inherited := if (ast :: asts).any (·.hook.isSome) then some (super.map (·.fn))
            else none } = .ok cell ∧
        impl = cell.definition.map fun fn => ⟨super.isNone && ast.isPrivate, fn⟩ := by
  have hrun : compileSig C super (ast :: asts) = (do
      let cell ← (ast :: asts).foldlM
        (Cell.compile C (super.elim (ast.body.retType.getD C.unit) (·.fn.type)))
        { inherited := if (ast :: asts).any (·.hook.isSome) then some (super.map (·.fn))
          else none }
      return cell.definition.map fun fn => ⟨super.isNone && ast.isPrivate, fn⟩) := by
    cases super <;> rfl
  rw [hrun, bind_eq_ok_iff]
  refine exists_congr fun cell => and_congr_right fun _ => ?_
  exact ⟨fun h => (Except.ok.inj h).symm, fun h => congrArg Except.ok h.symm⟩

/-- A method with its hooks. -/
theorem compileSig_new_iff [LawfulMonad m] (hC : C.Lawful) {hs : List (Ast Ty (Code Ty Val m))}
    (hhook : ast.hook = none) (hall : ∀ a ∈ hs, a.hook ≠ none)
    {impl : Option (Implementation Ty Val m)} :
    compileSig C none (ast :: hs) = .ok impl ↔ Fits C none (ast :: hs) ∧
      ∃ fn, (ast :: hs).foldl (nest C) none = some fn ∧ impl = some ⟨ast.isPrivate, fn⟩ := by
  have hfits : Fits C none (ast :: hs) ↔
      (compileTerra ast).type = ast.body.retType.getD C.unit ∧
        Fits C (nest C none ast) hs := by
    simp only [Fits, hhook, type_compileTerra_iff]
  rw [hfits, List.foldl_cons]
  cases hs with
  | nil =>
      by_cases htype : (compileTerra ast).type = ast.body.retType.getD C.unit
      · rw [nest_new hhook none htype]
        simp [compileSig, Cell.compile, hhook, Cell.reset, htype, Fits, eq_comm]
      · simp [compileSig, Cell.compile, hhook, Cell.reset, htype]
  | cons b hs =>
      have hstep : ∀ stub, Cell.compile C stub { inherited := some none } ast =
          .ok { inherited := some (some (compileTerra ast)) } := by
        intro stub
        simp [Cell.compile, hhook]
      have hany : (ast :: b :: hs).any (·.hook.isSome) = true := by
        simp [Option.isSome_iff_ne_none.mpr (hall b List.mem_cons_self)]
      rw [compileSig_cons_iff, hany, if_pos rfl, List.foldlM_cons]
      simp only [Option.map_none, Option.elim_none, hstep, ok_bind]
      by_cases htype : (compileTerra ast).type = ast.body.retType.getD C.unit
      · rw [nest_new hhook none htype]
        constructor
        · rintro ⟨cell', hcell', rfl⟩
          obtain ⟨hrest, fn', hfn', rfl⟩ :=
            (compile_hooks_eq_ok_iff hC hall rfl htype).mp hcell'
          exact ⟨⟨htype, hrest⟩, fn', hfn', rfl⟩
        · rintro ⟨⟨-, hrest⟩, fn', hfn', rfl⟩
          exact ⟨_, (compile_hooks_eq_ok_iff hC hall rfl htype).mpr ⟨hrest, fn', hfn', rfl⟩, rfl⟩
      · have hnone : ast.body.retType = none := by
          by_contra hsome
          exact htype (type_compileTerra_iff.mpr (.inl hsome))
        have hne : (compileTerra ast).type ≠ C.unit := by simpa [hnone] using htype
        simp only [hnone, Option.getD_none]
        constructor
        · rintro ⟨cell', hcell', -⟩
          exact absurd hcell' (compile_hooks_ne_ok hC hall (List.cons_ne_nil b hs) rfl hne)
        · rintro ⟨⟨hunit, -⟩, -⟩
          exact absurd hunit hne

/-- Hooks of a method that is inherited. -/
theorem compileSig_hooks_iff [LawfulMonad m] (hC : C.Lawful)
    (hall : ∀ a ∈ asts, a.hook ≠ none) {impl : Option (Implementation Ty Val m)} :
    compileSig C (some ⟨false, fn⟩) asts = .ok impl ↔ Fits C (some fn) asts ∧
      ∃ fn', asts.foldl (nest C) (some fn) = some fn' ∧ impl = some ⟨false, fn'⟩ := by
  cases asts with
  | nil => simp [compileSig, Fits, eq_comm]
  | cons a asts =>
      have hany : (a :: asts).any (·.hook.isSome) = true := by
        simp [Option.isSome_iff_ne_none.mpr (hall a List.mem_cons_self)]
      rw [compileSig_cons_iff, hany, if_pos rfl]
      simp only [Option.map_some, Option.elim_some]
      constructor
      · rintro ⟨cell', hcell', rfl⟩
        obtain ⟨hfits, fn', hfn', rfl⟩ := (compile_hooks_eq_ok_iff hC hall rfl rfl).mp hcell'
        exact ⟨hfits, fn', hfn', rfl⟩
      · rintro ⟨hfits, fn', hfn', rfl⟩
        exact ⟨_, (compile_hooks_eq_ok_iff hC hall rfl rfl).mpr ⟨hfits, fn', hfn', rfl⟩, rfl⟩

end Runs

/-! ## The functions of a class -/

section Inversion

variable {Ty Body : Type} [DecidableEq Ty] {super : Option (Class Ty Body)} {d : Decl Ty Body}
  {c : Class Ty Body} {sig : Sig Ty}

omit [DecidableEq Ty] in
theorem target_of_slot {m : Method Ty Body} {i : ℕ} (h : m.func = some (.slot i)) :
    c.target m = c.vtable[i - 1]? := by
  simp [Class.target, h]

omit [DecidableEq Ty] in
/-- A public method has a slot, and the function in it. -/
theorem slot_of_public {m : Method Ty Body} (hlayout : c.Layout) (hm : c.methods.get sig = some m)
    (hpublic : m.isPrivate = false) (hnot : m.ismacro = false) :
    ∃ i f, c.vindex sig = some i ∧ c.vtable[i - 1]? = some f ∧ c.target m = some f ∧
      m.vfunc = some f := by
  have hsome := (hlayout.vindex_iff sig).mpr ⟨m, hm, hpublic, hnot⟩
  obtain ⟨i, hi⟩ := Option.isSome_iff_exists.mp hsome
  obtain ⟨hfunc, hvfunc⟩ := hlayout.methods sig i m hi hm
  obtain ⟨h1, hn⟩ := hlayout.slots.range sig i hi
  obtain ⟨f, hslot⟩ : ∃ f, c.vtable[i - 1]? = some f :=
    ⟨_, List.getElem?_eq_getElem (by omega)⟩
  exact ⟨i, f, hi, hslot, (target_of_slot hfunc).trans hslot, hvfunc.trans hslot⟩

/-- What is called is the stub, for a method with a declaration. -/
theorem target_of_declared {asts : List (Ast Ty Body)} {m : Method Ty Body}
    (hbuilt : c.Built super asts) (hm : c.methods.get sig = some m) (hnot : m.ismacro = false)
    (hne : withSig asts sig ≠ []) : c.target m = some (.stub c.level sig) := by
  cases hpriv : m.isPrivate with
  | true => rw [Class.target, (hbuilt.static sig m hm hpriv hnot).1]
  | false =>
      obtain ⟨i, f, hi, hslot, htarget, -⟩ := slot_of_public hbuilt.layout hm hpriv hnot
      rw [htarget, ← hslot]
      exact (hbuilt.defined sig i hi hne).1

/-- What is called is what the superclass calls, for a method without declarations. -/
theorem target_of_inherited {asts : List (Ast Ty Body)} {s : Class Ty Body} {i : ℕ}
    {m : Method Ty Body} (hbuilt : c.Built (some s) asts) (hi : s.vindex sig = some i)
    (hm : c.methods.get sig = some m) (hnil : withSig asts sig = []) :
    c.target m = s.vtable[i - 1]? := by
  have hi' := hbuilt.extended s rfl sig i hi
  obtain ⟨s', hs', hi₀, hsame⟩ := hbuilt.inherited sig i hi' hnil
  obtain rfl := Option.some.inj hs'
  rw [target_of_slot (hbuilt.layout.methods sig i m hi' hm).1, hsame]

/-- A method that a class does not have is neither declared nor inherited. -/
theorem compileMethods_missing (hsuper : ∀ s, super = some s → s.Layout)
    (h : compileMethods super d = .ok c) (hnone : c.methods.get sig = none) :
    withSig (d.asts super.isSome) sig = [] ∧
      (inheritFrom super d.order).methods.get sig = none := by
  obtain ⟨t, c₂, ht, h₁, hstub, hall, hframe, hcell⟩ := exists_staged hsuper h
  have ht₀ : t.get sig = none := by
    cases ht₀ : t.get sig with
    | none => rfl
    | some m =>
        obtain ⟨_, m', -, hm', -⟩ := exists_compiled hstub hall hframe ht₀
        rw [hnone] at hm'
        cases hm'
  have hdeclared := get_declareMethods ht sig
  rw [ht₀] at hdeclared
  rcases declare_cases hdeclared with ⟨hv, hl, -⟩ | ⟨_, _, -, -, -, -, hsome⟩ | ⟨_, -, -, hsome⟩
  · exact ⟨hl, hv⟩
  · cases hsome
  · cases hsome

/-- What a class makes of a method that it has, and of the stub. -/
theorem compileMethods_method (hsuper : ∀ s, super = some s → s.Layout)
    (h : compileMethods super d = .ok c) (hargs : sig.args.isSome) {m : Method Ty Body}
    (hm : c.methods.get sig = some m) :
    (∃ a hs, withSig (d.asts super.isSome) sig = a :: hs ∧ a.hook = none ∧
      (∀ b ∈ hs, b.hook ≠ none) ∧ (inheritFrom super d.order).methods.get sig = none ∧
      m.isPrivate = a.isPrivate ∧ c.target m = some (.stub c.level sig) ∧
      c.definition c.level sig = layers none (a :: hs)) ∨
    ∃ s m₀ f, super = some s ∧ s.methods.get sig = some m₀ ∧ m₀.isPrivate = false ∧
      m.isPrivate = false ∧ (∀ b ∈ withSig (d.asts super.isSome) sig, b.hook ≠ none) ∧
      s.target m₀ = some f ∧
      (withSig (d.asts super.isSome) sig = [] → c.target m = some f) ∧
      (withSig (d.asts super.isSome) sig ≠ [] → c.target m = some (.stub c.level sig) ∧
        c.definition c.level sig = layers (some f) (withSig (d.asts super.isSome) sig)) := by
  have hbuilt := compileMethods_built hsuper h
  obtain ⟨t, c₂, ht, h₁, hstub, hall, hframe, hcell⟩ := exists_staged hsuper h
  obtain ⟨m₂, hm₂, hkept⟩ := hframe.exists_of_some' hm
  obtain ⟨m₁, hm₁, -, hprivate, hmacro, hinherited, -⟩ := hstub.exists_declared hall hm₂
  have hnot : m.ismacro = false := by
    rw [hbuilt.layout.macros sig m hm]
    simpa using hargs
  have hprivate : m.isPrivate = m₁.isPrivate := hkept.isPrivate.trans hprivate
  obtain ⟨inherited, definition, hrun, rfl⟩ : ∃ inherited definition,
      c.cell sig = (withSig (d.asts super.isSome) sig).foldl (cellStep m₂.vfunc)
        (inherited, definition) ∧ inherited = m₁.inherited :=
    ⟨_, _, hcell sig m₂ hargs hm₂, by simp [hm₂, hinherited]⟩
  have hdefinition : c.definition c.level sig = (c.cell sig).2 := rfl
  rw [hdefinition, hrun]
  rcases declared_cases ht hm₁ with ⟨a, hs, hl, ha, hhs, hnone, rfl⟩ |
    ⟨s, m₀, rfl, hm₀, hpublic, hhooks, rfl⟩
  · refine .inl ⟨a, hs, hl, ha, hhs, hnone, hprivate,
      target_of_declared hbuilt hm hnot (by simp [hl]), ?_⟩
    rw [hl, cells_of_new ha hhs]
  · have hlayout := hsuper s rfl
    have hnot₀ : m₀.ismacro = false := by
      rw [hlayout.macros sig m₀ hm₀]
      simpa using hargs
    obtain ⟨i, f, hi, hslot, htarget, hvfunc⟩ := slot_of_public hlayout hm₀ hpublic hnot₀
    refine .inr ⟨s, m₀, f, rfl, hm₀, hpublic, hprivate.trans rfl, hhooks, htarget, fun hnil => ?_,
      fun hne => ⟨target_of_declared hbuilt hm hnot hne, ?_⟩⟩
    · rw [target_of_inherited hbuilt hi hm hnil, hslot]
    · simp only [if_neg hne]
      rw [cells_of_hooks hne hhooks, hvfunc]

end Inversion

/-! ## Chains -/

section Compositions

variable {C : Casts Ty Val} {sig : Sig Ty} {asts l : List (Ast Ty (Code Ty Val m))}
  {func : Option (TerraFn Ty Val m)} {fn : TerraFn Ty Val m}
  {impl : Option (Implementation Ty Val m)} {super : Option (Class Ty (Code Ty Val m))}

theorem fits_append : Fits C func (asts ++ l) ↔
    Fits C func asts ∧ Fits C (asts.foldl (nest C) func) l := by
  induction asts generalizing func with
  | nil => simp [Fits]
  | cons a asts ih => simp only [List.cons_append, Fits, ih, List.foldl_cons, and_assoc]

/-- A definition does not depend on what was there. -/
theorem fits_new {ast : Ast Ty (Code Ty Val m)} (hhook : ast.hook = none) :
    Fits C func (ast :: l) ↔ Fits C none (ast :: l) := by
  simp [Fits, nest, hhook]

theorem foldl_nest_new {ast : Ast Ty (Code Ty Val m)} (hhook : ast.hook = none) :
    (ast :: l).foldl (nest C) func = (ast :: l).foldl (nest C) none := by
  simp [nest, hhook]

theorem exists_foldl_nest (hall : ∀ a ∈ l, a.hook ≠ none) (fn : TerraFn Ty Val m) :
    ∃ fn', l.foldl (nest C) (some fn) = some fn' := by
  induction l generalizing fn with
  | nil => exact ⟨fn, rfl⟩
  | cons a l ih =>
      obtain ⟨hook, hhook⟩ := Option.ne_none_iff_exists'.mp (hall a List.mem_cons_self)
      rw [List.foldl_cons, nest, hhook]
      exact ih (fun b hb => hall b (List.mem_cons_of_mem a hb)) _

/-- A function of a class is one function. -/
theorem Denotes.unique {definition : ℕ → Sig Ty → Option (Func Ty (Code Ty Val m))}
    {f : Func Ty (Code Ty Val m)} {fn' : TerraFn Ty Val m} (h : Denotes C definition f fn)
    (h' : Denotes C definition f fn') : fn' = fn := by
  induction h generalizing fn' with
  | stub hdefinition _ ih =>
      cases h' with
      | stub hdefinition' h' =>
          obtain rfl := Option.some.inj (hdefinition.symm.trans hdefinition')
          exact ih h'
  | compiled ast =>
      cases h' with
      | compiled => rfl
  | overridden hhook _ hfn ih =>
      cases h' with
      | overridden hhook' h' hfn' =>
          obtain rfl := Option.some.inj (hhook.symm.trans hhook')
          obtain rfl := ih h'
          exact Except.ok.inj (hfn'.symm.trans hfn)

/-- The layers of a method are the nested hooks. -/
theorem denotes_layers [LawfulMonad m] (hC : C.Lawful)
    {definition : ℕ → Sig Ty → Option (Func Ty (Code Ty Val m))}
    {f g : Func Ty (Code Ty Val m)} {fn' : TerraFn Ty Val m} (hall : ∀ a ∈ l, a.hook ≠ none)
    (hf : Denotes C definition f fn) (hfits : Fits C (some fn) l)
    (hnest : l.foldl (nest C) (some fn) = some fn') (hlayers : layers (some f) l = some g) :
    Denotes C definition g fn' := by
  induction l generalizing f fn with
  | nil =>
      obtain rfl := Option.some.inj hnest
      obtain rfl := Option.some.inj hlayers
      exact hf
  | cons a l ih =>
      obtain ⟨hook, hhook⟩ := Option.ne_none_iff_exists'.mp (hall a List.mem_cons_self)
      simp only [Fits, hhook, nest, Option.mem_some_iff, forall_eq', Option.map_some] at hfits
      have hstep : layers (some f) (a :: l) = layers (some (.overridden a f)) l := by
        simp [layers, hhook]
      have hwrap := (compileTerraOverride_eq_ok_iff hC hook).mpr ⟨hfits.1, rfl⟩
      refine ih (fun b hb => hall b (List.mem_cons_of_mem a hb)) (.overridden hhook hf hwrap.1)
        hfits.2 ?_ (hstep.symm.trans hlayers)
      rw [← hnest, List.foldl_cons, nest, hhook]
      rfl

/-- A stub that is defined by the layers is the nested hooks. -/
theorem denotes_stub [LawfulMonad m] (hC : C.Lawful)
    {definition : ℕ → Sig Ty → Option (Func Ty (Code Ty Val m))} {level : ℕ}
    {f : Func Ty (Code Ty Val m)} {fn' : TerraFn Ty Val m} (hall : ∀ a ∈ l, a.hook ≠ none)
    (hf : Denotes C definition f fn) (hfits : Fits C (some fn) l)
    (hnest : l.foldl (nest C) (some fn) = some fn')
    (hstub : definition level sig = layers (some f) l) :
    Denotes C definition (.stub level sig) fn' := by
  have hsome : (layers (some f) l).isSome := layers_isSome rfl
  obtain ⟨g, hg⟩ := Option.isSome_iff_exists.mp hsome
  exact .stub (hstub.trans hg) (denotes_layers hC hall hf hfits hnest hg)

/-- What is compiled for the methods and hooks with a signature is what the class
has. -/
structure Composed (C : Casts Ty Val) (sig : Sig Ty) (asts : List (Ast Ty (Code Ty Val m)))
    (o : Option (Class Ty (Code Ty Val m))) (impl : Option (Implementation Ty Val m)) :
    Prop where
  missing : o.bind (·.methods.get sig) = none → impl = none
  method : ∀ c mth, o = some c → c.methods.get sig = some mth →
    ∃ fn f, impl = some ⟨mth.isPrivate, fn⟩ ∧ asts.foldl (nest C) none = some fn ∧
      c.target mth = some f ∧
      ∀ definition, (∀ level ≤ c.level, ∀ s, definition level s = c.definition level s) →
        Denotes C definition f fn

theorem composed_of_get {c : Class Ty (Code Ty Val m)} {mth : Method Ty (Code Ty Val m)}
    {f : Func Ty (Code Ty Val m)} (hget : c.methods.get sig = some mth)
    (hnest : asts.foldl (nest C) none = some fn) (htarget : c.target mth = some f)
    (hdenotes : ∀ definition,
      (∀ level ≤ c.level, ∀ s, definition level s = c.definition level s) →
        Denotes C definition f fn) :
    Composed C sig asts (some c) (some ⟨mth.isPrivate, fn⟩) where
  missing hmissing := by
    rw [Option.bind_some, hget] at hmissing
    cases hmissing
  method c' mth' hc' hmth' := by
    obtain rfl := Option.some.inj hc'
    obtain rfl := Option.some.inj (hget.symm.trans hmth')
    exact ⟨fn, f, rfl, hnest, htarget, hdenotes⟩

theorem Composed.filter_eq_none (h : Composed C sig asts super impl) {order : Order (Sig Ty)}
    (hnone : (inheritFrom super order).methods.get sig = none) :
    impl.filter (fun s => !s.isPrivate) = none := by
  cases hget : super.bind (·.methods.get sig) with
  | none => rw [h.missing hget, Option.filter_none]
  | some mth =>
      obtain ⟨s, rfl, hs⟩ := Option.bind_eq_some_iff.mp hget
      obtain ⟨fn, -, himpl, -⟩ := h.method s mth rfl hs
      have hprivate : mth.isPrivate = true := by
        by_contra hpublic
        simp [get_inheritFrom, hs, hpublic] at hnone
      rw [himpl]
      simp [hprivate]

section Step

variable {c : Class Ty (Code Ty Val m)} {mth : Method Ty (Code Ty Val m)}

/-- One implementation is compiled, or none. -/
theorem composed_of_iff (compiled : Implementation Ty Val m)
    {x : Except CompileError (Option (Implementation Ty Val m))} {p : Prop}
    (hx : ∀ impl', x = .ok impl' ↔ p ∧ impl' = some compiled)
    (hcomposed : p → Composed C sig asts (some c) (some compiled)) :
    ((∃ impl', x = .ok impl') ↔ p) ∧
      ∀ impl', x = .ok impl' → Composed C sig asts (some c) impl' := by
  refine ⟨⟨?_, fun hp => ⟨_, (hx _).mpr ⟨hp, rfl⟩⟩⟩, fun impl' himpl' => ?_⟩
  · rintro ⟨impl', himpl'⟩
    exact ((hx impl').mp himpl').1
  · obtain ⟨hp, rfl⟩ := (hx impl').mp himpl'
    exact hcomposed hp

/-- A method that is declared anew, with its hooks. -/
theorem composed_new [LawfulMonad m] (hC : C.Lawful) (hget : c.methods.get sig = some mth)
    {a : Ast Ty (Code Ty Val m)} (ha : a.hook = none) (hall : ∀ b ∈ l, b.hook ≠ none)
    (hprivate : mth.isPrivate = a.isPrivate) (htarget : c.target mth = some (.stub c.level sig))
    (hdefinition : c.definition c.level sig = layers none (a :: l)) :
    ((∃ impl', compileSig C none (a :: l) = .ok impl') ↔ Fits C none (a :: l)) ∧
      ∀ impl', compileSig C none (a :: l) = .ok impl' →
        Composed C sig (asts ++ a :: l) (some c) impl' := by
  obtain ⟨fn, hfn⟩ : ∃ fn, (a :: l).foldl (nest C) none = some fn := by
    rw [List.foldl_cons, nest, ha]
    exact exists_foldl_nest hall _
  refine composed_of_iff ⟨mth.isPrivate, fn⟩ (fun impl' => ?_) fun hnew => ?_
  · rw [compileSig_new_iff hC ha hall, hfn, hprivate]
    simp
  · refine composed_of_get hget ?_ htarget fun definition hsame => ?_
    · rw [List.foldl_append, foldl_nest_new ha, hfn]
    · have hlayers : layers none (a :: l) = layers (some (.compiled a)) l := by
        simp [layers, ha]
      simp only [Fits, ha, ← type_compileTerra_iff] at hnew
      rw [nest_new ha none hnew.1] at hnew
      rw [List.foldl_cons, nest_new ha none hnew.1] at hfn
      refine denotes_stub hC hall (.compiled a) hnew.2 hfn ?_
      rw [hsame _ le_rfl, hdefinition, hlayers]

/-- Hooks of a method that is inherited. -/
theorem composed_hooks [LawfulMonad m] (hC : C.Lawful) (hget : c.methods.get sig = some mth)
    (hpublic : mth.isPrivate = false) (hall : ∀ b ∈ l, b.hook ≠ none)
    {f : Func Ty (Code Ty Val m)} (hnest : asts.foldl (nest C) none = some fn)
    (hf : ∀ definition, (∀ level ≤ c.level, ∀ s, definition level s = c.definition level s) →
      Denotes C definition f fn)
    (hnil : l = [] → c.target mth = some f)
    (hcons : l ≠ [] → c.target mth = some (.stub c.level sig) ∧
      c.definition c.level sig = layers (some f) l) :
    ((∃ impl', compileSig C (some ⟨false, fn⟩) l = .ok impl') ↔ Fits C (some fn) l) ∧
      ∀ impl', compileSig C (some ⟨false, fn⟩) l = .ok impl' →
        Composed C sig (asts ++ l) (some c) impl' := by
  obtain ⟨fn', hfn'⟩ := exists_foldl_nest (C := C) hall fn
  have hnest' : (asts ++ l).foldl (nest C) none = some fn' := by
    rw [List.foldl_append, hnest, hfn']
  refine composed_of_iff ⟨mth.isPrivate, fn'⟩ (fun impl' => ?_) fun hnew => ?_
  · rw [compileSig_hooks_iff hC hall, hfn', hpublic]
    simp
  · by_cases hempty : l = []
    · subst hempty
      obtain rfl := Option.some.inj hfn'
      exact composed_of_get hget hnest' (hnil rfl) hf
    · obtain ⟨htarget, hdefinition⟩ := hcons hempty
      refine composed_of_get hget hnest' htarget fun definition hsame => ?_
      refine denotes_stub hC hall (hf definition hsame) hnew hfn' ?_
      rw [hsame _ le_rfl, hdefinition]

end Step

/-- One more class. -/
theorem Composed.compileSig_iff [LawfulMonad m] (hC : C.Lawful) (hargs : sig.args.isSome)
    (h : Composed C sig asts super impl) (hfits : Fits C none asts)
    (hsuper : ∀ s, super = some s → s.Layout) {d : Decl Ty (Code Ty Val m)}
    {c : Class Ty (Code Ty Val m)} (hc : compileMethods super d = .ok c)
    (hl : withSig (d.asts super.isSome) sig = l) :
    ((∃ impl', compileSig C (impl.filter fun s => !s.isPrivate) l = .ok impl') ↔
      Fits C none (asts ++ l)) ∧
    ∀ impl', compileSig C (impl.filter fun s => !s.isPrivate) l = .ok impl' →
      Composed C sig (asts ++ l) (some c) impl' := by
  subst hl
  rw [fits_append, and_iff_right hfits]
  cases hget : c.methods.get sig with
  | none =>
      obtain ⟨hl, hnone⟩ := compileMethods_missing hsuper hc hget
      rw [hl, h.filter_eq_none hnone, List.append_nil]
      refine ⟨⟨fun _ => trivial, fun _ => ⟨none, rfl⟩⟩, fun impl' himpl' => ?_⟩
      obtain rfl := Except.ok.inj himpl'
      refine ⟨fun _ => rfl, fun c' mth hc' hmth => ?_⟩
      obtain rfl := Option.some.inj hc'
      rw [hget] at hmth
      cases hmth
  | some mth =>
      rcases compileMethods_method hsuper hc hargs hget with
        ⟨a, hs, hl, ha, hhs, hnone, hprivate, htarget, hdefinition⟩ |
        ⟨s, m₀, f, rfl, hm₀, hpublic₀, hpublic, hhooks, hf, hnil, hcons⟩
      · rw [hl, h.filter_eq_none hnone, fits_new ha]
        exact composed_new hC hget ha hhs hprivate htarget hdefinition
      · obtain ⟨fn₀, f₀, himpl, hnest₀, hf₀, hdenotes⟩ := h.method s m₀ rfl hm₀
        obtain rfl := Option.some.inj (hf.symm.trans hf₀)
        have hfilter : impl.filter (fun s => !s.isPrivate) = some ⟨false, fn₀⟩ := by
          rw [himpl, hpublic₀]
          rfl
        have hbuilt := compileMethods_built hsuper hc
        have hlevel : c.level = s.level + 1 := hbuilt.level
        rw [hfilter, hnest₀]
        refine composed_hooks hC hget hpublic hhooks hnest₀ (fun definition hsame => ?_) hnil hcons
        refine hdenotes definition fun level hle s' => ?_
        have hc' := hbuilt.lower s rfl level s' (by omega)
        exact (hsame level (by omega) s').trans hc'

/-- The methods and hooks with a signature in a chain of classes, in order. -/
def declaredAsts (sig : Sig Ty) : List (Decl Ty (Code Ty Val m)) → List (Ast Ty (Code Ty Val m))
  | [] => []
  | d :: ds => declaredAsts sig ds ++ withSig (d.asts (!ds.isEmpty)) sig

omit [Monad m] in
theorem compileChain_layout {ds : List (Decl Ty (Code Ty Val m))}
    {s : Class Ty (Code Ty Val m)} (h : compileChain ds = .ok (some s)) : s.Layout := by
  cases ds with
  | nil => cases h
  | cons d ds =>
      obtain ⟨super, -, hbuilt⟩ := compileChain_built h
      exact hbuilt.layout

/-- What is compiled for a signature in a chain of classes. -/
theorem compileSigs_composed [LawfulMonad m] (hC : C.Lawful) (hargs : sig.args.isSome)
    {ds : List (Decl Ty (Code Ty Val m))} {o : Option (Class Ty (Code Ty Val m))}
    (h : compileChain ds = .ok o) :
    ((∃ impl, compileSigs C sig ds = .ok impl) ↔ Fits C none (declaredAsts sig ds)) ∧
    ∀ impl, compileSigs C sig ds = .ok impl → Composed C sig (declaredAsts sig ds) o impl := by
  induction ds generalizing o with
  | nil =>
      obtain rfl := Except.ok.inj h
      refine ⟨⟨fun _ => trivial, fun _ => ⟨none, rfl⟩⟩, fun impl himpl => ?_⟩
      obtain rfl := Except.ok.inj himpl
      exact ⟨fun _ => rfl, fun c mth hc => nomatch hc⟩
  | cons d ds ih =>
      obtain ⟨super, c, hsuper, hc, rfl⟩ := compileChain_cons h
      obtain ⟨hfits, hcomposed⟩ := ih hsuper
      have hsome : super.isSome = !ds.isEmpty := by
        rw [Bool.eq_iff_iff, compileChain_isSome hsuper]
        simp
      have hasts : withSig (d.asts super.isSome) sig = withSig (d.asts (!ds.isEmpty)) sig := by
        rw [hsome]
      have hstep := fun impl himpl => (hcomposed impl himpl).compileSig_iff hC hargs
        (hfits.mp ⟨impl, himpl⟩) (fun s hs => compileChain_layout (hs ▸ hsuper)) hc hasts
      refine ⟨⟨?_, ?_⟩, ?_⟩
      · rintro ⟨impl', himpl'⟩
        obtain ⟨impl, himpl, hsig⟩ := bind_eq_ok_iff.mp himpl'
        exact (hstep impl himpl).1.mp ⟨impl', hsig⟩
      · intro hall
        obtain ⟨impl, himpl⟩ := hfits.mpr (fits_append.mp hall).1
        obtain ⟨impl', hsig⟩ := (hstep impl himpl).1.mpr hall
        exact ⟨impl', bind_eq_ok_iff.mpr ⟨impl, himpl, hsig⟩⟩
      · intro impl' himpl'
        obtain ⟨impl, himpl, hsig⟩ := bind_eq_ok_iff.mp himpl'
        exact (hstep impl himpl).2 impl' hsig

end Compositions

/-! ## Results -/

/-- Types are numbers, zero is that of what returns nothing, and no value is
returned as one of another type. -/
def plainCasts : Casts ℕ ℕ where
  unit := 0
  nothing := 0
  cast T T' := if T = T' then some id else none

theorem plainCasts_lawful : plainCasts.Lawful where
  cast_self _ := if_pos rfl
  cast_unit _ h := if_neg h

/-- A body that does nothing. -/
def noCode : Code ℕ ℕ (StateM (List String)) where
  inferred := 0
  run _ _ := return ⟨0, 0⟩

/-- `f(x: int): int return x+1 end`, which says that it is called. -/
def increase : Ast ℕ (Code ℕ ℕ (StateM (List String))) where
  name := "f"
  argTypes := [1]
  body := {
    retType := some 1
    inferred := 1
    run := fun _ args => do
      modify (· ++ ["f"])
      return ⟨args.sum + 1, 0⟩ }

/-- `before f(x: int)` -/
def beforeF : Ast ℕ (Code ℕ ℕ (StateM (List String))) where
  name := "f"
  argTypes := [1]
  hook := some .before
  body := {
    inferred := 0
    run := fun _ _ => do
      modify (· ++ ["before"])
      return ⟨0, 0⟩ }

/-- `after f(x: int) @retval = -x end`, but with a sum. -/
def afterF : Ast ℕ (Code ℕ ℕ (StateM (List String))) where
  name := "f"
  argTypes := [1]
  hook := some .after
  body := {
    inferred := 0
    run := fun scope args => do
      modify (· ++ ["after"])
      return ⟨0, scope.retval.getD 0 + args.sum⟩ }

/-- `after f(x: int): int return x end` -/
def afterReturns : Ast ℕ (Code ℕ ℕ (StateM (List String))) where
  name := "f"
  argTypes := [1]
  hook := some .after
  body := { afterF.body with retType := some 1 }

/-- A class with methods and hooks. -/
def declaring (methods : List (Ast ℕ (Code ℕ ℕ (StateM (List String))))) :
    Decl ℕ (Code ℕ ℕ (StateM (List String))) where
  methods := methods
  initBody := noCode
  freeBody := noCode
  order := inOrder

/-- The hooks are called around the method, and the second one adds to the
result. -/
example : ([increase, beforeF, afterF].foldl (nest plainCasts) none).map
    (fun fn => (fn.call [3]).run []) = some (7, ["before", "f", "after"]) := rfl

end LuaAttic.Terra
