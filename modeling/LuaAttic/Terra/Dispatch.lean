import LuaAttic.Terra.Vtables

/-!
# Compiled methods

Once the stubs are there the methods and hooks are compiled in order, each over
the one before it, and the last one is what the stub of the method is reset to.
-/

namespace LuaAttic.Terra

open LuaAttic.Lua LuaAttic.Support

variable {Ty Body : Type} [DecidableEq Ty]

/-! ## One method or hook -/

section Steps

variable {c c' : Class Ty Body} {ast : Ast Ty Body} {asts : List (Ast Ty Body)}

/-- A method that is compiled keeps what it is and, unless it is a macro, its
functions. -/
structure Method.Kept (m m' : Method Ty Body) : Prop where
  ast : m'.ast = m.ast
  isPrivate : m'.isPrivate = m.isPrivate
  ismacro : m'.ismacro = m.ismacro
  func : m.ismacro = false → m'.func = m.func
  vfunc : m.ismacro = false → m'.vfunc = m.vfunc

omit [DecidableEq Ty] in
theorem Method.Kept.refl (m : Method Ty Body) : m.Kept m :=
  ⟨rfl, rfl, rfl, fun _ => rfl, fun _ => rfl⟩

omit [DecidableEq Ty] in
theorem Method.Kept.trans {m m' m'' : Method Ty Body} (h : m.Kept m') (h' : m'.Kept m'') :
    m.Kept m'' where
  ast := h'.ast.trans h.ast
  isPrivate := h'.isPrivate.trans h.isPrivate
  ismacro := h'.ismacro.trans h.ismacro
  func hm := (h'.func (h.ismacro.trans hm)).trans (h.func hm)
  vfunc hm := (h'.vfunc (h.ismacro.trans hm)).trans (h.vfunc hm)

/-- `self.methods[sig] = m` -/
def Class.setMethod (c : Class Ty Body) (sig : Sig Ty) (m : Method Ty Body) :
    Class Ty Body :=
  { c with methods := c.methods.set sig m }

/-- What a macro becomes. -/
def Method.expand (m : Method Ty Body) (ast : Ast Ty Body) : Method Ty Body :=
  { m with vfunc := some (.expanded ast), func := some (.expanded ast) }

/-- A method with the function that its next hook overrides. -/
def Method.inheriting (m : Method Ty Body) (func : Func Ty Body) : Method Ty Body :=
  { m with inherited := some (some func) }

theorem compileMethod_cases (h : c.compileMethod ast = .ok c') :
    ∃ m, c.methods.get ast.sig = some m ∧
    ((ast.ismacro = true ∧ c' = c.setMethod ast.sig (m.expand ast)) ∨
    (ast.ismacro = false ∧ ast.hook = none ∧ m.inherited.isSome ∧
      c' = c.setMethod ast.sig (m.inheriting (.compiled ast))) ∨
    (ast.ismacro = false ∧ ast.hook = none ∧ m.inherited = none ∧
      c' = c.resetDefinition (m.vfunc.or m.func) (.compiled ast)) ∨
    (ast.ismacro = false ∧ ast.hook ≠ none ∧ ∃ f, m.overridden = .ok f ∧
      c' = (c.resetDefinition (m.vfunc.or m.func) (.overridden ast f)).setMethod ast.sig
        (m.inheriting (.overridden ast f)))) := by
  obtain ⟨m, hm, h⟩ := bind_eq_ok_iff.mp h
  have hget : c.methods.get ast.sig = some m := by
    cases hg : c.methods.get ast.sig with
    | none => simp [hg, nonNil] at hm
    | some m' =>
        rw [hg] at hm
        exact congrArg some (Except.ok.inj hm)
  refine ⟨m, hget, ?_⟩
  by_cases hexpands : ast.ismacro = true
  · simp only [hexpands, if_true] at h
    split at h
    · exact .inl ⟨hexpands, (Except.ok.inj h).symm⟩
    · cases h
  · have hexpands : ast.ismacro = false := by simpa using hexpands
    simp only [hexpands, Bool.false_eq_true, if_false] at h
    cases hhook : ast.hook with
    | none =>
        simp only [hhook] at h
        split at h
        · next hsome => exact .inr (.inl ⟨hexpands, rfl, hsome, (Except.ok.inj h).symm⟩)
        · next hnone =>
            have hnone : m.inherited = none := by simpa using hnone
            exact .inr (.inr (.inl ⟨hexpands, rfl, hnone, (Except.ok.inj h).symm⟩))
    | some k =>
        simp only [hhook] at h
        obtain ⟨f, hf, h⟩ := bind_eq_ok_iff.mp h
        exact .inr (.inr (.inr ⟨hexpands, nofun, f, hf, (Except.ok.inj h).symm⟩))

/-- What stays as it is while methods are compiled. -/
structure Frame (c c' : Class Ty Body) : Prop where
  level : c'.level = c.level
  vtable : c'.vtable = c.vtable
  vindex : c'.vindex = c.vindex
  methods : ∀ sig, Option.Rel Method.Kept (c.methods.get sig) (c'.methods.get sig)
  definition : ∀ l sig, l ≠ c.level → c'.definition l sig = c.definition l sig

omit [DecidableEq Ty] in
theorem Frame.refl (c : Class Ty Body) : Frame c c where
  level := rfl
  vtable := rfl
  vindex := rfl
  methods sig := by
    cases c.methods.get sig with
    | none => exact .none
    | some m => exact .some (.refl m)
  definition _ _ _ := rfl

omit [DecidableEq Ty] in
theorem Frame.exists_of_some {sig : Sig Ty} {m : Method Ty Body} (h : Frame c c')
    (hm : c.methods.get sig = some m) : ∃ m', c'.methods.get sig = some m' ∧ m.Kept m' := by
  have hrel := h.methods sig
  rw [hm] at hrel
  cases hm' : c'.methods.get sig with
  | none => rw [hm'] at hrel; cases hrel
  | some m' =>
      rw [hm'] at hrel
      cases hrel with
      | some hkept => exact ⟨m', rfl, hkept⟩

omit [DecidableEq Ty] in
theorem Frame.exists_of_some' {sig : Sig Ty} {m' : Method Ty Body} (h : Frame c c')
    (hm' : c'.methods.get sig = some m') : ∃ m, c.methods.get sig = some m ∧ m.Kept m' := by
  have hrel := h.methods sig
  rw [hm'] at hrel
  cases hm : c.methods.get sig with
  | none => rw [hm] at hrel; cases hrel
  | some m =>
      rw [hm] at hrel
      cases hrel with
      | some hkept => exact ⟨m, rfl, hkept⟩

omit [DecidableEq Ty] in
theorem Frame.trans {c'' : Class Ty Body} (h : Frame c c') (h' : Frame c' c'') :
    Frame c c'' where
  level := h'.level.trans h.level
  vtable := h'.vtable.trans h.vtable
  vindex := h'.vindex.trans h.vindex
  methods sig := by
    cases hm : c.methods.get sig with
    | none =>
        cases hm'' : c''.methods.get sig with
        | none => exact .none
        | some m'' =>
            obtain ⟨m', hm', -⟩ := h'.exists_of_some' hm''
            obtain ⟨m, hm₁, -⟩ := h.exists_of_some' hm'
            rw [hm] at hm₁
            cases hm₁
    | some m =>
        obtain ⟨m', hm', hkept⟩ := h.exists_of_some hm
        obtain ⟨m'', hm'', hkept'⟩ := h'.exists_of_some hm'
        rw [hm'']
        exact .some (hkept.trans hkept')
  definition l sig hl :=
    (h'.definition l sig (by rwa [h.level])).trans (h.definition l sig hl)

theorem frame_setMethod {sig : Sig Ty} {m m' : Method Ty Body}
    (hm : c.methods.get sig = some m) (hkept : m.Kept m') :
    Frame c (c.setMethod sig m') where
  level := rfl
  vtable := rfl
  vindex := rfl
  methods sig' := by
    by_cases hs : sig' = sig
    · subst hs
      rw [hm, Class.setMethod, get_set_self]
      exact .some hkept
    · have hget : (c.setMethod sig m').methods.get sig' = c.methods.get sig' :=
        get_set_of_ne hs _ _
      rw [hget]
      exact (Frame.refl c).methods sig'
  definition _ _ _ := rfl

theorem frame_resetDefinition (sig : Sig Ty) (func : Func Ty Body) :
    Frame c (c.resetDefinition (some (.stub c.level sig)) func) where
  level := rfl
  vtable := rfl
  vindex := rfl
  methods := (Frame.refl c).methods
  definition l sig' hl := by
    change (if l = c.level ∧ sig' = sig then some func else c.definition l sig') = _
    rw [if_neg fun h => hl h.1]

/-- The methods to compile have a stub. -/
structure Class.Ready (c : Class Ty Body) (asts : List (Ast Ty Body)) : Prop where
  stub : ∀ ast ∈ asts, ast.ismacro = false → ∃ m, c.methods.get ast.sig = some m ∧
    m.vfunc.or m.func = some (.stub c.level ast.sig)
  macros : ∀ sig m, c.methods.get sig = some m → m.ismacro = sig.args.isNone

omit [DecidableEq Ty] in
theorem Frame.ready (h : Frame c c') (hready : c.Ready asts) : c'.Ready asts where
  stub ast hmem hexpands := by
    obtain ⟨m, hm, hstub⟩ := hready.stub ast hmem hexpands
    obtain ⟨m', hm', hkept⟩ := h.exists_of_some hm
    have hnot : m.ismacro = false := by rw [hready.macros _ _ hm, sig_args, hexpands]
    refine ⟨m', hm', ?_⟩
    rw [hkept.vfunc hnot, hkept.func hnot, hstub, h.level]
  macros sig m' hm' := by
    obtain ⟨m, hm, hkept⟩ := h.exists_of_some' hm'
    rw [hkept.ismacro, hready.macros sig m hm]

/-- What is known of a signature while its methods are compiled: the function
that the next hook overrides, and the definition of the stub. -/
def Class.cell (c : Class Ty Body) (sig : Sig Ty) :
    Option (Option (Func Ty Body)) × Option (Func Ty Body) :=
  ((c.methods.get sig).bind Method.inherited, c.definition c.level sig)

/-- One more definition or hook of a signature. -/
def cellStep (vfunc : Option (Func Ty Body))
    (cell : Option (Option (Func Ty Body)) × Option (Func Ty Body)) (ast : Ast Ty Body) :
    Option (Option (Func Ty Body)) × Option (Func Ty Body) :=
  match ast.hook with
  | none =>
      if cell.1.isSome then (some (some (.compiled ast)), cell.2)
      else (none, some (.compiled ast))
  | some _ =>
      let func := (cell.1.getD vfunc).map (.overridden ast)
      (some func, func)

theorem cell_setMethod_self (sig : Sig Ty) (m : Method Ty Body) :
    (c.setMethod sig m).cell sig = (m.inherited, c.definition c.level sig) := by
  simp [Class.cell, Class.setMethod]

theorem cell_setMethod_of_ne {sig sig' : Sig Ty} (hs : sig' ≠ sig) (m : Method Ty Body) :
    (c.setMethod sig m).cell sig' = c.cell sig' := by
  simp [Class.cell, Class.setMethod, get_set_of_ne hs]

theorem cell_resetDefinition_self (sig : Sig Ty) (func : Func Ty Body) :
    (c.resetDefinition (some (.stub c.level sig)) func).cell sig =
      ((c.methods.get sig).bind Method.inherited, some func) := by
  simp [Class.cell, Class.resetDefinition]

theorem cell_resetDefinition_of_ne {sig sig' : Sig Ty} (hs : sig' ≠ sig)
    (func : Func Ty Body) :
    (c.resetDefinition (some (.stub c.level sig)) func).cell sig' = c.cell sig' := by
  simp [Class.cell, Class.resetDefinition, hs]

omit [DecidableEq Ty] in
theorem overridden_eq {m : Method Ty Body} {f : Func Ty Body} (h : m.overridden = .ok f) :
    m.inherited.getD m.vfunc = some f := by
  have hnonNil : nonNil .nilCall (m.inherited.getD m.vfunc) = .ok f := by
    rw [← h, Method.overridden]
    cases m.inherited <;> rfl
  cases hopt : m.inherited.getD m.vfunc with
  | none => simp [hopt, nonNil] at hnonNil
  | some f' =>
      rw [hopt] at hnonNil
      exact congrArg some (Except.ok.inj hnonNil)

theorem compileMethod_step (h : c.compileMethod ast = .ok c') (hready : c.Ready asts)
    (hmem : ast ∈ asts) : Frame c c' ∧ (∀ sig ≠ ast.sig, c'.cell sig = c.cell sig) ∧
    (ast.ismacro = false → ∀ m, c.methods.get ast.sig = some m →
      c'.cell ast.sig = cellStep m.vfunc (c.cell ast.sig) ast) := by
  obtain ⟨m, hm, hcases⟩ := compileMethod_cases h
  have hexpands : m.ismacro = ast.ismacro := (hready.macros _ m hm).trans (sig_args ast)
  rcases hcases with ⟨hast, rfl⟩ | ⟨hast, hhook, hsome, rfl⟩ | ⟨hast, hhook, hnone, rfl⟩ |
    ⟨hast, hhook, f, hf, rfl⟩
  · have hkept : m.Kept (m.expand ast) :=
      ⟨rfl, rfl, rfl, fun hnot => by simp [hexpands, hast] at hnot,
        fun hnot => by simp [hexpands, hast] at hnot⟩
    exact ⟨frame_setMethod hm hkept, fun sig hs => cell_setMethod_of_ne hs _,
      fun hnot => by simp [hast] at hnot⟩
  · refine ⟨frame_setMethod hm ?_, fun sig hs => cell_setMethod_of_ne hs _, ?_⟩
    · exact ⟨rfl, rfl, rfl, fun _ => rfl, fun _ => rfl⟩
    · intro _ m' _
      rw [cell_setMethod_self]
      simp [cellStep, hhook, Class.cell, hm, hsome, Method.inheriting]
  · obtain ⟨m', hm', hstub⟩ := hready.stub ast hmem hast
    obtain rfl := Option.some.inj (hm.symm.trans hm')
    rw [hstub]
    refine ⟨frame_resetDefinition _ _, fun sig hs => cell_resetDefinition_of_ne hs _, ?_⟩
    intro _ m' _
    rw [cell_resetDefinition_self]
    simp [cellStep, hhook, Class.cell, hm, hnone]
  · obtain ⟨m', hm', hstub⟩ := hready.stub ast hmem hast
    obtain rfl := Option.some.inj (hm.symm.trans hm')
    rw [hstub]
    have hframe := frame_resetDefinition (c := c) ast.sig (.overridden ast f)
    refine ⟨hframe.trans (frame_setMethod hm ?_), fun sig hs => ?_, ?_⟩
    · exact ⟨rfl, rfl, rfl, fun _ => rfl, fun _ => rfl⟩
    · rw [cell_setMethod_of_ne hs, cell_resetDefinition_of_ne hs]
    · intro _ m' hm''
      obtain rfl := Option.some.inj (hm.symm.trans hm'')
      obtain ⟨k, hk⟩ := Option.ne_none_iff_exists'.mp hhook
      rw [cell_setMethod_self]
      have hdefinition := congrArg Prod.snd (cell_resetDefinition_self (c := c) ast.sig
        (.overridden ast f))
      refine Prod.ext ?_ ?_
      · simp [cellStep, hk, Class.cell, hm, overridden_eq hf, Method.inheriting]
      · rw [show (c.resetDefinition (some (.stub c.level ast.sig)) (.overridden ast f)).definition
          _ ast.sig = _ from hdefinition]
        simp [cellStep, hk, Class.cell, hm, overridden_eq hf]

end Steps

/-! ## All of them -/

section Runs

variable {c c' : Class Ty Body} {asts l : List (Ast Ty Body)}

theorem withSig_cons_self (a : Ast Ty Body) (l : List (Ast Ty Body)) :
    withSig (a :: l) a.sig = a :: withSig l a.sig :=
  List.filter_cons_of_pos (by simp)

theorem withSig_cons_of_ne {a : Ast Ty Body} {sig : Sig Ty} (h : sig ≠ a.sig)
    (l : List (Ast Ty Body)) : withSig (a :: l) sig = withSig l sig :=
  List.filter_cons_of_neg (by simpa using Ne.symm h)

theorem compileMethod_run (h : l.foldlM Class.compileMethod c = .ok c')
    (hready : c.Ready asts) (hsub : ∀ a ∈ l, a ∈ asts) : Frame c c' ∧
    ∀ sig m, sig.args.isSome → c.methods.get sig = some m →
      c'.cell sig = (withSig l sig).foldl (cellStep m.vfunc) (c.cell sig) := by
  induction l generalizing c with
  | nil =>
      obtain rfl := Except.ok.inj h
      exact ⟨Frame.refl c, fun _ _ _ _ => rfl⟩
  | cons a l ih =>
      rw [List.foldlM_cons] at h
      obtain ⟨c₁, hstep, hrest⟩ := bind_eq_ok_iff.mp h
      obtain ⟨hframe, hother, hself⟩ :=
        compileMethod_step hstep hready (hsub a List.mem_cons_self)
      have hready₁ := hframe.ready hready
      obtain ⟨hframe', hcell⟩ :=
        ih hrest hready₁ fun b hb => hsub b (List.mem_cons_of_mem a hb)
      refine ⟨hframe.trans hframe', fun sig m hargs hm => ?_⟩
      obtain ⟨m₁, hm₁, hkept⟩ := hframe.exists_of_some hm
      have hargs' : sig.args.isNone = false := by simpa using hargs
      have hvfunc : m₁.vfunc = m.vfunc := hkept.vfunc ((hready.macros sig m hm).trans hargs')
      have hrun := hcell sig m₁ hargs hm₁
      rw [hvfunc] at hrun
      by_cases hs : sig = a.sig
      · subst hs
        rw [withSig_cons_self, List.foldl_cons, hrun,
          hself ((sig_args a).symm.trans hargs') m hm]
      · rw [withSig_cons_of_ne hs, hrun, hother sig hs]

/-- What the definitions and hooks of a method make of what is inherited: the
definition replaces it, and each hook is compiled over what is there. -/
def layers (inherited : Option (Func Ty Body)) (l : List (Ast Ty Body)) :
    Option (Func Ty Body) :=
  l.foldl (fun func ast =>
    match ast.hook with
    | none => some (.compiled ast)
    | some _ => func.map (.overridden ast)) inherited

omit [DecidableEq Ty] in
theorem layers_isSome {inherited : Option (Func Ty Body)} (h : inherited.isSome) :
    (layers inherited l).isSome := by
  induction l generalizing inherited with
  | nil => exact h
  | cons a l ih =>
      refine ih ?_
      cases ha : a.hook with
      | none => simp [ha]
      | some k => simpa [ha] using h

omit [DecidableEq Ty] in
theorem cells_of_hooks {vfunc func definition : Option (Func Ty Body)}
    (hl : l ≠ []) (hall : ∀ a ∈ l, a.hook ≠ none) :
    l.foldl (cellStep vfunc) (some func, definition) =
      (some (layers func l), layers func l) := by
  induction l generalizing func definition with
  | nil => exact absurd rfl hl
  | cons a l ih =>
      obtain ⟨k, hk⟩ := Option.ne_none_iff_exists'.mp (hall a List.mem_cons_self)
      have hstep : cellStep vfunc (some func, definition) a =
          (some (func.map (.overridden a)), func.map (.overridden a)) := by
        simp [cellStep, hk]
      have hlayers : layers func (a :: l) = layers (func.map (.overridden a)) l := by
        simp [layers, hk]
      rw [List.foldl_cons, hstep, hlayers]
      cases l with
      | nil => rfl
      | cons b l => exact ih (List.cons_ne_nil b l) fun c hc => hall c (List.mem_cons_of_mem a hc)

omit [DecidableEq Ty] in
theorem cells_of_new {vfunc inherited definition : Option (Func Ty Body)}
    {a : Ast Ty Body} (ha : a.hook = none) (hall : ∀ b ∈ l, b.hook ≠ none) :
    ((a :: l).foldl (cellStep vfunc)
      (if l = [] then none else some none, definition)).2 = layers inherited (a :: l) := by
  have hlayers : layers inherited (a :: l) = layers (some (.compiled a)) l := by
    simp [layers, ha]
  rw [List.foldl_cons, hlayers]
  by_cases hl : l = []
  · subst hl
    simp [cellStep, ha, layers]
  · have hstep : cellStep vfunc (if l = [] then none else some none, definition) a =
        (some (some (.compiled a)), definition) := by
      simp [cellStep, ha, hl]
    rw [hstep, cells_of_hooks hl hall]

end Runs

/-! ## A class -/

section Classes

variable {super : Option (Class Ty Body)} {order : Order (Sig Ty)}
  {asts : List (Ast Ty Body)} {t : Table (Sig Ty) (Method Ty Body)} {c₂ : Class Ty Body}

theorem declared_of_mem (h : declareMethods asts (inheritFrom super order).methods = .ok t)
    {ast : Ast Ty Body} (hmem : ast ∈ asts) : ∃ m, t.get ast.sig = some m := by
  have hrun := get_declareMethods h ast.sig
  have hwith : ast ∈ withSig asts ast.sig := mem_withSig.mpr ⟨hmem, rfl⟩
  rcases declare_cases hrun with ⟨-, hnil, -⟩ | ⟨a, hs, -, -, -, -, hm⟩ | ⟨m, -, -, hm⟩
  · rw [hnil] at hwith
    cases hwith
  · exact ⟨_, hm⟩
  · exact ⟨_, hm⟩

theorem declared_implemented
    (h : declareMethods asts (inheritFrom super order).methods = .ok t) {sig : Sig Ty}
    {m : Method Ty Body} (hm : t.get sig = some m) (hexpands : m.ismacro = false) :
    m.Implemented ↔ withSig asts sig ≠ [] := by
  rcases declared_cases h hm with ⟨a, hs, hl, -, -, -, rfl⟩ | ⟨s, m₀, -, -, -, -, rfl⟩
  · simp only [Method.Implemented, hl, ne_eq, reduceCtorEq, not_false_eq_true, iff_true]
    exact ⟨hexpands, .inl rfl⟩
  · by_cases hl : withSig asts sig = []
    · simp [Method.Implemented, Method.inherit, hl]
    · simpa [Method.Implemented, Method.inherit, hl] using hexpands

omit [DecidableEq Ty] in
/-- A method once the stubs are made. -/
theorem Stubbed.exists_declared {done : List (Sig Ty)} {c₁ : Class Ty Body}
    (hstub : Stubbed c₁ done c₂) (hall : ∀ sig m, c₁.methods.get sig = some m → sig ∈ done)
    {sig : Sig Ty} {m₂ : Method Ty Body} (hm₂ : c₂.methods.get sig = some m₂) :
    ∃ m, c₁.methods.get sig = some m ∧ m₂.ast = m.ast ∧ m₂.isPrivate = m.isPrivate ∧
      m₂.ismacro = m.ismacro ∧ m₂.inherited = m.inherited ∧
      (m.Implemented → m₂ = m.withStub c₁.level sig (c₂.vindex sig)) ∧
      (¬ m.Implemented → m₂ = m) := by
  cases hm : c₁.methods.get sig with
  | none =>
      rw [hstub.missing sig hm] at hm₂
      cases hm₂
  | some m =>
      refine ⟨m, rfl, ?_⟩
      by_cases himpl : m.Implemented
      · rw [hstub.implemented sig (hall sig m hm) m hm himpl] at hm₂
        obtain rfl := Option.some.inj hm₂
        refine ⟨?_, ?_, ?_, ?_, fun _ => rfl, fun hnot => absurd himpl hnot⟩ <;>
          cases c₂.vindex sig <;> rfl
      · rw [hstub.unimplemented sig (hall sig m hm) m hm himpl] at hm₂
        obtain rfl := Option.some.inj hm₂
        exact ⟨rfl, rfl, rfl, rfl, fun h => absurd h himpl, fun _ => rfl⟩

/-- The methods to compile have their stubs. -/
theorem Stubbed.ready {done : List (Sig Ty)}
    (h : declareMethods asts (inheritFrom super order).methods = .ok t)
    (h₁ : Class.Unstubbed { inheritFrom super order with methods := t })
    (hstub : Stubbed { inheritFrom super order with methods := t } done c₂)
    (hall : ∀ sig m, t.get sig = some m → sig ∈ done) : c₂.Ready asts where
  stub ast hmem hexpands := by
    obtain ⟨m, hm⟩ := declared_of_mem h hmem
    have hnot : m.ismacro = false := by rw [h₁.macros _ m hm, sig_args, hexpands]
    have hne : withSig asts ast.sig ≠ [] :=
      List.ne_nil_of_mem (mem_withSig.mpr ⟨hmem, rfl⟩)
    have himpl : m.Implemented := (declared_implemented h hm hnot).mpr hne
    refine ⟨_, hstub.implemented _ (hall _ m hm) m hm himpl, ?_⟩
    rw [hstub.level]
    cases hi : c₂.vindex ast.sig with
    | some i => rfl
    | none =>
        have hast : m.ast.isSome := by
          cases hast : m.ast with
          | some a => rfl
          | none =>
              have hsome := (h₁.indexed _ m hm hast).2 hnot
              obtain ⟨i, hi₁⟩ := Option.isSome_iff_exists.mp hsome
              rw [hstub.old _ i hi₁] at hi
              cases hi
        simp [Method.withStub, h₁.new _ m hm hast]
  macros sig m₂ hm₂ := by
    obtain ⟨m, hm, -, -, hexpands, -⟩ := hstub.exists_declared hall hm₂
    rw [hexpands]
    exact h₁.macros sig m hm

/-- What `compile_methods` makes of the superclass and the methods of a class. -/
structure Class.Built (c : Class Ty Body) (super : Option (Class Ty Body))
    (asts : List (Ast Ty Body)) : Prop where
  level : c.level = super.elim 0 fun s => s.level + 1
  layout : c.Layout
  extended : ∀ s, super = some s → ∀ sig i, s.vindex sig = some i → c.vindex sig = some i
  lower : ∀ s, super = some s → ∀ l sig, l ≠ c.level →
    c.definition l sig = s.definition l sig
  inherited : ∀ sig i, c.vindex sig = some i → withSig asts sig = [] → ∃ s,
    super = some s ∧ s.vindex sig = some i ∧ c.vtable[i - 1]? = s.vtable[i - 1]?
  defined : ∀ sig i, c.vindex sig = some i → withSig asts sig ≠ [] →
    c.vtable[i - 1]? = some (.stub c.level sig) ∧ (c.definition c.level sig).isSome ∧
    c.definition c.level sig = layers
      (super.bind fun s => (s.vindex sig).bind fun j => s.vtable[j - 1]?) (withSig asts sig)
  static : ∀ sig m, c.methods.get sig = some m → m.isPrivate = true → m.ismacro = false →
    m.func = some (.stub c.level sig) ∧ m.vfunc = none
  private_ : ∀ sig m, super.bind (fun s => s.methods.get sig) = some m →
    m.isPrivate = true → withSig asts sig = [] → c.methods.get sig = none

section Built

variable {done : List (Sig Ty)} {c : Class Ty Body}

omit [DecidableEq Ty] in
/-- A method that was declared is compiled. -/
theorem exists_compiled {c₁ : Class Ty Body} (hstub : Stubbed c₁ done c₂)
    (hall : ∀ sig m, c₁.methods.get sig = some m → sig ∈ done) (hframe : Frame c₂ c)
    {sig : Sig Ty} {m : Method Ty Body} (hm : c₁.methods.get sig = some m) :
    ∃ m₂ m', c₂.methods.get sig = some m₂ ∧ c.methods.get sig = some m' ∧ m₂.Kept m' ∧
      m₂.isPrivate = m.isPrivate ∧ m₂.ismacro = m.ismacro ∧ m₂.inherited = m.inherited ∧
      (m.Implemented → m₂ = m.withStub c₁.level sig (c₂.vindex sig)) ∧
      (¬ m.Implemented → m₂ = m) := by
  have hsome : ∃ m₂, c₂.methods.get sig = some m₂ := by
    by_cases himpl : m.Implemented
    · exact ⟨_, hstub.implemented sig (hall sig m hm) m hm himpl⟩
    · exact ⟨_, hstub.unimplemented sig (hall sig m hm) m hm himpl⟩
  obtain ⟨m₂, hm₂⟩ := hsome
  obtain ⟨m', hm', hkept⟩ := hframe.exists_of_some hm₂
  obtain ⟨m₁, hm₁, -, hrest⟩ := hstub.exists_declared hall hm₂
  obtain rfl := Option.some.inj (hm.symm.trans hm₁)
  exact ⟨m₂, m', hm₂, hm', hkept, hrest⟩

omit [DecidableEq Ty] in
theorem public_iff {c₁ : Class Ty Body} (hstub : Stubbed c₁ done c₂)
    (hall : ∀ sig m, c₁.methods.get sig = some m → sig ∈ done) (hframe : Frame c₂ c)
    (sig : Sig Ty) : c.Public sig ↔ c₁.Public sig := by
  constructor
  · rintro ⟨m', hm', hpublic, hexpands⟩
    obtain ⟨m₂, hm₂, hkept⟩ := hframe.exists_of_some' hm'
    obtain ⟨m, hm, -, hprivate, hexpands', -⟩ := hstub.exists_declared hall hm₂
    refine ⟨m, hm, ?_, ?_⟩
    · rw [← hprivate, ← hkept.isPrivate, hpublic]
    · rw [← hexpands', ← hkept.ismacro, hexpands]
  · rintro ⟨m, hm, hpublic, hexpands⟩
    obtain ⟨m₂, m', -, hm', hkept, hprivate, hexpands', -⟩ :=
      exists_compiled hstub hall hframe hm
    refine ⟨m', hm', ?_, ?_⟩
    · rw [hkept.isPrivate, hprivate, hpublic]
    · rw [hkept.ismacro, hexpands', hexpands]

omit [DecidableEq Ty] in
theorem layout_of_frame {c₁ : Class Ty Body} (h₁ : c₁.Unstubbed)
    (hstub : Stubbed c₁ done c₂)
    (hall : ∀ sig m, c₁.methods.get sig = some m → sig ∈ done) (hframe : Frame c₂ c) :
    c.Layout where
  slots := by
    rw [hframe.vindex, hframe.vtable]
    exact hstub.slots
  vindex_iff sig := by
    rw [hframe.vindex, hstub.vindex_iff, public_iff hstub hall hframe]
    constructor
    · rintro (hsome | ⟨-, m, hm, hpublic, hexpands, -⟩)
      · obtain ⟨i, hi⟩ := Option.isSome_iff_exists.mp hsome
        obtain ⟨m, hm, hpublic, hexpands, -⟩ := h₁.inherited sig i hi
        exact ⟨m, hm, hpublic, hexpands⟩
      · exact ⟨m, hm, hpublic, hexpands⟩
    · rintro ⟨m, hm, hpublic, hexpands⟩
      cases hast : m.ast with
      | none => exact .inl ((h₁.indexed sig m hm hast).2 hexpands)
      | some a => exact .inr ⟨hall sig m hm, m, hm, hpublic, hexpands, by rw [hast]; rfl⟩
  methods sig i m' hi hm' := by
    rw [hframe.vindex] at hi
    rw [hframe.vtable]
    obtain ⟨m₂, hm₂, hkept⟩ := hframe.exists_of_some' hm'
    obtain ⟨m, hm, -, -, hexpands, -, himplemented, hkeptOld⟩ := hstub.exists_declared hall hm₂
    have hsome : (c₂.vindex sig).isSome := by rw [hi]; rfl
    have hnot : m.ismacro = false := by
      rcases (hstub.vindex_iff sig).mp hsome with hsome₁ | ⟨-, m₁, hm₁, -, hexpands₁, -⟩
      · obtain ⟨j, hj⟩ := Option.isSome_iff_exists.mp hsome₁
        obtain ⟨m₁, hm₁, -, hexpands₁, -⟩ := h₁.inherited sig j hj
        rwa [Option.some.inj (hm.symm.trans hm₁)]
      · rwa [Option.some.inj (hm.symm.trans hm₁)]
    rw [hkept.func (hexpands.trans hnot), hkept.vfunc (hexpands.trans hnot)]
    by_cases himpl : m.Implemented
    · rw [himplemented himpl, hstub.newSlot sig i m hi (hall sig m hm) hm himpl, hi]
      exact ⟨rfl, rfl⟩
    · rw [hkeptOld himpl, hstub.oldSlot sig i hi (.inr fun m₁ hm₁ => ?_)]
      · have hast : m.ast = none := by
          cases hast : m.ast with
          | none => rfl
          | some a => exact absurd ⟨hnot, .inl (by rw [hast]; rfl)⟩ himpl
        obtain ⟨j, hj⟩ := Option.isSome_iff_exists.mp ((h₁.indexed sig m hm hast).2 hnot)
        obtain ⟨m₁, hm₁, -, -, -, hfunc, hvfunc⟩ := h₁.inherited sig j hj
        obtain rfl := Option.some.inj (hm.symm.trans hm₁)
        obtain rfl := Option.some.inj (hi.symm.trans (hstub.old sig j hj))
        exact ⟨hfunc, hvfunc⟩
      · rwa [← Option.some.inj (hm.symm.trans hm₁)]
  macros sig m' hm' := by
    obtain ⟨m₂, hm₂, hkept⟩ := hframe.exists_of_some' hm'
    obtain ⟨m, hm, -, -, hexpands, -⟩ := hstub.exists_declared hall hm₂
    rw [hkept.ismacro, hexpands]
    exact h₁.macros sig m hm

omit [DecidableEq Ty] in
/-- The slot of a method without new implementation. -/
theorem Stubbed.of_not_implemented {c₁ : Class Ty Body} (hstub : Stubbed c₁ done c₂)
    {sig : Sig Ty} {i : ℕ} {m : Method Ty Body} (hm : c₁.methods.get sig = some m)
    (hnot : ¬ m.Implemented) (hi : c₂.vindex sig = some i) :
    c₁.vindex sig = some i ∧ c₂.vtable[i - 1]? = c₁.vtable[i - 1]? := by
  have hold : (c₁.vindex sig).isSome := by
    have hsome : (c₂.vindex sig).isSome := by rw [hi]; rfl
    rcases (hstub.vindex_iff sig).mp hsome with hsome | ⟨-, m₁, hm₁, -, hexpands₁, hast⟩
    · exact hsome
    · obtain rfl := Option.some.inj (hm.symm.trans hm₁)
      exact absurd ⟨hexpands₁, .inl hast⟩ hnot
  obtain ⟨j, hj⟩ := Option.isSome_iff_exists.mp hold
  obtain rfl := Option.some.inj (hi.symm.trans (hstub.old sig j hj))
  refine ⟨hj, hstub.oldSlot sig i hi (.inr fun m₁ hm₁ => ?_)⟩
  rwa [← Option.some.inj (hm.symm.trans hm₁)]

omit [DecidableEq Ty] in
/-- A private method, which is called without the table. -/
theorem static_of_frame {c₁ : Class Ty Body} (h₁ : c₁.Unstubbed)
    (hstub : Stubbed c₁ done c₂)
    (hall : ∀ sig m, c₁.methods.get sig = some m → sig ∈ done) (hframe : Frame c₂ c)
    {sig : Sig Ty} {m' : Method Ty Body} (hm' : c.methods.get sig = some m')
    (hprivate : m'.isPrivate = true) (hexpands : m'.ismacro = false) :
    m'.func = some (.stub c.level sig) ∧ m'.vfunc = none := by
  have hlayout := layout_of_frame h₁ hstub hall hframe
  obtain ⟨m₂, hm₂, hkept⟩ := hframe.exists_of_some' hm'
  obtain ⟨m, hm, -, hprivate₂, hexpands₂, -, hwith, -⟩ := hstub.exists_declared hall hm₂
  rw [hkept.isPrivate, hprivate₂] at hprivate
  have hnot : m₂.ismacro = false := hkept.ismacro.symm.trans hexpands
  have hast : m.ast.isSome := by
    cases hast : m.ast with
    | some a => rfl
    | none => simp [(h₁.indexed sig m hm hast).1] at hprivate
  have hnone : c₂.vindex sig = none := by
    cases hi : c₂.vindex sig with
    | none => rfl
    | some i =>
        have hsome : (c.vindex sig).isSome := by rw [hframe.vindex, hi]; rfl
        obtain ⟨m'', hm'', hpublic, -⟩ := (hlayout.vindex_iff sig).mp hsome
        obtain rfl := Option.some.inj (hm'.symm.trans hm'')
        rw [hkept.isPrivate, hprivate₂, hprivate] at hpublic
        cases hpublic
  rw [hkept.func hnot, hkept.vfunc hnot, hwith ⟨hexpands₂.symm.trans hnot, .inl hast⟩, hnone,
    hframe.level, hstub.level]
  exact ⟨rfl, h₁.new sig m hm hast⟩

/-- A private method of the superclass that the class does not have. -/
theorem get_declared_private {sig : Sig Ty} {m : Method Ty Body}
    (ht : declareMethods asts (inheritFrom super order).methods = .ok t)
    (hm : super.bind (fun s => s.methods.get sig) = some m) (hprivate : m.isPrivate = true)
    (hnil : withSig asts sig = []) : t.get sig = none := by
  have hrun := get_declareMethods ht sig
  have hget : (inheritFrom super order).methods.get sig = none := by
    rw [get_inheritFrom]
    obtain ⟨s, rfl, hs⟩ := Option.bind_eq_some_iff.mp hm
    simp [hs, hprivate]
  rw [hnil, hget] at hrun
  exact (Except.ok.inj hrun).symm

theorem built_defined {sig : Sig Ty} {m : Method Ty Body}
    {cell : Option (Option (Func Ty Body)) × Option (Func Ty Body)}
    (hsuper : ∀ s, super = some s → s.Layout)
    (ht : declareMethods asts (inheritFrom super order).methods = .ok t)
    (hm : t.get sig = some m) (hexpands : m.ismacro = false)
    (hcell : c.cell sig =
      (withSig asts sig).foldl (cellStep (some (.stub c.level sig))) cell)
    (hinherited : cell.1 = m.inherited) (hne : withSig asts sig ≠ []) :
    (c.definition c.level sig).isSome ∧ c.definition c.level sig = layers
      (super.bind fun s => (s.vindex sig).bind fun j => s.vtable[j - 1]?)
      (withSig asts sig) := by
  have hdefinition : c.definition c.level sig = (c.cell sig).2 := rfl
  obtain ⟨inherited, definition⟩ := cell
  obtain rfl : inherited = m.inherited := hinherited
  rw [hdefinition, hcell]
  rcases declared_cases ht hm with
    ⟨a, hs, hl, ha, hhs, -, rfl⟩ | ⟨s, m₀, rfl, hm₀, hpublic, hall, rfl⟩
  · rw [hl, cells_of_new ha hhs]
    refine ⟨?_, rfl⟩
    have hstep : layers (super.bind fun s => (s.vindex sig).bind fun j => s.vtable[j - 1]?)
        (a :: hs) = layers (some (.compiled a)) hs := by
      simp [layers, ha]
    rw [hstep]
    exact layers_isSome rfl
  · have hlayout := hsuper s rfl
    have hsome : (s.vindex sig).isSome :=
      (hlayout.vindex_iff sig).mpr ⟨m₀, hm₀, hpublic, hexpands⟩
    obtain ⟨j, hj⟩ := Option.isSome_iff_exists.mp hsome
    obtain ⟨h1, hn⟩ := hlayout.slots.range sig j hj
    have hvfunc : m₀.vfunc = s.vtable[j - 1]? := (hlayout.methods sig j m₀ hj hm₀).2
    simp only [if_neg hne]
    rw [cells_of_hooks hne hall, hvfunc]
    have hslot : (some s).bind (fun s => (s.vindex sig).bind fun j => s.vtable[j - 1]?) =
        s.vtable[j - 1]? := by
      simp [hj]
    rw [hslot]
    refine ⟨layers_isSome ?_, rfl⟩
    rw [List.getElem?_eq_getElem (by omega)]
    rfl

end Built

/-- The classes while methods are compiled: the methods that are declared, the class
with their stubs, and the one that is compiled from it. -/
structure Staged (super : Option (Class Ty Body)) (d : Decl Ty Body)
    (t : Table (Sig Ty) (Method Ty Body)) (c₂ c : Class Ty Body) : Prop where
  declared : declareMethods (d.asts super.isSome) (inheritFrom super d.order).methods = .ok t
  unstubbed : Class.Unstubbed { inheritFrom super d.order with methods := t }
  stubbed : Stubbed { inheritFrom super d.order with methods := t } (d.order.apply t.keys) c₂
  all : ∀ sig m, t.get sig = some m → sig ∈ d.order.apply t.keys
  frame : Frame c₂ c
  cell : ∀ sig m, sig.args.isSome → c₂.methods.get sig = some m →
    c.cell sig = (withSig (d.asts super.isSome) sig).foldl (cellStep m.vfunc) (c₂.cell sig)

theorem exists_staged {d : Decl Ty Body} {c : Class Ty Body}
    (hsuper : ∀ s, super = some s → s.Layout) (h : compileMethods super d = .ok c) :
    ∃ t c₂, Staged super d t c₂ c := by
  obtain ⟨t, ht, hrun⟩ := bind_eq_ok_iff.mp h
  have h₁ := unstubbed_of_declare hsuper ht
  have hnodup : (d.order.apply t.keys).Nodup := (d.order.perm _).nodup_iff.mpr t.nodup
  have hstub := stubbed_foldl h₁ (stubbed_nil h₁) (by simpa using hnodup)
  rw [List.nil_append] at hstub
  have hall : ∀ sig m, t.get sig = some m → sig ∈ d.order.apply t.keys := fun sig m hm => by
    rw [(d.order.perm _).mem_iff, t.mem_keys, hm]
    rfl
  have hready := hstub.ready ht h₁ hall
  obtain ⟨hframe, hcell⟩ := compileMethod_run hrun hready fun _ ha => ha
  exact ⟨t, _, ht, h₁, hstub, hall, hframe, hcell⟩

theorem compileMethods_built {d : Decl Ty Body} {c : Class Ty Body}
    (hsuper : ∀ s, super = some s → s.Layout) (h : compileMethods super d = .ok c) :
    c.Built super (d.asts super.isSome) := by
  obtain ⟨t, c₂, ht, h₁, hstub, hall, hframe, hcell⟩ := exists_staged hsuper h
  have hlayout := layout_of_frame h₁ hstub hall hframe
  -- what is known of a method with a slot
  have hslot : ∀ sig i, c.vindex sig = some i → ∃ m, t.get sig = some m ∧
      m.ismacro = false ∧ (m.Implemented ↔ withSig (d.asts super.isSome) sig ≠ []) := by
    intro sig i hi
    have hsome : (c.vindex sig).isSome := by rw [hi]; rfl
    obtain ⟨m, hm, -, hexpands⟩ :=
      (public_iff hstub hall hframe sig).mp ((hlayout.vindex_iff sig).mp hsome)
    exact ⟨m, hm, hexpands, declared_implemented ht hm hexpands⟩
  have hlevel : c.level = (inheritFrom super d.order).level :=
    hframe.level.trans hstub.level
  refine ⟨?_, hlayout, ?_, ?_, ?_, ?_, ?_, ?_⟩
  · rw [hlevel]
    cases super <;> rfl
  · rintro s rfl sig i hi
    rw [hframe.vindex]
    exact hstub.old sig i hi
  · rintro s rfl l sig hl
    rw [hframe.level] at hl
    rw [hframe.definition l sig hl, hstub.definition]
    rfl
  · intro sig i hi hnil
    obtain ⟨m, hm, -, himpl⟩ := hslot sig i hi
    rw [hframe.vindex] at hi
    obtain ⟨hold, hsame⟩ := hstub.of_not_implemented hm (fun h => himpl.mp h hnil) hi
    rw [hframe.vtable]
    cases super with
    | none => cases hold
    | some s => exact ⟨s, rfl, hold, hsame⟩
  · intro sig i hi hne
    obtain ⟨m, hm, hexpands, himpl⟩ := hslot sig i hi
    obtain ⟨m₂, m', hm₂, -, -, -, hexpands₂, hinherited, hwith, -⟩ :=
      exists_compiled hstub hall hframe hm
    have hvfunc : m₂.vfunc = some (.stub c.level sig) := by
      rw [hwith (himpl.mpr hne), hlevel, ← hframe.vindex, hi]
      rfl
    have hargs : sig.args.isSome := by
      have hnone : sig.args.isNone = false := by rw [← h₁.macros sig m hm, hexpands]
      simpa using hnone
    have hrun := hcell sig m₂ hargs hm₂
    rw [hvfunc] at hrun
    refine ⟨?_, built_defined hsuper ht hm hexpands hrun ?_ hne⟩
    · rw [hframe.vtable, hlevel]
      rw [hframe.vindex] at hi
      exact hstub.newSlot sig i m hi (hall sig m hm) hm (himpl.mpr hne)
    · simp [Class.cell, hm₂, hinherited]
  · intro sig m hm hprivate hexpands
    exact static_of_frame h₁ hstub hall hframe hm hprivate hexpands
  · intro sig m hm hprivate hnil
    have hnone₂ := hstub.missing sig (get_declared_private ht hm hprivate hnil)
    cases hc : c.methods.get sig with
    | none => rfl
    | some m' =>
        obtain ⟨m₂, hm₂, -⟩ := hframe.exists_of_some' hc
        rw [hnone₂] at hm₂
        cases hm₂

end Classes

end LuaAttic.Terra
