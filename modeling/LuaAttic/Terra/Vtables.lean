import LuaAttic.Terra.Classes

/-!
# Tables of virtual functions

What each of the loops of `compile_methods` leaves: the slots of the superclass
stay where they are, each new public method gets the next one, and a method that
is defined or hooked gets a stub of its own class.
-/

namespace LuaAttic.Terra

open LuaAttic.Lua LuaAttic.Support

variable {Ty Body : Type} [DecidableEq Ty]

/-! ## Slots -/

/-- The slots from one on, each for one signature. -/
structure Slots (vindex : Sig Ty → Option ℕ) (n : ℕ) : Prop where
  range : ∀ sig i, vindex sig = some i → 1 ≤ i ∧ i ≤ n
  inj : ∀ sig sig' i, vindex sig = some i → vindex sig' = some i → sig = sig'
  surj : ∀ i, 1 ≤ i → i ≤ n → ∃ sig, vindex sig = some i

omit [DecidableEq Ty] in
theorem slots_empty : Slots (fun _ : Sig Ty => none) 0 where
  range _ _ h := nomatch h
  inj _ _ _ h := nomatch h
  surj _ h h' := absurd (h.trans h') (by decide)

theorem Slots.push {vindex : Sig Ty → Option ℕ} {n : ℕ} (h : Slots vindex n)
    {sig : Sig Ty} (hsig : vindex sig = none) :
    Slots (Function.update vindex sig (some (n + 1))) (n + 1) where
  range sig' i hi := by
    by_cases heq : sig' = sig
    · subst heq
      rw [Function.update_self] at hi
      obtain rfl := Option.some.inj hi
      exact ⟨Nat.le_add_left 1 n, le_rfl⟩
    · rw [Function.update_of_ne heq] at hi
      obtain ⟨h1, hn⟩ := h.range sig' i hi
      exact ⟨h1, hn.trans (Nat.le_succ n)⟩
  inj sig₁ sig₂ i h₁ h₂ := by
    have hrange := h.range
    have hinj := h.inj sig₁ sig₂ i
    grind [Function.update_apply]
  surj i h1 hi := by
    rcases Nat.lt_or_eq_of_le hi with hlt | rfl
    · obtain ⟨sig', hsig'⟩ := h.surj i h1 (Nat.le_of_lt_succ hlt)
      refine ⟨sig', ?_⟩
      rw [Function.update_of_ne, hsig']
      rintro rfl
      rw [hsig] at hsig'
      cases hsig'
    · exact ⟨sig, Function.update_self _ _ _⟩

/-- A method that has a slot once it is compiled. -/
def Class.Public (c : Class Ty Body) (sig : Sig Ty) : Prop :=
  ∃ m, c.methods.get sig = some m ∧ m.isPrivate = false ∧ m.ismacro = false

/-- The slots of a class that has been compiled. -/
structure Class.Layout (c : Class Ty Body) : Prop where
  slots : Slots c.vindex c.vtable.length
  vindex_iff : ∀ sig, (c.vindex sig).isSome ↔ c.Public sig
  methods : ∀ sig i m, c.vindex sig = some i → c.methods.get sig = some m →
    m.func = some (.slot i) ∧ m.vfunc = c.vtable[i - 1]?
  macros : ∀ sig m, c.methods.get sig = some m → m.ismacro = sig.args.isNone

/-! ## What is inherited -/

section Inherited

variable {super : Option (Class Ty Body)} {order : Order (Sig Ty)}

theorem get_foldl_inherit (s : Class Ty Body) (l : List (Sig Ty))
    (t : Table (Sig Ty) (Method Ty Body)) (sig : Sig Ty) :
    (l.foldl s.inheritMethod t).get sig =
      if sig ∈ l then
        ((s.methods.get sig).bind fun m => if m.isPrivate then none else some m.inherit).or
          (t.get sig)
      else t.get sig := by
  induction l generalizing t with
  | nil => rfl
  | cons a l ih =>
      rw [List.foldl_cons, ih, Class.inheritMethod]
      by_cases ha : sig = a
      · subst ha
        cases hm : s.methods.get sig with
        | none => simp
        | some m => by_cases hp : m.isPrivate <;> simp [hp]
      · have hmem : sig ∈ a :: l ↔ sig ∈ l := by simp [ha]
        simp only [hmem]
        cases hm : s.methods.get a with
        | none => rfl
        | some m =>
            by_cases hp : m.isPrivate
            · simp [hp]
            · simp [hp, get_set_of_ne ha]

/-- The methods that are inherited are those that are not private. -/
theorem get_inheritFrom (sig : Sig Ty) :
    (inheritFrom super order).methods.get sig =
      super.bind fun s => (s.methods.get sig).bind fun m =>
        if m.isPrivate then none else some m.inherit := by
  cases super with
  | none => rfl
  | some s =>
      change ((order.apply s.methods.keys).foldl s.inheritMethod .empty).get sig = _
      rw [get_foldl_inherit]
      have hmem : sig ∈ order.apply s.methods.keys ↔ (s.methods.get sig).isSome :=
        (order.perm _).mem_iff.trans (s.methods.mem_keys sig)
      by_cases hs : (s.methods.get sig).isSome
      · simp [hmem, hs]
      · rw [if_neg fun h => hs (hmem.mp h), get_empty]
        simp [Option.not_isSome_iff_eq_none.mp hs]

end Inherited

/-! ## New methods and hooks -/

section Declared

omit [DecidableEq Ty] in
/-- Hooks of a method. -/
theorem declare_hooks {hs : List (Ast Ty Body)} {m : Method Ty Body}
    {v : Option (Method Ty Body)}
    (h : hs.foldlM (fun v a => some <$> declareMethod v a) (some m) = .ok v) :
    (∀ a ∈ hs, a.hook ≠ none) ∧
      v = some { m with inherited := if hs = [] then m.inherited else some m.vfunc } := by
  induction hs generalizing m with
  | nil =>
      obtain rfl := Except.ok.inj h
      exact ⟨fun _ hmem => absurd hmem List.not_mem_nil, rfl⟩
  | cons a hs ih =>
      rw [List.foldlM_cons] at h
      obtain ⟨v₁, hstep, hrest⟩ := bind_eq_ok_iff.mp h
      simp only [declareMethod] at hstep
      split at hstep
      · cases hstep
      · next hhook =>
          split at hstep
          · cases hstep
          · obtain rfl := Except.ok.inj hstep
            obtain ⟨hall, rfl⟩ := ih hrest
            refine ⟨List.forall_mem_cons.mpr ⟨?_, hall⟩, ?_⟩
            · rwa [Option.isNone_iff_eq_none] at hhook
            · simp

omit [DecidableEq Ty] in
/-- What the definitions with one signature make of a method. -/
theorem declare_cases {l : List (Ast Ty Body)} {v v' : Option (Method Ty Body)}
    (h : l.foldlM (fun v a => some <$> declareMethod v a) v = .ok v') :
    (v = none ∧ l = [] ∧ v' = none) ∨
    (∃ a hs, v = none ∧ l = a :: hs ∧ a.hook = none ∧ (∀ b ∈ hs, b.hook ≠ none) ∧
      v' = some { ast := some a, isPrivate := a.isPrivate, ismacro := a.ismacro,
                  inherited := if hs = [] then none else some none }) ∨
    (∃ m, v = some m ∧ (∀ b ∈ l, b.hook ≠ none) ∧
      v' = some { m with inherited := if l = [] then m.inherited else some m.vfunc }) := by
  cases v with
  | some m =>
      obtain ⟨hall, hv'⟩ := declare_hooks h
      exact .inr (.inr ⟨m, rfl, hall, hv'⟩)
  | none =>
      cases l with
      | nil =>
          obtain rfl := Except.ok.inj h
          exact .inl ⟨rfl, rfl, rfl⟩
      | cons a hs =>
          rw [List.foldlM_cons] at h
          obtain ⟨v₁, hstep, hrest⟩ := bind_eq_ok_iff.mp h
          simp only [declareMethod] at hstep
          split at hstep
          · cases hstep
          · next hhook =>
              obtain rfl := Except.ok.inj hstep
              obtain ⟨hall, hv'⟩ := declare_hooks hrest
              refine .inr (.inl ⟨a, hs, rfl, rfl, ?_, hall, hv'⟩)
              simpa using hhook

/-- The definitions with a signature. -/
def withSig (asts : List (Ast Ty Body)) (sig : Sig Ty) : List (Ast Ty Body) :=
  asts.filter fun a => a.sig = sig

theorem mem_withSig {asts : List (Ast Ty Body)} {sig : Sig Ty} {a : Ast Ty Body} :
    a ∈ withSig asts sig ↔ a ∈ asts ∧ a.sig = sig := by
  simp [withSig]

theorem get_declareMethods {asts : List (Ast Ty Body)}
    {t t' : Table (Sig Ty) (Method Ty Body)} (h : declareMethods asts t = .ok t')
    (sig : Sig Ty) :
    (withSig asts sig).foldlM (fun v a => some <$> declareMethod v a) (t.get sig) =
      .ok (t'.get sig) :=
  foldlM_keyed (f := declareMethod) h sig

end Declared

/-! ## Stubs -/

section Stubs

variable {c₁ c : Class Ty Body} {done : List (Sig Ty)} {sig : Sig Ty}

/-- A method of which there is a new implementation. -/
def Method.Implemented (m : Method Ty Body) : Prop :=
  m.ismacro = false ∧ (m.ast.isSome ∨ m.inherited.isSome)

/-- What is known when the stubs are to be made: the slots are those of the
superclass, and the methods without definition have one each. -/
structure Class.Unstubbed (c₁ : Class Ty Body) : Prop where
  slots : Slots c₁.vindex c₁.vtable.length
  inherited : ∀ sig i, c₁.vindex sig = some i → ∃ m, c₁.methods.get sig = some m ∧
    m.isPrivate = false ∧ m.ismacro = false ∧ m.ast = none ∧
    m.func = some (.slot i) ∧ m.vfunc = c₁.vtable[i - 1]?
  indexed : ∀ sig m, c₁.methods.get sig = some m → m.ast = none →
    m.isPrivate = false ∧ (m.ismacro = false → (c₁.vindex sig).isSome)
  new : ∀ sig m, c₁.methods.get sig = some m → m.ast.isSome → m.vfunc = none
  macros : ∀ sig m, c₁.methods.get sig = some m → m.ismacro = sig.args.isNone

/-- A method with its stub, given its slot. -/
def Method.withStub (m : Method Ty Body) (level : ℕ) (sig : Sig Ty) (i : Option ℕ) :
    Method Ty Body :=
  match i with
  | some i => { m with vfunc := some (.stub level sig), func := some (.slot i) }
  | none => { m with func := some (.stub level sig) }

/-- What the loop has done for some of the signatures. -/
structure Stubbed (c₁ : Class Ty Body) (done : List (Sig Ty)) (c : Class Ty Body) :
    Prop where
  level : c.level = c₁.level
  definition : c.definition = c₁.definition
  slots : Slots c.vindex c.vtable.length
  old : ∀ sig i, c₁.vindex sig = some i → c.vindex sig = some i
  vindex_iff : ∀ sig, (c.vindex sig).isSome ↔ (c₁.vindex sig).isSome ∨
    sig ∈ done ∧ ∃ m, c₁.methods.get sig = some m ∧ m.isPrivate = false ∧
      m.ismacro = false ∧ m.ast.isSome
  undone : ∀ sig ∉ done, c.methods.get sig = c₁.methods.get sig
  unimplemented : ∀ sig ∈ done, ∀ m, c₁.methods.get sig = some m → ¬ m.Implemented →
    c.methods.get sig = some m
  implemented : ∀ sig ∈ done, ∀ m, c₁.methods.get sig = some m → m.Implemented →
    c.methods.get sig = some (m.withStub c₁.level sig (c.vindex sig))
  missing : ∀ sig, c₁.methods.get sig = none → c.methods.get sig = none
  newSlot : ∀ sig i m, c.vindex sig = some i → sig ∈ done →
    c₁.methods.get sig = some m → m.Implemented →
    c.vtable[i - 1]? = some (.stub c₁.level sig)
  oldSlot : ∀ sig i, c.vindex sig = some i →
    (sig ∉ done ∨ ∀ m, c₁.methods.get sig = some m → ¬ m.Implemented) →
    c.vtable[i - 1]? = c₁.vtable[i - 1]?

omit [DecidableEq Ty] in
theorem stubbed_nil (h : c₁.Unstubbed) : Stubbed c₁ [] c₁ where
  level := rfl
  definition := rfl
  slots := h.slots
  old _ _ hi := hi
  vindex_iff _ := by simp
  undone _ _ := rfl
  unimplemented _ hmem := absurd hmem List.not_mem_nil
  implemented _ hmem := absurd hmem List.not_mem_nil
  missing _ hnone := hnone
  newSlot _ _ _ _ hmem := absurd hmem List.not_mem_nil
  oldSlot _ _ _ _ := rfl

omit [DecidableEq Ty] in
/-- A signature without new implementation. -/
theorem Stubbed.skip (h : Stubbed c₁ done c) (hdone : sig ∉ done)
    (hskip : ∀ m, c₁.methods.get sig = some m → ¬ m.Implemented) :
    Stubbed c₁ (done ++ [sig]) c where
  level := h.level
  definition := h.definition
  slots := h.slots
  old := h.old
  vindex_iff sig' := by
    rw [h.vindex_iff]
    refine or_congr_right ⟨fun ⟨hmem, hm⟩ => ⟨List.mem_append_left _ hmem, hm⟩, ?_⟩
    rintro ⟨hmem, m, hm, hpublic, hexpands, hast⟩
    rcases List.mem_append.mp hmem with hmem | hmem
    · exact ⟨hmem, m, hm, hpublic, hexpands, hast⟩
    · obtain rfl := List.mem_singleton.mp hmem
      exact absurd ⟨hexpands, .inl hast⟩ (hskip m hm)
  undone sig' hsig' := h.undone sig' fun hmem => hsig' (List.mem_append_left _ hmem)
  unimplemented sig' hmem m hm hnot := by
    rcases List.mem_append.mp hmem with hmem | hmem
    · exact h.unimplemented sig' hmem m hm hnot
    · obtain rfl := List.mem_singleton.mp hmem
      rw [h.undone _ hdone, hm]
  implemented sig' hmem m hm himpl := by
    rcases List.mem_append.mp hmem with hmem | hmem
    · exact h.implemented sig' hmem m hm himpl
    · obtain rfl := List.mem_singleton.mp hmem
      exact absurd himpl (hskip m hm)
  missing := h.missing
  newSlot sig' i m hi hmem hm himpl := by
    rcases List.mem_append.mp hmem with hmem | hmem
    · exact h.newSlot sig' i m hi hmem hm himpl
    · obtain rfl := List.mem_singleton.mp hmem
      exact absurd himpl (hskip m hm)
  oldSlot sig' i hi hor := by
    refine h.oldSlot sig' i hi ?_
    rcases hor with hnot | hall
    · exact .inl fun hmem => hnot (List.mem_append_left _ hmem)
    · exact .inr hall

/-- A method that gets a stub, in a slot or not. -/
theorem Stubbed.stub (h : Stubbed c₁ done c) (hdone : sig ∉ done) {m : Method Ty Body}
    (hm : c₁.methods.get sig = some m) (himpl : m.Implemented)
    {vindex : Sig Ty → Option ℕ} {vtable : List (Func Ty Body)}
    (hslots : Slots vindex vtable.length)
    (hother : ∀ sig', sig' ≠ sig → vindex sig' = c.vindex sig')
    (hold : ∀ i, c₁.vindex sig = some i → vindex sig = some i)
    (hsome : (vindex sig).isSome ↔ (c₁.vindex sig).isSome ∨
      m.isPrivate = false ∧ m.ast.isSome)
    (hslot : ∀ i, vindex sig = some i → vtable[i - 1]? = some (.stub c₁.level sig))
    (hrest : ∀ sig' i, sig' ≠ sig → c.vindex sig' = some i →
      vtable[i - 1]? = c.vtable[i - 1]?) :
    Stubbed c₁ (done ++ [sig]) { c with
      methods := c.methods.set sig (m.withStub c₁.level sig (vindex sig))
      vindex := vindex, vtable := vtable } where
  level := h.level
  definition := h.definition
  slots := hslots
  old sig' i hi := by
    by_cases hs : sig' = sig
    · subst hs
      exact hold i hi
    · exact (hother sig' hs).trans (h.old sig' i hi)
  vindex_iff sig' := by
    by_cases hs : sig' = sig
    · subst hs
      refine hsome.trans (or_congr_right ⟨fun ⟨hpublic, hast⟩ => ?_, ?_⟩)
      · exact ⟨by simp, m, hm, hpublic, himpl.1, hast⟩
      · rintro ⟨-, m', hm', hpublic, -, hast⟩
        obtain rfl := Option.some.inj (hm.symm.trans hm')
        exact ⟨hpublic, hast⟩
    · have hmem : sig' ∈ done ++ [sig] ↔ sig' ∈ done := by simp [hs]
      rw [hmem, ← h.vindex_iff, ← hother sig' hs]
  undone sig' hsig' := by
    have hs : sig' ≠ sig := by
      rintro rfl
      exact hsig' (by simp)
    change (c.methods.set sig _).get sig' = _
    rw [get_set_of_ne hs]
    exact h.undone sig' fun hmem => hsig' (List.mem_append_left _ hmem)
  unimplemented sig' hmem m' hm' hnot := by
    have hs : sig' ≠ sig := by
      rintro rfl
      obtain rfl := Option.some.inj (hm.symm.trans hm')
      exact hnot himpl
    change (c.methods.set sig _).get sig' = _
    rw [get_set_of_ne hs]
    exact h.unimplemented sig' (by simpa [hs] using hmem) m' hm' hnot
  implemented sig' hmem m' hm' himpl' := by
    by_cases hs : sig' = sig
    · subst hs
      obtain rfl := Option.some.inj (hm.symm.trans hm')
      exact get_set_self _ _ _
    · change (c.methods.set sig _).get sig' = some (m'.withStub _ sig' (vindex sig'))
      rw [get_set_of_ne hs, hother sig' hs]
      exact h.implemented sig' (by simpa [hs] using hmem) m' hm' himpl'
  missing sig' hnone := by
    have hs : sig' ≠ sig := by
      rintro rfl
      rw [hm] at hnone
      cases hnone
    change (c.methods.set sig _).get sig' = _
    rw [get_set_of_ne hs]
    exact h.missing sig' hnone
  newSlot sig' i m' hi hmem hm' himpl' := by
    by_cases hs : sig' = sig
    · subst hs
      exact hslot i hi
    · have hi' : c.vindex sig' = some i := (hother sig' hs).symm.trans hi
      rw [hrest sig' i hs hi']
      exact h.newSlot sig' i m' hi' (by simpa [hs] using hmem) hm' himpl'
  oldSlot sig' i hi hor := by
    have hs : sig' ≠ sig := by
      rintro rfl
      rcases hor with hnot | hall
      · exact hnot (by simp)
      · exact hall m hm himpl
    have hi' : c.vindex sig' = some i := (hother sig' hs).symm.trans hi
    rw [hrest sig' i hs hi']
    refine h.oldSlot sig' i hi' (hor.imp_left fun hnot hmem => ?_)
    exact hnot (List.mem_append_left _ hmem)

/-- The slot of a method of the superclass. -/
theorem Stubbed.replace (h : Stubbed c₁ done c) (h₁ : c₁.Unstubbed) (hdone : sig ∉ done)
    {m : Method Ty Body} (hm : c₁.methods.get sig = some m) (himpl : m.Implemented)
    {vidx : ℕ} (hvidx : c.vindex sig = some vidx) :
    Stubbed c₁ (done ++ [sig]) { c with
      methods := c.methods.set sig { m with vfunc := some (.stub c.level sig) }
      vtable := c.vtable.set (vidx - 1) (.stub c.level sig) } := by
  obtain ⟨h1, hn⟩ := h.slots.range sig vidx hvidx
  have hsome₁ : (c₁.vindex sig).isSome := by
    have hsome : (c.vindex sig).isSome := by rw [hvidx]; rfl
    rcases (h.vindex_iff sig).mp hsome with hsome | ⟨hmem, -⟩
    · exact hsome
    · exact absurd hmem hdone
  obtain ⟨i, hi⟩ := Option.isSome_iff_exists.mp hsome₁
  obtain rfl : vidx = i := Option.some.inj (hvidx.symm.trans (h.old sig i hi))
  obtain ⟨m', hm', -, -, -, hfunc, -⟩ := h₁.inherited sig vidx hi
  obtain rfl := Option.some.inj (hm.symm.trans hm')
  have hstub : ({ m with vfunc := some (.stub c.level sig) } : Method Ty Body) =
      m.withStub c₁.level sig (c.vindex sig) := by
    rw [hvidx, ← h.level, Method.withStub, ← hfunc]
  rw [hstub]
  refine h.stub hdone hm himpl ?_ (fun _ _ => rfl) (h.old sig) ?_ ?_ ?_
  · simpa using h.slots
  · simp [hvidx, hsome₁]
  · intro i hi
    obtain rfl := Option.some.inj (hvidx.symm.trans hi)
    rw [List.getElem?_set_self (by omega), h.level]
  · intro sig' i hs hi
    obtain ⟨h1', -⟩ := h.slots.range sig' i hi
    refine List.getElem?_set_ne fun heq => hs ?_
    obtain rfl : vidx = i := by omega
    exact h.slots.inj _ _ _ hi hvidx

/-- A private method, which has no slot. -/
theorem Stubbed.stubPrivate (h : Stubbed c₁ done c) (hdone : sig ∉ done)
    {m : Method Ty Body} (hm : c₁.methods.get sig = some m) (himpl : m.Implemented)
    (hnone : c.vindex sig = none) (hprivate : m.isPrivate = true) :
    Stubbed c₁ (done ++ [sig]) { c with
      methods := c.methods.set sig { m with func := some (.stub c.level sig) } } := by
  have hstub : ({ m with func := some (.stub c.level sig) } : Method Ty Body) =
      m.withStub c₁.level sig (c.vindex sig) := by
    rw [hnone, ← h.level, Method.withStub]
  rw [hstub]
  refine h.stub hdone hm himpl h.slots (fun _ _ => rfl) (h.old sig) ?_ ?_ fun _ _ _ _ => rfl
  · have hnone₁ : ¬ (c₁.vindex sig).isSome := fun hsome => by
      obtain ⟨i, hi⟩ := Option.isSome_iff_exists.mp hsome
      simp [h.old sig i hi] at hnone
    simp [hnone, hnone₁, hprivate]
  · intro i hi
    rw [hnone] at hi
    cases hi

/-- A new method, in the next slot. -/
theorem Stubbed.append (h : Stubbed c₁ done c) (h₁ : c₁.Unstubbed) (hdone : sig ∉ done)
    {m : Method Ty Body} (hm : c₁.methods.get sig = some m) (himpl : m.Implemented)
    (hnone : c.vindex sig = none) (hpublic : m.isPrivate = false) :
    Stubbed c₁ (done ++ [sig]) { c with
      methods := c.methods.set sig
        { m with vfunc := some (.stub c.level sig), func := some (.slot (c.vtable.length + 1)) }
      vindex := Function.update c.vindex sig (some (c.vtable.length + 1))
      vtable := c.vtable ++ [.stub c.level sig] } := by
  have hnone₁ : ¬ (c₁.vindex sig).isSome := fun hsome => by
    obtain ⟨i, hi⟩ := Option.isSome_iff_exists.mp hsome
    simp [h.old sig i hi] at hnone
  have hast : m.ast.isSome := by
    cases hast : m.ast with
    | none => exact absurd ((h₁.indexed sig m hm hast).2 himpl.1) hnone₁
    | some ast => rfl
  have hstub : ({ m with
      vfunc := some (.stub c.level sig)
      func := some (.slot (c.vtable.length + 1)) } : Method Ty Body) =
      m.withStub c₁.level sig
        (Function.update c.vindex sig (some (c.vtable.length + 1)) sig) := by
    rw [Function.update_self, ← h.level, Method.withStub]
  rw [hstub]
  refine h.stub hdone hm himpl ?_ (fun _ hs => Function.update_of_ne hs _ _) ?_ ?_ ?_ ?_
  · simpa using h.slots.push hnone
  · intro i hi
    simp [hi] at hnone₁
  · simp [hpublic, hast]
  · intro i hi
    rw [Function.update_self] at hi
    obtain rfl := Option.some.inj hi
    simp [h.level]
  · intro sig' i hs hi
    obtain ⟨h1, hn⟩ := h.slots.range sig' i hi
    exact List.getElem?_append_left (by omega)

theorem Stubbed.makeStub (h₁ : c₁.Unstubbed) (h : Stubbed c₁ done c) (hdone : sig ∉ done) :
    Stubbed c₁ (done ++ [sig]) (c.makeStub sig) := by
  have hget : c.methods.get sig = c₁.methods.get sig := h.undone sig hdone
  rw [Class.makeStub, hget]
  cases hm : c₁.methods.get sig with
  | none => exact h.skip hdone fun m' hm' => by simp [hm] at hm'
  | some m =>
      dsimp only
      split
      · next hnot =>
          refine h.skip hdone fun m' hm' => ?_
          obtain rfl := Option.some.inj (hm.symm.trans hm')
          rintro ⟨hexpands, himpl⟩
          simp [hexpands] at hnot
          simp [hnot] at himpl
      · next himpl =>
          have himpl : m.Implemented := by
            simp only [not_or, Bool.not_eq_true, not_and] at himpl
            refine ⟨himpl.1, ?_⟩
            cases hast : m.ast with
            | none => exact .inr (by simpa using himpl.2 (by simp [hast]))
            | some ast => exact .inl rfl
          split
          · next vidx hvidx =>
              exact h.replace h₁ hdone hm himpl hvidx
          · next hnone =>
              split
              · next hprivate => exact h.stubPrivate hdone hm himpl hnone hprivate
              · next hpublic =>
                  exact h.append h₁ hdone hm himpl hnone (by simpa using hpublic)

theorem stubbed_foldl (h₁ : c₁.Unstubbed) {l : List (Sig Ty)} (h : Stubbed c₁ done c)
    (hnodup : (done ++ l).Nodup) : Stubbed c₁ (done ++ l) (l.foldl Class.makeStub c) := by
  induction l generalizing done c with
  | nil => simpa using h
  | cons sig l ih =>
      have hdone : sig ∉ done := fun hmem =>
        (List.nodup_append.mp hnodup).2.2 sig hmem sig List.mem_cons_self rfl
      have hcat : done ++ sig :: l = done ++ [sig] ++ l := by simp
      rw [hcat] at hnodup ⊢
      exact ih (h.makeStub h₁ hdone) hnodup

end Stubs

/-! ## What is declared -/

section Unstubbed

variable {super : Option (Class Ty Body)} {order : Order (Sig Ty)}
  {asts : List (Ast Ty Body)} {t : Table (Sig Ty) (Method Ty Body)}

omit [DecidableEq Ty] in
theorem sig_args (ast : Ast Ty Body) : ast.sig.args.isNone = ast.ismacro := by
  cases hast : ast.ismacro <;> simp [Ast.sig, hast]

/-- A method after the new methods and the hooks are added. -/
theorem declared_cases (h : declareMethods asts (inheritFrom super order).methods = .ok t)
    {sig : Sig Ty} {m : Method Ty Body} (hm : t.get sig = some m) :
    (∃ a hs, withSig asts sig = a :: hs ∧ a.hook = none ∧ (∀ b ∈ hs, b.hook ≠ none) ∧
      (inheritFrom super order).methods.get sig = none ∧
      m = { ast := some a, isPrivate := a.isPrivate, ismacro := a.ismacro,
            inherited := if hs = [] then none else some none }) ∨
    (∃ s m₀, super = some s ∧ s.methods.get sig = some m₀ ∧ m₀.isPrivate = false ∧
      (∀ b ∈ withSig asts sig, b.hook ≠ none) ∧
      m = { m₀.inherit with
        inherited := if withSig asts sig = [] then none else some m₀.vfunc }) := by
  have hrun := get_declareMethods h sig
  rw [hm] at hrun
  rcases declare_cases hrun with ⟨-, -, hnone⟩ | ⟨a, hs, hv, hl, ha, hhs, hm'⟩ | ⟨m₁, hv, hall, hm'⟩
  · cases hnone
  · exact .inl ⟨a, hs, hl, ha, hhs, hv, Option.some.inj hm'⟩
  · rw [get_inheritFrom] at hv
    obtain ⟨s, rfl, hs⟩ := Option.bind_eq_some_iff.mp hv
    obtain ⟨m₀, hm₀, hv₀⟩ := Option.bind_eq_some_iff.mp hs
    split at hv₀
    · cases hv₀
    · next hpublic =>
        obtain rfl := Option.some.inj hv₀
        refine .inr ⟨s, m₀, rfl, hm₀, by simpa using hpublic, hall, Option.some.inj hm'⟩

/-- What the superclass leaves to the stubs. -/
theorem unstubbed_of_declare (hsuper : ∀ s, super = some s → s.Layout)
    (h : declareMethods asts (inheritFrom super order).methods = .ok t) :
    Class.Unstubbed { inheritFrom super order with methods := t } where
  slots := by
    cases super with
    | none => exact slots_empty
    | some s => exact (hsuper s rfl).slots
  inherited sig i hi := by
    cases super with
    | none => cases hi
    | some s =>
        have hlayout := hsuper s rfl
        have hsome : (s.vindex sig).isSome := Option.isSome_iff_exists.mpr ⟨i, hi⟩
        obtain ⟨m₀, hm₀, hpublic, hexpands⟩ := (hlayout.vindex_iff sig).mp hsome
        obtain ⟨hfunc, hvfunc⟩ := hlayout.methods sig i m₀ hi hm₀
        have hv : (inheritFrom (some s) order).methods.get sig = some m₀.inherit := by
          simp [get_inheritFrom, hm₀, hpublic]
        have hrun := get_declareMethods h sig
        rw [hv] at hrun
        rcases declare_cases hrun with ⟨hnone, -⟩ | ⟨-, -, hnone, -⟩ | ⟨m₁, hv₁, -, hm⟩
        · cases hnone
        · cases hnone
        · obtain rfl := Option.some.inj hv₁
          exact ⟨_, hm, rfl, hexpands, rfl, hfunc, hvfunc⟩
  indexed sig m hm hast := by
    rcases declared_cases h hm with ⟨a, hs, -, -, -, -, rfl⟩ | ⟨s, m₀, rfl, hm₀, hpublic, -, rfl⟩
    · cases hast
    · refine ⟨rfl, fun hexpands => ?_⟩
      exact ((hsuper s rfl).vindex_iff sig).mpr ⟨m₀, hm₀, hpublic, hexpands⟩
  new sig m hm hast := by
    rcases declared_cases h hm with ⟨a, hs, -, -, -, -, rfl⟩ | ⟨s, m₀, rfl, hm₀, hpublic, -, rfl⟩
    · rfl
    · cases hast
  macros sig m hm := by
    rcases declared_cases h hm with ⟨a, hs, hl, -, -, -, rfl⟩ | ⟨s, m₀, rfl, hm₀, -, -, rfl⟩
    · have hmem : a ∈ withSig asts sig := by simp [hl]
      rw [← (mem_withSig.mp hmem).2, sig_args]
    · exact (hsuper s rfl).macros sig m₀ hm₀

end Unstubbed

end LuaAttic.Terra
