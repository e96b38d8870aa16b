import Mathlib.Data.List.Basic

/-!
# Computations that may raise

When a computation in `Except` returns, for the ways in which such computations
are put together.  A loop over a list returns when each of its steps does, as
long as that is a matter of the element alone.
-/

namespace LuaAttic.Support

variable {ε α β : Type*}

/-- The computation does not raise. -/
def IsOk (x : Except ε α) : Prop := ∃ a, x = .ok a

@[simp] theorem isOk_ok (a : α) : IsOk (.ok a : Except ε α) := ⟨a, rfl⟩

@[simp] theorem isOk_pure (a : α) : IsOk (pure a : Except ε α) := ⟨a, rfl⟩

@[simp] theorem not_isOk_error (e : ε) : ¬ IsOk (.error e : Except ε α) :=
  nofun

section Composition

variable {α β ε : Type _}

theorem ok_bind (a : α) (f : α → Except ε β) : Except.ok a >>= f = f a := rfl

theorem bind_eq_ok_iff {x : Except ε α} {f : α → Except ε β} {b : β} :
    x >>= f = .ok b ↔ ∃ a, x = .ok a ∧ f a = .ok b := by
  cases x with
  | error e => exact iff_of_false nofun nofun
  | ok a => exact ⟨fun h => ⟨a, rfl, h⟩, fun ⟨_, rfl, h⟩ => h⟩

theorem isOk_bind_iff {x : Except ε α} {f : α → Except ε β} :
    IsOk (x >>= f) ↔ ∃ a, x = .ok a ∧ IsOk (f a) := by
  simp only [IsOk, bind_eq_ok_iff]
  exact ⟨fun ⟨b, a, ha, hb⟩ => ⟨a, ha, b, hb⟩, fun ⟨a, ha, b, hb⟩ => ⟨b, a, ha, hb⟩⟩

/-- What comes next does not depend on the value. -/
theorem isOk_bind_and {x : Except ε α} {f : α → Except ε β} {P : Prop}
    (hf : ∀ a, x = .ok a → (IsOk (f a) ↔ P)) :
    IsOk (x >>= f) ↔ IsOk x ∧ P := by
  rw [isOk_bind_iff]
  constructor
  · rintro ⟨a, ha, hr⟩
    exact ⟨⟨a, ha⟩, (hf a ha).mp hr⟩
  · rintro ⟨⟨a, ha⟩, hP⟩
    exact ⟨a, ha, (hf a ha).mpr hP⟩

/-- What comes next always returns. -/
theorem isOk_bind_left {x : Except ε α} {f : α → Except ε β}
    (hf : ∀ a, IsOk (f a)) : IsOk (x >>= f) ↔ IsOk x := by
  rw [isOk_bind_and (P := True) fun a _ => iff_true_intro (hf a), and_true]

@[simp] theorem isOk_map_iff {x : Except ε α} {f : α → β} :
    IsOk (f <$> x) ↔ IsOk x := by
  cases x with
  | error e => exact iff_of_false nofun nofun
  | ok a => exact iff_of_true ⟨f a, rfl⟩ ⟨a, rfl⟩

end Composition

section Loops

variable {α β ε : Type _}

theorem isOk_foldlM_iff {f : β → α → Except ε β} {P : α → Prop}
    (hf : ∀ b a, IsOk (f b a) ↔ P a) (l : List α) (b : β) :
    IsOk (l.foldlM f b) ↔ ∀ a ∈ l, P a := by
  induction l generalizing b with
  | nil => simp
  | cons a l ih =>
      rw [List.foldlM_cons, isOk_bind_and fun b' _ => ih b', hf,
        List.forall_mem_cons]

theorem isOk_mapM_iff {f : α → Except ε β} {P : α → Prop}
    (hf : ∀ a, IsOk (f a) ↔ P a) (l : List α) :
    IsOk (l.mapM f) ↔ ∀ a ∈ l, P a := by
  induction l with
  | nil => simp
  | cons a l ih =>
      rw [List.mapM_cons, isOk_bind_and fun b _ => isOk_bind_left fun _ =>
        isOk_pure _, hf, ih, List.forall_mem_cons]

theorem mapM_eq_ok {f : α → Except ε β} {g : α → β} {l : List α}
    (h : ∀ a ∈ l, f a = .ok (g a)) : l.mapM f = .ok (l.map g) := by
  induction l with
  | nil => rfl
  | cons a l ih =>
      obtain ⟨ha, hl⟩ := List.forall_mem_cons.mp h
      rw [List.mapM_cons, ha, ih hl]
      rfl

/-- A loop over what another one gives. -/
theorem foldlM_of_mapM {γ : Type _} {f : α → Except ε γ} {g : β → γ → Except ε β}
    {l : List α} {cs : List γ} (h : l.mapM f = .ok cs) (b : β) :
    l.foldlM (fun b a => do g b (← f a)) b = cs.foldlM g b := by
  induction l generalizing cs b with
  | nil =>
      obtain rfl := Except.ok.inj h
      rfl
  | cons a l ih =>
      rw [List.mapM_cons] at h
      obtain ⟨c, hc, h⟩ := bind_eq_ok_iff.mp h
      obtain ⟨cs', hcs, h⟩ := bind_eq_ok_iff.mp h
      obtain rfl := Except.ok.inj h
      rw [List.foldlM_cons, List.foldlM_cons, hc, ok_bind]
      congr 1
      funext b'
      exact ih hcs b'

theorem exists_of_mem_mapM {f : α → Except ε β} {l : List α} {r : List β}
    (h : l.mapM f = .ok r) {b : β} (hb : b ∈ r) : ∃ a ∈ l, f a = .ok b := by
  induction l generalizing r with
  | nil =>
      cases h
      exact absurd hb List.not_mem_nil
  | cons a l ih =>
      rw [List.mapM_cons] at h
      obtain ⟨c, hc, h⟩ := bind_eq_ok_iff.mp h
      obtain ⟨r', hr', h⟩ := bind_eq_ok_iff.mp h
      cases h
      rcases List.mem_cons.mp hb with rfl | hb
      · exact ⟨a, List.mem_cons_self, hc⟩
      · obtain ⟨a', ha', hfa'⟩ := ih hr' hb
        exact ⟨a', List.mem_cons_of_mem a ha', hfa'⟩

end Loops

/-! ## Loops that may stop -/

section Options

variable {α β : Type*} {f : β → α → Option β}

/-- What a step keeps, the loop keeps. -/
theorem foldlM_keeps {P : β → Prop} (hP : ∀ b a b', f b a = some b' → P b → P b')
    {l : List α} {b b' : β} (h : l.foldlM f b = some b') (hb : P b) : P b' := by
  induction l generalizing b with
  | nil =>
      rw [List.foldlM_nil] at h
      injection h with h
      rwa [← h]
  | cons a l ih =>
      rw [List.foldlM_cons, Option.bind_eq_bind, Option.bind_eq_some_iff] at h
      obtain ⟨next, hnext, hrest⟩ := h
      exact ih hrest (hP b a next hnext hb)

/-- What one of the steps brings about is there in the end. -/
theorem foldlM_reaches {P Q : β → Prop} (hP : ∀ b a b', f b a = some b' → P b → P b')
    (hQ : ∀ b a b', f b a = some b' → Q b → Q b') {a : α}
    (ha : ∀ b b', f b a = some b' → P b → Q b') {l : List α} (hmem : a ∈ l) {b b' : β}
    (h : l.foldlM f b = some b') (hb : P b) : Q b' := by
  induction l generalizing b with
  | nil => exact absurd hmem List.not_mem_nil
  | cons c l ih =>
      rw [List.foldlM_cons, Option.bind_eq_bind, Option.bind_eq_some_iff] at h
      obtain ⟨next, hnext, hrest⟩ := h
      rcases List.mem_cons.mp hmem with rfl | hmem
      · exact foldlM_keeps hQ hrest (ha b next hnext hb)
      · exact ih hmem hrest (hP b c next hnext hb)

/-- A loop whose steps are those of another, seen through a map. -/
theorem map_foldlM {γ : Type*} {φ : β → γ} {g : γ → α → Option γ}
    (hstep : ∀ b a, (f b a).map φ = g (φ b) a) (l : List α) (b : β) :
    (l.foldlM f b).map φ = l.foldlM g (φ b) := by
  induction l generalizing b with
  | nil => rfl
  | cons a l ih =>
      rw [List.foldlM_cons, List.foldlM_cons, ← hstep]
      cases f b a with
      | none => rfl
      | some next => exact ih next

/-- A loop whose steps end where those of another do. -/
theorem foldlM_mono {g : β → α → Option β} (hstep : ∀ b a b', f b a = some b' → g b a = some b')
    {l : List α} {b b' : β} (h : l.foldlM f b = some b') : l.foldlM g b = some b' := by
  induction l generalizing b with
  | nil => exact h
  | cons a l ih =>
      rw [List.foldlM_cons, Option.bind_eq_bind, Option.bind_eq_some_iff] at h
      obtain ⟨next, hnext, hrest⟩ := h
      rw [List.foldlM_cons, hstep b a next hnext]
      exact ih hrest

end Options

end LuaAttic.Support
