import Mathlib.Order.Defs.Unbundled
import Mathlib.Data.List.Basic

/-!
# Programs that raise errors and keep their state

A program over a state `σ` is an `EStateM`: it returns a value or raises an
error, and in both cases the state it has reached stays.  This is how a
procedure of a scripting language behaves when its caller catches the error:
the assignments made before the error are not rolled back.

The module gives the rules that proofs about such programs use: running a
sequence, relating the state before a program to the state it leaves behind,
and telling apart where it returns from where it raises.
-/

namespace LuaAttic.Support

variable {ε σ α β : Type}

/-! ## The state left behind -/

/-- The state a program leaves behind, whether it returns or raises. -/
def finalState (m : EStateM ε σ α) (s : σ) : σ :=
  match m s with
  | .ok _ t => t
  | .error _ t => t

/-- The program returns: it raises no error. -/
def Returns (m : EStateM ε σ α) (s : σ) : Prop :=
  ∃ a t, m s = .ok a t

/-- The Boolean form of `Returns`. -/
def returnsCheck (m : EStateM ε σ α) (s : σ) : Bool :=
  match m s with
  | .ok _ _ => true
  | .error _ _ => false

theorem returnsCheck_eq_true_iff (m : EStateM ε σ α) (s : σ) :
    returnsCheck m s = true ↔ Returns m s := by
  unfold returnsCheck Returns
  cases h : m s <;> simp

theorem finalState_of_ok {m : EStateM ε σ α} {s t : σ} {a : α}
    (h : m s = .ok a t) : finalState m s = t := by
  simp [finalState, h]

theorem finalState_of_error {m : EStateM ε σ α} {s t : σ} {e : ε}
    (h : m s = .error e t) : finalState m s = t := by
  simp [finalState, h]

theorem returns_of_ok {m : EStateM ε σ α} {s t : σ} {a : α}
    (h : m s = .ok a t) : Returns m s :=
  ⟨a, t, h⟩

theorem not_returns_of_error {m : EStateM ε σ α} {s t : σ} {e : ε}
    (h : m s = .error e t) : ¬ Returns m s := by
  rintro ⟨a, u, hok⟩
  rw [h] at hok
  cases hok

/-! ## Running a sequence -/

theorem bind_of_ok {m : EStateM ε σ α} {f : α → EStateM ε σ β}
    {s t : σ} {a : α} (h : m s = .ok a t) : (m >>= f) s = f a t := by
  simp [bind, EStateM.bind, h]

theorem bind_of_error {m : EStateM ε σ α} {f : α → EStateM ε σ β}
    {s t : σ} {e : ε} (h : m s = .error e t) :
    (m >>= f) s = .error e t := by
  simp [bind, EStateM.bind, h]

/-- A sequence that returns does so in both parts. -/
theorem exists_of_bind_ok {m : EStateM ε σ α} {f : α → EStateM ε σ β} {s u : σ} {b : β}
    (h : (m >>= f) s = .ok b u) : ∃ a t, m s = .ok a t ∧ f a t = .ok b u := by
  cases hm : m s with
  | ok a t => exact ⟨a, t, rfl, (bind_of_ok hm).symm.trans h⟩
  | error e t =>
      rw [bind_of_error hm] at h
      cases h

theorem finalState_bind_of_ok {m : EStateM ε σ α} {f : α → EStateM ε σ β}
    {s t : σ} {a : α} (h : m s = .ok a t) :
    finalState (m >>= f) s = finalState (f a) t := by
  rw [finalState, finalState, bind_of_ok h]

@[simp] theorem get_bind_apply (f : σ → EStateM ε σ β) (s : σ) :
    ((get : EStateM ε σ σ) >>= f) s = f s s := rfl

@[simp] theorem set_bind_apply (t : σ) (f : PUnit → EStateM ε σ β) (s : σ) :
    ((set t : EStateM ε σ PUnit) >>= f) s = f ⟨⟩ t := rfl

@[simp] theorem modify_bind_apply (g : σ → σ) (f : PUnit → EStateM ε σ β)
    (s : σ) :
    ((modify g : EStateM ε σ PUnit) >>= f) s = f ⟨⟩ (g s) := rfl

@[simp] theorem pure_apply (a : α) (s : σ) :
    (pure a : EStateM ε σ α) s = .ok a s := rfl

@[simp] theorem get_apply (s : σ) :
    (get : EStateM ε σ σ) s = .ok s s := rfl

@[simp] theorem set_apply (t s : σ) :
    (set t : EStateM ε σ PUnit) s = .ok ⟨⟩ t := rfl

@[simp] theorem modify_apply (g : σ → σ) (s : σ) :
    (modify g : EStateM ε σ PUnit) s = .ok ⟨⟩ (g s) := rfl

@[simp] theorem throw_apply (e : ε) (s : σ) :
    (throw e : EStateM ε σ α) s = .error e s := rfl

@[simp] theorem ofExcept_ok_bind (a : α) (f : α → EStateM ε σ β) :
    (MonadExcept.ofExcept (.ok a) >>= f : EStateM ε σ β) = f a := rfl

/-- A computation that returns changes nothing. -/
theorem of_ofExcept_ok {x : Except ε α} {s t : σ} {a : α}
    (h : (MonadExcept.ofExcept x : EStateM ε σ α) s = .ok a t) : x = .ok a ∧ t = s := by
  cases x with
  | ok b =>
      cases h
      exact ⟨rfl, rfl⟩
  | error e => cases h

/-! ## Relating the state before to the state after -/

/-- From `s` the program ends, by returning or raising, in a state related
to `s`. -/
def Relates (R : σ → σ → Prop) (m : EStateM ε σ α) (s : σ) : Prop :=
  R s (finalState m s)

theorem Relates.of_ok {R : σ → σ → Prop} {m : EStateM ε σ α} {s t : σ} {a : α}
    (h : Relates R m s) (hok : m s = .ok a t) : R s t := by
  simpa [Relates, finalState_of_ok hok] using h

theorem Relates.get_bind {R : σ → σ → Prop} {f : σ → EStateM ε σ β} {s : σ}
    (h : Relates R (f s) s) : Relates R (get >>= f) s := h

section Preorder

variable {R : σ → σ → Prop} [IsPreorder σ R]

theorem Relates.pure (a : α) (s : σ) :
    Relates R (Pure.pure a : EStateM ε σ α) s :=
  refl_of R s

theorem Relates.throw (e : ε) (s : σ) :
    Relates R (MonadExcept.throw e : EStateM ε σ α) s :=
  refl_of R s

theorem Relates.bind {m : EStateM ε σ α} {f : α → EStateM ε σ β} {s : σ}
    (hm : Relates R m s)
    (hf : ∀ a t, m s = .ok a t → Relates R (f a) t) :
    Relates R (m >>= f) s := by
  cases h : m s with
  | ok a t =>
      have hst : R s t := hm.of_ok h
      have htu := hf a t h
      rw [Relates, finalState, bind_of_ok h]
      exact trans_of R hst htu
  | error e t =>
      rw [Relates, finalState_of_error (bind_of_error h)]
      simpa [Relates, finalState_of_error h] using hm

theorem Relates.ofExcept (x : Except ε α) (s : σ) :
    Relates R (MonadExcept.ofExcept x : EStateM ε σ α) s := by
  cases x with
  | ok a => exact Relates.pure a s
  | error e => exact Relates.throw e s

/-- A computation without a state does not change the state. -/
theorem Relates.ofExcept_bind {x : Except ε α} {f : α → EStateM ε σ β} {s : σ}
    (h : ∀ a, x = .ok a → Relates R (f a) s) :
    Relates R (MonadExcept.ofExcept x >>= f) s := by
  cases x with
  | ok a => exact h a rfl
  | error e => exact refl_of R s

theorem Relates.set_bind {f : PUnit → EStateM ε σ β} {s t : σ} (hst : R s t)
    (h : Relates R (f ⟨⟩) t) :
    Relates R (MonadStateOf.set t >>= f : EStateM ε σ β) s :=
  trans_of R hst h

end Preorder

/-! ## Keeping an invariant -/

/-- The invariant holds of `t` if it holds of `s`. -/
def Preserves (I : σ → Prop) (s t : σ) : Prop := I s → I t

instance (I : σ → Prop) : IsPreorder σ (Preserves I) where
  refl _ := id
  trans _ _ _ h k := k ∘ h

/-- That a program keeps an invariant may be shown where it holds. -/
theorem Relates.of_inv {I : σ → Prop} {m : EStateM ε σ α} {s : σ}
    (h : I s → Relates (Preserves I) m s) : Relates (Preserves I) m s :=
  fun hs => h hs hs

/-! ## Where a program ends -/

/-- From `s` the program returns a value and a state with `ok`, or raises in a
state with `raised`. -/
def Ends (m : EStateM ε σ α) (s : σ) (ok : α → σ → Prop)
    (raised : σ → Prop) : Prop :=
  match m s with
  | .ok a t => ok a t
  | .error _ t => raised t

section Ends

variable {m : EStateM ε σ α} {s : σ} {Q Q' : α → σ → Prop} {R R' : σ → Prop}

theorem Ends.of_ok {a : α} {t : σ} (h : m s = .ok a t) (ht : Q a t) :
    Ends m s Q R := by
  rwa [Ends, h]

theorem Ends.of_error {e : ε} {t : σ} (h : m s = .error e t)
    (ht : R t) : Ends m s Q R := by
  rwa [Ends, h]

theorem Ends.pure {a : α} (h : Q a s) :
    Ends (Pure.pure a : EStateM ε σ α) s Q R := h

theorem Ends.throw {e : ε} (h : R s) :
    Ends (MonadExcept.throw e : EStateM ε σ α) s Q R := h

theorem Ends.ofExcept {x : Except ε α} (hok : ∀ a, x = .ok a → Q a s)
    (hraised : R s) :
    Ends (MonadExcept.ofExcept x : EStateM ε σ α) s Q R := by
  cases x with
  | ok a => exact hok a rfl
  | error e => exact hraised

theorem Ends.get_bind {f : σ → EStateM ε σ α} (h : Ends (f s) s Q R) :
    Ends (get >>= f) s Q R := h

theorem Ends.set {t : σ} {Q : PUnit → σ → Prop} (h : Q ⟨⟩ t) :
    Ends (MonadStateOf.set t : EStateM ε σ PUnit) s Q R := h

theorem Ends.modify {g : σ → σ} {Q : PUnit → σ → Prop} (h : Q ⟨⟩ (g s)) :
    Ends (modify g : EStateM ε σ PUnit) s Q R := h

theorem Ends.mono (h : Ends m s Q R)
    (hok : ∀ a t, Q a t → Q' a t)
    (hraised : ∀ t, R t → R' t) : Ends m s Q' R' := by
  cases hm : m s with
  | ok a t =>
      rw [Ends, hm] at h
      exact Ends.of_ok hm (hok a t h)
  | error e t =>
      rw [Ends, hm] at h
      exact Ends.of_error hm (hraised t h)

theorem Ends.bind {f : α → EStateM ε σ β} {done : β → σ → Prop}
    (hm : Ends m s Q R) (hf : ∀ a t, Q a t → Ends (f a) t done R) :
    Ends (m >>= f) s done R := by
  cases h : m s with
  | ok a t =>
      rw [Ends, h] at hm
      rw [Ends, bind_of_ok h]
      exact hf a t hm
  | error e t =>
      rw [Ends, h] at hm
      exact Ends.of_error (bind_of_error h) hm

/-- What holds wherever a program ends holds of the state it leaves behind. -/
theorem Ends.final {I : σ → Prop} (h : Ends m s (fun _ => I) I) :
    I (finalState m s) := by
  cases hm : m s with
  | ok a t => simpa [Ends, finalState, hm] using h
  | error e t => simpa [Ends, finalState, hm] using h

theorem Ends.of_final {I : σ → Prop} (h : I (finalState m s)) :
    Ends m s (fun _ => I) I := by
  cases hm : m s with
  | ok a t => exact Ends.of_ok hm (finalState_of_ok hm ▸ h)
  | error e t => exact Ends.of_error hm (finalState_of_error hm ▸ h)

instance Ends.decidable (m : EStateM ε σ α) (s : σ) (Q : α → σ → Prop)
    (R : σ → Prop) [∀ a t, Decidable (Q a t)] [∀ t, Decidable (R t)] :
    Decidable (Ends m s Q R) :=
  match h : m s with
  | .ok a t => decidable_of_iff (Q a t) (by rw [Ends, h])
  | .error _ t => decidable_of_iff (R t) (by rw [Ends, h])

/-- A program that does not raise. -/
theorem Ends.exists_ok (h : Ends m s Q fun _ => False) :
    ∃ a t, m s = .ok a t ∧ Q a t := by
  cases hm : m s with
  | ok a t =>
      rw [Ends, hm] at h
      exact ⟨a, t, rfl, h⟩
  | error e t =>
      rw [Ends, hm] at h
      exact h.elim

end Ends

/-! ## Keeping an invariant unless something happens -/

/-- The program relates states, and from a state with the invariant it returns to one, unless
something has happened. -/
def KeepsUnless (R : σ → σ → Prop) (happened I : σ → Prop) (m : EStateM ε σ α) (s : σ) : Prop :=
  Relates R m s ∧ (I s → Ends m s (fun _ t => happened t ∨ I t) happened)

section KeepsUnless

variable {R : σ → σ → Prop} {happened I : σ → Prop} {m : EStateM ε σ α} {s : σ}

/-- What stays when states are related is so wherever a program ends. -/
theorem Ends.of_stays {done : α → σ → Prop} (hstays : ∀ s t, R s t → happened s → happened t)
    (h : happened s) (hm : Relates R m s) :
    Ends m s (fun a t => happened t ∨ done a t) happened :=
  (Ends.of_final (hstays s _ hm h)).mono (fun _ _ => Or.inl) fun _ => id

theorem KeepsUnless.of_ok {a : α} {t : σ} (hok : m s = .ok a t) (hst : R s t)
    (hI : I s → I t) : KeepsUnless R happened I m s := by
  refine ⟨?_, fun hs => Ends.of_ok hok (Or.inr (hI hs))⟩
  rwa [Relates, finalState_of_ok hok]

theorem KeepsUnless.bind_ok [IsPreorder σ R] {f : α → EStateM ε σ β}
    (hstays : ∀ s t, R s t → happened s → happened t) (hm : KeepsUnless R happened I m s)
    (hf : ∀ a t, m s = .ok a t → KeepsUnless R happened I (f a) t) :
    KeepsUnless R happened I (m >>= f) s := by
  refine ⟨hm.1.bind fun a t hok => (hf a t hok).1, fun hs => ?_⟩
  have hends := hm.2 hs
  cases hok : m s with
  | error e t =>
      rw [Ends, hok] at hends
      exact Ends.of_error (bind_of_error hok) hends
  | ok a t =>
      rw [Ends, hok] at hends
      rw [Ends, bind_of_ok hok]
      rcases hends with hhappened | hI
      · exact Ends.of_stays hstays hhappened (hf a t hok).1
      · exact (hf a t hok).2 hI

end KeepsUnless

/-! ## Computations without a state -/

/-- The computation returns a value with `Q`. -/
def Gives (x : Except ε α) (Q : α → Prop) : Prop := ∃ a, x = .ok a ∧ Q a

/-- The value that a computation returns, with the fact that it does. -/
def attach (x : Except ε α) : Except ε {a // x = .ok a} :=
  match x with
  | .ok a => .ok ⟨a, rfl⟩
  | .error e => .error e

theorem attach_of_ok {x : Except ε α} {a : α} (h : x = .ok a) :
    attach x = .ok ⟨a, h⟩ := by
  subst h
  rfl

/-- A computation that raises ends the program it stands in. -/
theorem ofExcept_attach_bind_of_error {x : Except ε α} {e : ε}
    (h : x = .error e) (f : {a // x = .ok a} → EStateM ε σ β) (s : σ) :
    (MonadExcept.ofExcept (attach x) >>= f : EStateM ε σ β) s = .error e s := by
  subst h
  rfl

section Gives

variable {x : Except ε α} {Q : α → Prop}

theorem Gives.ok {a : α} (h : Q a) : Gives (.ok a : Except ε α) Q := ⟨a, rfl, h⟩

theorem Gives.pure {a : α} (h : Q a) : Gives (Pure.pure a : Except ε α) Q :=
  ⟨a, rfl, h⟩

theorem Gives.mono {Q' : α → Prop} (h : Gives x Q) (hQ : ∀ a, Q a → Q' a) :
    Gives x Q' := by
  obtain ⟨a, hx, ha⟩ := h
  exact ⟨a, hx, hQ a ha⟩

theorem Gives.bind {f : α → Except ε β} {Q' : β → Prop} (h : Gives x Q)
    (hf : ∀ a, Q a → Gives (f a) Q') : Gives (x >>= f) Q' := by
  obtain ⟨a, rfl, ha⟩ := h
  exact hf a ha

/-- A sequence that returns does so in both parts. -/
theorem exists_of_bind_eq_ok {f : α → Except ε β} {b : β}
    (h : (x >>= f) = .ok b) : ∃ a, x = .ok a ∧ f a = .ok b := by
  cases x with
  | ok a => exact ⟨a, rfl, h⟩
  | error e => cases h

/-- In a program, a computation that returns a value changes nothing. -/
theorem Ends.of_gives {s : σ} {raised : σ → Prop} (h : Gives x Q) :
    Ends (MonadExcept.ofExcept x : EStateM ε σ α) s
      (fun a t => s = t ∧ Q a) raised := by
  obtain ⟨a, rfl, ha⟩ := h
  exact Ends.pure ⟨rfl, ha⟩

end Gives

end LuaAttic.Support
