import Mathlib.Order.Defs.Unbundled
import Mathlib.Data.List.Basic

/-!
# Runs of a state machine

A run feeds a list of requests to a step function.  What is allowed may depend
on the state in which a request is served, so the side condition of a run is a
recursion along it.  The induction rules here are for invariants, for preorders
and for refinements: a machine that follows another one step by step follows it
along a run, and puts out the same.
-/

namespace LuaAttic.Support

variable {σ β : Type*}

/-- Serve the requests one after the other. -/
def run (step : σ → β → σ) (requests : List β) (s : σ) : σ :=
  requests.foldl step s

/-- Every request of the list is allowed in the state in which it is served. -/
def AllAllowed (step : σ → β → σ) (allowed : σ → β → Prop) :
    List β → σ → Prop
  | [], _ => True
  | r :: rs, s => allowed s r ∧ AllAllowed step allowed rs (step s r)

instance AllAllowed.decidable (step : σ → β → σ) (allowed : σ → β → Prop)
    [∀ s r, Decidable (allowed s r)] :
    ∀ requests s, Decidable (AllAllowed step allowed requests s)
  | [], _ => inferInstanceAs (Decidable True)
  | r :: rs, s =>
      have := AllAllowed.decidable step allowed rs (step s r)
      inferInstanceAs (Decidable (allowed s r ∧ _))

section Basics

variable {step : σ → β → σ} {allowed : σ → β → Prop}

@[simp] theorem run_nil (s : σ) : run step [] s = s := rfl

@[simp] theorem run_cons (r : β) (rs : List β) (s : σ) :
    run step (r :: rs) s = run step rs (step s r) := rfl

@[simp] theorem allAllowed_nil (s : σ) : AllAllowed step allowed [] s :=
  trivial

@[simp] theorem allAllowed_cons (r : β) (rs : List β) (s : σ) :
    AllAllowed step allowed (r :: rs) s ↔
      allowed s r ∧ AllAllowed step allowed rs (step s r) := Iff.rfl

theorem allAllowed_append (rs qs : List β) (s : σ) :
    AllAllowed step allowed (rs ++ qs) s ↔
      AllAllowed step allowed rs s ∧
        AllAllowed step allowed qs (run step rs s) := by
  induction rs generalizing s with
  | nil => simp
  | cons r rs ih => simp [ih, and_assoc]

/-- A condition on the requests alone, whatever the state. -/
theorem allAllowed_of_forall {P : β → Prop} {rs : List β}
    (h : ∀ r ∈ rs, P r) (s : σ) : AllAllowed step (fun _ r => P r) rs s := by
  induction rs generalizing s with
  | nil => exact allAllowed_nil s
  | cons r rs ih =>
      refine ⟨h r List.mem_cons_self, ih ?_ _⟩
      exact fun q hq => h q (List.mem_cons_of_mem r hq)

/-- A weaker side condition allows at least the same runs. -/
theorem AllAllowed.mono {allowed' : σ → β → Prop}
    (himp : ∀ s r, allowed s r → allowed' s r) {rs : List β} {s : σ}
    (h : AllAllowed step allowed rs s) : AllAllowed step allowed' rs s := by
  induction rs generalizing s with
  | nil => exact allAllowed_nil s
  | cons r rs ih => exact ⟨himp s r h.1, ih h.2⟩

/-- An invariant that every allowed request preserves holds after every
allowed run. -/
theorem run_invariant {Inv : σ → Prop}
    (hstep : ∀ s r, Inv s → allowed s r → Inv (step s r))
    {requests : List β} {s : σ} (hs : Inv s)
    (hall : AllAllowed step allowed requests s) :
    Inv (run step requests s) := by
  induction requests generalizing s with
  | nil => exact hs
  | cons r rs ih => exact ih (hstep s r hs hall.1) hall.2

/-- What the invariant makes of an allowed request holds all along a run. -/
theorem AllAllowed.of_invariant {Inv : σ → Prop} {good : σ → β → Prop}
    (hstep : ∀ s r, Inv s → allowed s r → Inv (step s r))
    (hgood : ∀ s r, Inv s → allowed s r → good s r)
    {requests : List β} {s : σ} (hs : Inv s)
    (hall : AllAllowed step allowed requests s) :
    AllAllowed step good requests s := by
  induction requests generalizing s with
  | nil => exact allAllowed_nil s
  | cons r rs ih =>
      exact ⟨hgood s r hs hall.1, ih (hstep s r hs hall.1) hall.2⟩

theorem allAllowed_congr {p q : σ → β → Prop} {requests : List β} {s : σ}
    (h : AllAllowed step (fun s r => p s r ↔ q s r) requests s) :
    AllAllowed step p requests s ↔ AllAllowed step q requests s := by
  induction requests generalizing s with
  | nil => exact Iff.rfl
  | cons r rs ih => exact and_congr h.1 (ih h.2)

/-- Two side conditions that agree where the invariant holds allow the same
runs. -/
theorem allAllowed_iff_of_invariant (Inv : σ → Prop) {p q : σ → β → Prop}
    (hstep : ∀ s r, Inv s → p s r → Inv (step s r))
    (hiff : ∀ s r, Inv s → (p s r ↔ q s r)) {requests : List β} {s : σ}
    (hs : Inv s) :
    AllAllowed step p requests s ↔ AllAllowed step q requests s := by
  induction requests generalizing s with
  | nil => exact Iff.rfl
  | cons r rs ih =>
      rw [allAllowed_cons, allAllowed_cons, ← hiff s r hs]
      exact and_congr_right fun hr => ih (hstep s r hs hr)

/-- A preorder that every allowed request respects relates the two ends of
every allowed run. -/
theorem run_relates {R : σ → σ → Prop} [IsPreorder σ R]
    (hstep : ∀ s r, allowed s r → R s (step s r))
    {requests : List β} {s : σ}
    (hall : AllAllowed step allowed requests s) :
    R s (run step requests s) := by
  induction requests generalizing s with
  | nil => exact refl_of R s
  | cons r rs ih => exact trans_of R (hstep s r hall.1) (ih hall.2)

end Basics

/-! ## What a run puts out -/

section Outputs

variable {γ : Type*}

/-- What the requests of a run put out, one after the other. -/
def outputs (step : σ → β → σ) (out : σ → β → γ) : List β → σ → List γ
  | [], _ => []
  | r :: rs, s => out s r :: outputs step out rs (step s r)

/-- A machine whose steps another one follows puts out the same exactly when
each of its requests does. -/
theorem outputs_eq_iff {τ δ : Type*} (step : σ → β → σ) (out : σ → β → γ)
    (astep : τ → δ → τ) (aout : τ → δ → γ) (abs : σ → τ) (op : β → δ)
    (hstep : ∀ s r, abs (step s r) = astep (abs s) (op r))
    (requests : List β) (s : σ) :
    outputs step out requests s =
        outputs astep aout (requests.map op) (abs s) ↔
      AllAllowed step (fun s r => out s r = aout (abs s) (op r)) requests s := by
  induction requests generalizing s with
  | nil => exact iff_of_true rfl (allAllowed_nil s)
  | cons r requests ih =>
      rw [allAllowed_cons, ← ih, hstep]
      exact List.cons_eq_cons

/-- Machines that put out the same and stay related, step by step, do so along a run. -/
theorem outputs_eq_of_simulation {τ δ : Type*} {step : σ → β → σ} {out : σ → β → γ}
    {astep : τ → δ → τ} {aout : τ → δ → γ} {op : β → δ} {R : σ → τ → Prop}
    (hstep : ∀ s a r, R s a → R (step s r) (astep a (op r)) ∧ out s r = aout a (op r))
    (requests : List β) {s : σ} {a : τ} (h : R s a) :
    R (run step requests s) (run astep (requests.map op) a) ∧
      outputs step out requests s = outputs astep aout (requests.map op) a := by
  induction requests generalizing s a with
  | nil => exact ⟨h, rfl⟩
  | cons r requests ih =>
      obtain ⟨hrest, hout⟩ := hstep s a r h
      obtain ⟨hrun, houts⟩ := ih hrest
      exact ⟨hrun, congrArg₂ List.cons hout houts⟩

section Refinement

variable {τ δ : Type*} (step : σ → β → σ) (out : σ → β → γ) (astep : τ → δ → τ)
  (aout : τ → δ → γ) (abs : σ → τ) (op : β → δ)

/-- The request is served as the abstract machine serves it. -/
def Refines (s : σ) (r : β) : Prop :=
  abs (step s r) = astep (abs s) (op r) ∧ out s r = aout (abs s) (op r)

/-- The run reaches the abstract state that the abstract run reaches, and puts
out the same. -/
def Follows (requests : List β) (s : σ) : Prop :=
  abs (run step requests s) = run astep (requests.map op) (abs s) ∧
    outputs step out requests s = outputs astep aout (requests.map op) (abs s)

variable {step out astep aout abs op}

theorem follows_cons_iff {r : β} {requests : List β} {s : σ}
    (h : Refines step out astep aout abs op s r) :
    Follows step out astep aout abs op (r :: requests) s ↔
      Follows step out astep aout abs op requests (step s r) := by
  simp only [Follows, run_cons, outputs, List.map_cons, h.1, h.2,
    List.cons.injEq, true_and]

/-- A machine follows the abstract one in every part of a run exactly when
each request of the run is served as the abstract machine serves it. -/
theorem allAllowed_refines_iff {requests : List β} {s : σ} :
    AllAllowed step (Refines step out astep aout abs op) requests s ↔
      ∀ part, part <+: requests →
        Follows step out astep aout abs op part s := by
  induction requests generalizing s with
  | nil =>
      refine ⟨fun _ part hpart => ?_, fun _ => allAllowed_nil s⟩
      rw [List.prefix_nil.mp hpart]
      exact ⟨rfl, rfl⟩
  | cons r requests ih =>
      rw [allAllowed_cons, ih]
      constructor
      · rintro ⟨hr, hrest⟩ part hpart
        cases part with
        | nil => exact ⟨rfl, rfl⟩
        | cons r' part =>
            obtain ⟨rfl, htail⟩ := List.cons_prefix_cons.mp hpart
            exact (follows_cons_iff hr).mpr (hrest part htail)
      · intro hall
        have hr : Refines step out astep aout abs op s r := by
          obtain ⟨hstep, hout⟩ := hall [r] (List.prefix_append [r] requests)
          exact ⟨hstep, (List.cons.inj hout).1⟩
        refine ⟨hr, fun part hpart => ?_⟩
        exact (follows_cons_iff hr).mp
          (hall (r :: part) (List.cons_prefix_cons.mpr ⟨rfl, hpart⟩))

end Refinement

end Outputs

end LuaAttic.Support
