import Mathlib.Data.List.Nodup
import Mathlib.Logic.Function.Basic

/-!
# Computing variables one after the other

Each step computes a variable from the current values of some others.  Every
variable computed has its value by its step at the end as well, whatever the
steps compute, exactly when no step changes what an earlier one has computed or
read.
-/

namespace LuaAttic.Support

variable {V α β : Type*} [DecidableEq V]

/-- Take the steps one after the other. -/
def runSteps (target : β → V) (fn : β → (V → α) → α) (S : List β) (s : V → α) :
    V → α :=
  S.foldl (fun s b => Function.update s (target b) (fn b s)) s

/-- The functions of the steps read the inputs of the steps only. -/
def ReadsInputs (inputs : β → Set V) (fn : β → (V → α) → α) (S : List β) : Prop :=
  ∀ b ∈ S, ∀ s t, (∀ x ∈ inputs b, s x = t x) → fn b s = fn b t

/-- No step changes what an earlier one has computed or read. -/
def InOrder (target : β → V) (inputs : β → Set V) (S : List β) : Prop :=
  S.Pairwise fun a b => target b ≠ target a ∧ target b ∉ inputs a

section Steps

variable {target : β → V} {inputs : β → Set V} {fn : β → (V → α) → α}

theorem runSteps_cons (b : β) (S : List β) (s : V → α) :
    runSteps target fn (b :: S) s =
      runSteps target fn S (Function.update s (target b) (fn b s)) := rfl

theorem runSteps_append (S T : List β) (s : V → α) :
    runSteps target fn (S ++ T) s = runSteps target fn T (runSteps target fn S s) :=
  List.foldl_append

/-- What is not computed stays. -/
theorem runSteps_of_notMem {S : List β} {x : V} (h : ∀ b ∈ S, target b ≠ x)
    (s : V → α) : runSteps target fn S s x = s x := by
  induction S generalizing s with
  | nil => rfl
  | cons b S ih =>
      obtain ⟨hb, hS⟩ := List.forall_mem_cons.mp h
      rw [runSteps_cons, ih hS, Function.update_of_ne (Ne.symm hb)]

theorem runSteps_congr {fn' : β → (V → α) → α} {S : List β}
    (h : ∀ b ∈ S, fn b = fn' b) (s : V → α) :
    runSteps target fn S s = runSteps target fn' S s := by
  induction S generalizing s with
  | nil => rfl
  | cons b S ih =>
      obtain ⟨hb, hS⟩ := List.forall_mem_cons.mp h
      rw [runSteps_cons, runSteps_cons, hb, ih hS]

theorem computed_of_inOrder {S : List β} (hreads : ReadsInputs inputs fn S)
    (hself : ∀ b ∈ S, target b ∉ inputs b) (hS : InOrder target inputs S)
    (s : V → α) :
    ∀ b ∈ S, runSteps target fn S s (target b) = fn b (runSteps target fn S s) := by
  induction S generalizing s with
  | nil => exact fun b hb => absurd hb List.not_mem_nil
  | cons a S ih =>
      obtain ⟨hlater, hS⟩ := List.pairwise_cons.mp hS
      obtain ⟨ha, hself⟩ := List.forall_mem_cons.mp hself
      obtain ⟨hread, hreads⟩ := List.forall_mem_cons.mp hreads
      refine List.forall_mem_cons.mpr ⟨?_, ih hreads hself hS _⟩
      rw [runSteps_cons, runSteps_of_notMem fun b hb => (hlater b hb).1,
        Function.update_self]
      refine hread _ _ fun x hx => ?_
      have hkept : ∀ b ∈ S, target b ≠ x := by
        rintro b hb rfl
        exact (hlater b hb).2 hx
      rw [runSteps_of_notMem hkept, Function.update_of_ne]
      rintro rfl
      exact ha hx

/-- The last of the steps with a target counts, here all with the same value. -/
theorem runSteps_of_const {S : List β} {x : V} {v : α}
    (hconst : ∀ b ∈ S, target b = x → ∀ s, fn b s = v) (hx : ∃ b ∈ S, target b = x)
    (s : V → α) : runSteps target fn S s x = v := by
  induction S generalizing s with
  | nil =>
      obtain ⟨b, hb, -⟩ := hx
      exact absurd hb List.not_mem_nil
  | cons a S ih =>
      obtain ⟨ha, hS⟩ := List.forall_mem_cons.mp hconst
      by_cases hrest : ∃ b ∈ S, target b = x
      · exact ih hS hrest _
      · have hkept : ∀ b ∈ S, target b ≠ x := fun b hb hbx => hrest ⟨b, hb, hbx⟩
        obtain ⟨b, hb, hbx⟩ := hx
        rcases List.mem_cons.mp hb with rfl | hb
        · rw [runSteps_cons, runSteps_of_notMem hkept, ← hbx, Function.update_self,
            ha hbx]
        · exact absurd hbx (hkept b hb)

end Steps

section Converse

theorem exists_split_of_not_pairwise {R : β → β → Prop} {S : List β}
    (h : ¬ S.Pairwise R) : ∃ A a B b, S = A ++ a :: B ∧ b ∈ B ∧ ¬ R a b := by
  induction S with
  | nil => exact absurd List.Pairwise.nil h
  | cons c S ih =>
      by_cases hS : S.Pairwise R
      · have hc : ¬ ∀ b ∈ S, R c b := fun hc => h (List.pairwise_cons.mpr ⟨hc, hS⟩)
        simp only [not_forall] at hc
        obtain ⟨b, hb, hR⟩ := hc
        exact ⟨[], c, S, b, rfl, hb, hR⟩
      · obtain ⟨A, a, B, b, rfl, hb, hR⟩ := ih hS
        exact ⟨c :: A, a, B, b, rfl, hb, hR⟩

variable [DecidableEq β] {target : β → V}

/-- Functions that tell a step from the others: it returns true and they return
false. -/
def onlyStep (a : β) : β → (V → Bool) → Bool := fun b _ => decide (b = a)

/-- Functions that tell when a step has read a variable: it returns that, and
the others return true. -/
def copyStep (a : β) (y : V) : β → (V → Bool) → Bool :=
  fun b s => if b = a then s y else true

/-- Where a variable is computed twice, the first step does not count. -/
theorem onlyStep_ne {A B : List β} {a b : β} (hnodup : (A ++ a :: B).Nodup)
    (hb : b ∈ B) (hab : target b = target a) (s : V → Bool) :
    let t := runSteps target (onlyStep a) (A ++ a :: B) s
    t (target a) ≠ onlyStep a a t := by
  have ha : a ∉ B := (List.nodup_cons.mp (List.nodup_append.mp hnodup).2.1).1
  intro t
  have ht : t (target a) = false := by
    change runSteps target (onlyStep a) (A ++ a :: B) s (target a) = false
    rw [runSteps_append, runSteps_cons]
    refine runSteps_of_const (fun c hc _ _ => ?_) ⟨b, hb, hab⟩ _
    exact decide_eq_false fun hca => ha (hca ▸ hc)
  rw [ht]
  simp [onlyStep]

/-- Where an input of a step is computed later, the step has read the old
value. -/
theorem copyStep_ne {A B : List β} {a b : β}
    (hnodup : ((A ++ a :: B).map target).Nodup) (hb : b ∈ B) {s : V → Bool}
    (hs : s (target b) = false) :
    let t := runSteps target (copyStep a (target b)) (A ++ a :: B) s
    t (target a) ≠ copyStep a (target b) a t := by
  rw [List.map_append, List.map_cons] at hnodup
  obtain ⟨-, hrest, hapart⟩ := List.nodup_append.mp hnodup
  obtain ⟨haB, hB⟩ := List.nodup_cons.mp hrest
  have hbB : target b ∈ B.map target := List.mem_map_of_mem hb
  intro t
  have hread : ∀ t : V → Bool, copyStep a (target b) a t = t (target b) :=
    fun t => if_pos rfl
  have hold : runSteps target (copyStep a (target b)) A s (target b) = false := by
    rw [runSteps_of_notMem, hs]
    intro c hc
    exact hapart _ (List.mem_map_of_mem hc) _ (List.mem_cons_of_mem _ hbB)
  have hta : t (target a) = false := by
    change runSteps target _ (A ++ a :: B) s (target a) = false
    rw [runSteps_append, runSteps_cons, runSteps_of_notMem, Function.update_self,
      hread, hold]
    exact fun c hc hca => haB (hca ▸ List.mem_map_of_mem hc)
  have htb : t (target b) = true := by
    change runSteps target _ (A ++ a :: B) s (target b) = true
    rw [runSteps_append, runSteps_cons]
    refine runSteps_of_const (fun c hc _ u => ?_) ⟨b, hb, rfl⟩ _
    exact if_neg fun hca : c = a => haB (hca ▸ List.mem_map_of_mem hc)
  rw [hread, hta, htb]
  exact Bool.false_ne_true

end Converse

end LuaAttic.Support
