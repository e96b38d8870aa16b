import Mathlib.Data.Finset.Card
import Mathlib.Data.Fintype.EquivFin
import Mathlib.Data.List.Chain
import Mathlib.Data.List.Nodup
import Mathlib.Logic.Relation
import Mathlib.Order.WellFounded

/-!
# Orders of dependencies

A list is in order when all that a vertex depends on comes before it.  Such a list has no
cycle in it; and where all vertices of a finite set depend on others in the set, each of
them leads to a cycle.
-/

namespace LuaAttic.Support

open Relation (ReflTransGen TransGen)

variable {V : Type*} {R : V → V → Prop} {l : List V} {x w : V}

/-- All that a vertex depends on comes before it. -/
def DepsFirst (R : V → V → Prop) (l : List V) : Prop :=
  ∀ A x B, l = A ++ x :: B → ∀ w, R x w → w ∈ A

theorem depsFirst_nil : DepsFirst R [] := by
  intro A x B h
  cases A <;> cases h

theorem DepsFirst.snoc (h : DepsFirst R l) (hx : ∀ w, R x w → w ∈ l) : DepsFirst R (l ++ [x]) := by
  intro A y B heq w hw
  rcases List.eq_nil_or_concat B with rfl | ⟨B, b, rfl⟩
  · obtain ⟨rfl, hy⟩ := List.append_inj' heq rfl
    obtain rfl : x = y := by simpa using hy
    exact hx w hw
  · have heq' : l ++ [x] = (A ++ y :: B) ++ [b] := by simpa using heq
    obtain ⟨hl, -⟩ := List.append_inj' heq' rfl
    exact h A y B hl w hw

theorem DepsFirst.mono {R' : V → V → Prop} (h : DepsFirst R l) (hR : ∀ x w, R' x w → R x w) :
    DepsFirst R' l := fun A x B heq w hw => h A x B heq w (hR x w hw)

theorem DepsFirst.of_append {l' : List V} (h : DepsFirst R (l ++ l')) : DepsFirst R l := by
  rintro A x B rfl w hw
  exact h A x (B ++ l') (by simp) w hw

/-- What a vertex depends on, directly or not, comes before it. -/
theorem DepsFirst.mem_of_transGen (h : DepsFirst R l) {A B : List V} (hl : l = A ++ x :: B)
    (hw : TransGen R x w) : w ∈ A := by
  induction hw with
  | single hw => exact h A x B hl _ hw
  | tail _ hw ih =>
      obtain ⟨A₁, A₂, rfl⟩ := List.append_of_mem ih
      exact List.mem_append_left _ (h A₁ _ (A₂ ++ x :: B) (by simp [hl]) _ hw)

theorem DepsFirst.mem (h : DepsFirst R l) (hx : x ∈ l) (hw : R x w) : w ∈ l := by
  obtain ⟨A, B, rfl⟩ := List.append_of_mem hx
  exact List.mem_append_left _ (h A x B rfl w hw)

theorem DepsFirst.not_transGen (h : DepsFirst R l) (hnodup : l.Nodup) (hx : x ∈ l) :
    ¬ TransGen R x x := by
  intro hcycle
  obtain ⟨A, B, rfl⟩ := List.append_of_mem hx
  have hmem := h.mem_of_transGen rfl hcycle
  exact (List.disjoint_of_nodup_append hnodup) hmem List.mem_cons_self

/-- A vertex that depends, directly or not, on one that depends on itself. -/
def LeadsToCycle (R : V → V → Prop) (x : V) : Prop := ∃ c, ReflTransGen R x c ∧ TransGen R c c

theorem DepsFirst.not_leadsToCycle (h : DepsFirst R l) (hnodup : l.Nodup) (hx : x ∈ l) :
    ¬ LeadsToCycle R x := by
  rintro ⟨c, hpath, hcycle⟩
  refine h.not_transGen hnodup ?_ hcycle
  clear hcycle
  induction hpath with
  | refl => exact hx
  | tail _ hstep ih => exact h.mem ih hstep

/-- A chain whose last vertex is there is a part of the list. -/
theorem DepsFirst.sublist_of_isChain (h : DepsFirst R l) {p : List V}
    (hp : p.IsChain fun w x => R x w) (hlast : ∀ x ∈ p.getLast?, x ∈ l) : p.Sublist l := by
  induction p using List.reverseRecOn generalizing l with
  | nil => exact List.nil_sublist l
  | append_singleton p x ih =>
      have hx : x ∈ l := hlast x (by simp)
      obtain ⟨A, B, rfl⟩ := List.append_of_mem hx
      obtain ⟨hchain, -, hjoin⟩ := List.isChain_append.mp hp
      have hsub : p.Sublist A :=
        ih h.of_append hchain fun y hy => h A x B rfl y (hjoin y hy x rfl)
      exact hsub.append (List.singleton_sublist.mpr List.mem_cons_self)

/-- In a list without duplicates, what comes before is before each occurrence. -/
theorem mem_of_pair_sublist {A B : List V} (hnodup : (A ++ x :: B).Nodup)
    (h : [w, x].Sublist (A ++ x :: B)) : w ∈ A := by
  obtain ⟨-, hcons, hdisj⟩ := List.nodup_append'.mp hnodup
  have hB : x ∉ B := (List.nodup_cons.mp hcons).1
  obtain ⟨p, q, hpq, hp, hq⟩ := List.sublist_append_iff.mp h
  cases p with
  | nil =>
      obtain rfl : [w, x] = q := hpq
      have hxB : x ∈ B := by
        cases hq with
        | cons _ hq => exact hq.subset (by simp)
        | cons_cons _ hq => exact hq.subset (by simp)
      exact absurd hxB hB
  | cons y p =>
      obtain rfl : w = y := (List.cons.inj hpq).1
      exact hp.subset List.mem_cons_self

/-- Where all vertices of a finite set depend on others in it, each leads to a cycle. -/
theorem leadsToCycle_of_forall_exists {S : Finset V} (hS : ∀ x ∈ S, ∃ w ∈ S, R x w)
    (hx : x ∈ S) : LeadsToCycle R x := by
  by_contra hnone
  rw [LeadsToCycle] at hnone
  push Not at hnone
  let T := {y : S // ReflTransGen R x y}
  have : Finite T := Subtype.finite
  have : IsTrans T fun b a => TransGen R (a.1 : V) b.1 := ⟨fun _ _ _ hab hbc => hbc.trans hab⟩
  have : Std.Irrefl fun b a : T => TransGen R (a.1 : V) b.1 :=
    ⟨fun c => hnone c.1 c.2⟩
  have hwf := Finite.wellFounded_of_trans_of_irrefl fun b a : T => TransGen R (a.1 : V) b.1
  obtain ⟨y, -, hmin⟩ := hwf.has_min Set.univ ⟨⟨⟨x, hx⟩, .refl⟩, trivial⟩
  obtain ⟨w, hw, hyw⟩ := hS y.1 y.1.2
  exact hmin ⟨⟨w, hw⟩, y.2.tail hyw⟩ trivial (.single hyw)

end LuaAttic.Support
