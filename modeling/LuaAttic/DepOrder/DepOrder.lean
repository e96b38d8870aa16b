import LuaAttic.Lua.Tables
import LuaAttic.Support.Dfs
import LuaAttic.Support.Topological

/-!
# Dependency order (`dep_order.lua`)

Items with all that they depend on are put into a list, those without dependencies first:
these are taken out of the dependencies of the others, again and again.  What is left over
when nothing can be taken out is returned as well.
-/

namespace LuaAttic.DepOrder

open Relation (ReflTransGen TransGen)
open LuaAttic.Lua LuaAttic.Support

variable {K : Type} [DecidableEq K]

/-- The items that are left in `t` with their dependencies, and the list `dt`. -/
structure Sorting (K : Type) where
  left : List K
  deps : K → List K
  dt : List K := []

/-- `dep_maps()`: an item has an entry before those that it depends on are added. -/
def depMaps (items : List K) (itemDeps : K → List K) (fuel : ℕ) : Option (Sorting K) :=
  (visitAll itemDeps fuel items []).map fun left => { left, deps := itemDeps }

/-- An item is added to the list and taken out of all dependencies. -/
def Sorting.take (st : Sorting K) (item : K) : Sorting K where
  left := st.left.filter (· ≠ item)
  deps k := (st.deps k).filter (· ≠ item)
  dt := st.dt ++ [item]

/-- The loop over the items that are left, with `guard`. -/
def sweep : List K → Bool → Sorting K → Bool × Sorting K
  | [], guard, st => (guard, st)
  | item :: items, guard, st =>
      if st.deps item = [] then sweep items false (st.take item) else sweep items guard st

theorem sweep_length_le (items : List K) (guard : Bool) (st : Sorting K) :
    (sweep items guard st).2.left.length ≤ st.left.length := by
  induction items generalizing guard st with
  | nil => exact le_rfl
  | cons item items ih =>
      rw [sweep]
      split_ifs
      · exact (ih false (st.take item)).trans (List.length_filter_le _ _)
      · exact ih guard st

/-- Something is taken out, or nothing changes. -/
theorem sweep_cases {items : List K} {st : Sorting K} (hitems : ∀ i ∈ items, i ∈ st.left) :
    (sweep items true st = (true, st) ∧ ∀ i ∈ items, st.deps i ≠ []) ∨
      (sweep items true st).1 = false ∧
        (sweep items true st).2.left.length < st.left.length := by
  have hfalse : ∀ (items : List K) (st : Sorting K), (sweep items false st).1 = false := by
    intro items
    induction items with
    | nil => exact fun _ => rfl
    | cons item items ih =>
        intro st
        rw [sweep]
        split_ifs
        · exact ih _
        · exact ih _
  induction items with
  | nil => exact Or.inl ⟨rfl, nofun⟩
  | cons item items ih =>
      obtain ⟨hitem, hitems⟩ := List.forall_mem_cons.mp hitems
      rw [sweep]
      split_ifs with hfree
      · refine Or.inr ⟨hfalse _ _, (sweep_length_le _ _ _).trans_lt ?_⟩
        exact List.length_filter_lt_length_iff_exists.mpr ⟨item, hitem, by simp⟩
      · exact (ih hitems).imp_left fun h => ⟨h.1, List.forall_mem_cons.mpr ⟨hfree, h.2⟩⟩

/-- The loop; what is left over is returned as `circular_deps`. -/
def orderLoop (sorted : Order K) (st : Sorting K) : List K × Option (Sorting K) :=
  if st.left = [] then (st.dt, none)
  else
    match _h : sweep (sorted.apply st.left) true st with
    | (true, st') => (st'.dt, some st')
    | (false, st') => orderLoop sorted st'
termination_by st.left.length
decreasing_by
  have hmem : ∀ i ∈ sorted.apply st.left, i ∈ st.left := fun i => (sorted.perm st.left).mem_iff.mp
  rcases sweep_cases hmem with ⟨hsame, -⟩ | ⟨-, hless⟩
  · rw [hsame] at _h
    cases _h
  · rwa [_h] at hless

/-- `dependency_order(items, item_deps)` -/
def dependencyOrder (items : List K) (itemDeps : K → List K) (fuel : ℕ) (sorted : Order K) :
    Option (List K × Option (Sorting K)) :=
  (depMaps items itemDeps fuel).map (orderLoop sorted)

/-! ## What is taken out -/

/-- What holds between two items: `all` are in the list or left, and the dependencies that are
left are those that are not in the list. -/
structure Sound (all : List K) (itemDeps : K → List K) (st : Sorting K) : Prop where
  mem_iff : ∀ k, k ∈ all ↔ k ∈ st.left ∨ k ∈ st.dt
  notMem : ∀ k ∈ st.left, k ∉ st.dt
  nodup : st.dt.Nodup
  left_nodup : st.left.Nodup
  depsFirst : DepsFirst (fun x w => w ∈ itemDeps x) st.dt
  mem_deps_iff : ∀ k w, w ∈ st.deps k ↔ w ∈ itemDeps k ∧ w ∉ st.dt

variable {all items : List K} {itemDeps : K → List K} {st : Sorting K}

theorem Sound.take (hs : Sound all itemDeps st) {item : K} (hitem : item ∈ st.left)
    (hfree : st.deps item = []) : Sound all itemDeps (st.take item) := by
  have hleft : ∀ k, k ∈ (st.take item).left ↔ k ∈ st.left ∧ k ≠ item := by
    simp [Sorting.take]
  have hdt : ∀ k, k ∈ (st.take item).dt ↔ k ∈ st.dt ∨ k = item := by
    simp [Sorting.take]
  refine ⟨fun k => ?_, fun k hk => ?_, ?_, hs.left_nodup.filter _, hs.depsFirst.snoc ?_,
    fun k w => ?_⟩
  · rw [hs.mem_iff, hleft, hdt]
    constructor
    · rintro (hk | hk)
      · by_cases heq : k = item
        · exact Or.inr (Or.inr heq)
        · exact Or.inl ⟨hk, heq⟩
      · exact Or.inr (Or.inl hk)
    · rintro (hk | hk | rfl)
      · exact Or.inl hk.1
      · exact Or.inr hk
      · exact Or.inl hitem
  · obtain ⟨hmem, hne⟩ := (hleft k).mp hk
    rw [hdt]
    exact not_or.mpr ⟨hs.notMem k hmem, hne⟩
  · rw [Sorting.take, List.nodup_append_comm]
    exact List.nodup_cons.mpr ⟨hs.notMem item hitem, hs.nodup⟩
  · -- all dependencies of the item are in the list
    intro w hw
    by_contra hnot
    have hmem := (hs.mem_deps_iff item w).mpr ⟨hw, hnot⟩
    rw [hfree] at hmem
    exact List.not_mem_nil hmem
  · rw [hdt, not_or, ← and_assoc, ← hs.mem_deps_iff]
    simp [Sorting.take]

theorem Sound.sweep (hs : Sound all itemDeps st) (hitems : ∀ i ∈ items, i ∈ st.left)
    (hnodup : items.Nodup) (guard : Bool) : Sound all itemDeps (sweep items guard st).2 := by
  induction items generalizing guard st with
  | nil => exact hs
  | cons item items ih =>
      obtain ⟨hitem, hitems⟩ := List.forall_mem_cons.mp hitems
      obtain ⟨hnot, hnodup⟩ := List.nodup_cons.mp hnodup
      rw [DepOrder.sweep]
      split_ifs with hfree
      · refine ih (hs.take hitem hfree) (fun i hi => ?_) hnodup false
        refine List.mem_filter.mpr ⟨hitems i hi, decide_eq_true ?_⟩
        rintro rfl
        exact hnot hi
      · exact ih hs hitems hnodup guard

/-- The loop ends when nothing is left, or when all that is left has dependencies. -/
theorem exists_orderLoop (sorted : Order K) (hs : Sound all itemDeps st) :
    ∃ st', Sound all itemDeps st' ∧
      (orderLoop sorted st = (st'.dt, none) ∧ st'.left = [] ∨
        orderLoop sorted st = (st'.dt, some st') ∧ st'.left ≠ [] ∧
          ∀ i ∈ st'.left, st'.deps i ≠ []) := by
  have hmem : ∀ st : Sorting K, ∀ i ∈ sorted.apply st.left, i ∈ st.left :=
    fun st i => (sorted.perm st.left).mem_iff.mp
  fun_induction orderLoop sorted st with
  | case1 st hnil => exact ⟨st, hs, Or.inl ⟨rfl, hnil⟩⟩
  | case2 st hne st' hsweep =>
      rcases sweep_cases (hmem st) with ⟨hsame, hdeps⟩ | ⟨hguard, -⟩
      · rw [hsame] at hsweep
        cases hsweep
        exact ⟨st, hs, Or.inr ⟨rfl, hne, fun i hi =>
          hdeps i ((sorted.perm st.left).mem_iff.mpr hi)⟩⟩
      · rw [hsweep] at hguard
        cases hguard
  | case3 st hne st' hsweep ih =>
      have hs' := hs.sweep (hmem st) ((sorted.perm st.left).nodup_iff.mpr hs.left_nodup) true
      rw [hsweep] at hs'
      exact ih hs'

/-- An item needs those that its dependencies need. -/
abbrev DependsOn (itemDeps : K → List K) (x w : K) : Prop := w ∈ itemDeps x

/-- The list has what is needed and does not lead to a cycle, each item once and after all that
it depends on.  The rest, with the dependencies in it, is returned apart. -/
theorem dependencyOrder_spec {U : Finset K} (hU : ∀ x ∈ U, ∀ w ∈ itemDeps x, w ∈ U)
    (hitems : ∀ i ∈ items, i ∈ U) {fuel : ℕ} (hfuel : U.card < fuel) (sorted : Order K) :
    ∃ dt circular, dependencyOrder items itemDeps fuel sorted = some (dt, circular) ∧
      dt.Nodup ∧ DepsFirst (DependsOn itemDeps) dt ∧
      (∀ x, x ∈ dt ↔ (∃ i ∈ items, ReflTransGen (DependsOn itemDeps) i x) ∧
        ¬ LeadsToCycle (DependsOn itemDeps) x) ∧
      (circular = none ↔ ∀ i ∈ items, ¬ LeadsToCycle (DependsOn itemDeps) i) ∧
      ∀ st, circular = some st → ∀ x,
        (x ∈ st.left ↔ (∃ i ∈ items, ReflTransGen (DependsOn itemDeps) i x) ∧
          LeadsToCycle (DependsOn itemDeps) x) ∧
        (x ∈ st.left → ∀ w, w ∈ st.deps x ↔
          w ∈ itemDeps x ∧ LeadsToCycle (DependsOn itemDeps) w) := by
  obtain ⟨all, hall⟩ : ∃ all, visitAll itemDeps fuel items [] = some all :=
    exists_visitAll hU hitems hfuel
  obtain ⟨hnodup, hneeded⟩ := visitAll_spec hall
  have hstart : Sound all itemDeps { left := all, deps := itemDeps } :=
    ⟨fun k => (or_iff_left List.not_mem_nil).symm, fun k _ => List.not_mem_nil, List.nodup_nil,
      hnodup, depsFirst_nil, fun k w => (and_iff_left List.not_mem_nil).symm⟩
  have hclosed : ∀ x ∈ all, ∀ w ∈ itemDeps x, w ∈ all := by
    intro x hx w hw
    obtain ⟨i, hi, hpath⟩ := (hneeded x).mp hx
    exact (hneeded w).mpr ⟨i, hi, hpath.tail hw⟩
  obtain ⟨st, hs, hend⟩ := exists_orderLoop sorted hstart
  have hmaps : ∀ r, orderLoop sorted { left := all, deps := itemDeps } = r →
      dependencyOrder items itemDeps fuel sorted = some r := by
    rintro r rfl
    rw [dependencyOrder, depMaps, hall]
    rfl
  have hnot : ∀ x ∈ st.dt, ¬ LeadsToCycle (DependsOn itemDeps) x :=
    fun x hx => hs.depsFirst.not_leadsToCycle hs.nodup hx
  rcases hend with ⟨hloop, hnil⟩ | ⟨hloop, hne, hdeps⟩
  · have hdt : ∀ x, x ∈ all ↔ x ∈ st.dt := by
      intro x
      rw [hs.mem_iff, hnil]
      exact or_iff_right List.not_mem_nil
    refine ⟨st.dt, none, hmaps _ hloop, hs.nodup, hs.depsFirst, fun x => ?_, ?_, nofun⟩
    · rw [← hneeded, hdt]
      exact (and_iff_left_of_imp (hnot x)).symm
    · exact iff_of_true rfl fun i hi => hnot i ((hdt i).mp ((hneeded i).mpr ⟨i, hi, .refl⟩))
  · have hleads : ∀ x ∈ st.left, LeadsToCycle (DependsOn itemDeps) x := by
      intro x hx
      refine leadsToCycle_of_forall_exists (S := st.left.toFinset) (fun y hy => ?_)
        (List.mem_toFinset.mpr hx)
      have hy := List.mem_toFinset.mp hy
      obtain ⟨w, hw⟩ := List.exists_mem_of_ne_nil _ (hdeps y hy)
      obtain ⟨hwdep, hwdt⟩ := (hs.mem_deps_iff y w).mp hw
      have hwall := hclosed y ((hs.mem_iff y).mpr (Or.inl hy)) w hwdep
      exact ⟨w, List.mem_toFinset.mpr (((hs.mem_iff w).mp hwall).resolve_right hwdt), hwdep⟩
    have hleft : ∀ x, x ∈ st.left ↔ x ∈ all ∧ LeadsToCycle (DependsOn itemDeps) x := by
      intro x
      refine ⟨fun hx => ⟨(hs.mem_iff x).mpr (Or.inl hx), hleads x hx⟩, ?_⟩
      rintro ⟨hx, hcycle⟩
      exact ((hs.mem_iff x).mp hx).resolve_right fun hdt => hnot x hdt hcycle
    refine ⟨st.dt, some st, hmaps _ hloop, hs.nodup, hs.depsFirst, fun x => ?_, ?_, ?_⟩
    · rw [← hneeded]
      refine ⟨fun hx => ⟨(hs.mem_iff x).mpr (Or.inr hx), hnot x hx⟩, ?_⟩
      rintro ⟨hx, hcycle⟩
      exact ((hs.mem_iff x).mp hx).resolve_left fun hx => hcycle (hleads x hx)
    · refine iff_of_false nofun fun hnone => ?_
      obtain ⟨x, hx⟩ := List.exists_mem_of_ne_nil _ hne
      obtain ⟨i, hi, hpath⟩ := (hneeded x).mp ((hs.mem_iff x).mpr (Or.inl hx))
      obtain ⟨c, hxc, hcycle⟩ := hleads x hx
      exact hnone i hi ⟨c, hpath.trans hxc, hcycle⟩
    · intro st' hst' x
      obtain rfl := Option.some.inj hst'
      refine ⟨by rw [hleft, hneeded], fun hx w => ?_⟩
      rw [hs.mem_deps_iff]
      refine and_congr_right fun hw => ⟨fun hdt => ?_, fun hcycle hdt => hnot w hdt hcycle⟩
      have hwall := hclosed x ((hleft x).mp hx).1 w hw
      exact hleads w (((hs.mem_iff w).mp hwall).resolve_right hdt)

/-- Items one and two need each other, and item three needs none. -/
def pairDeps : ℕ → List ℕ
  | 1 => [2]
  | 2 => [1]
  | _ => []

theorem dependencyOrder_pairDeps :
    ∃ dt circular, dependencyOrder [1, 3] pairDeps 4 ⟨id, fun _ => .refl _⟩ =
        some (dt, circular) ∧ dt.Nodup ∧ DepsFirst (DependsOn pairDeps) dt := by
  have hU : ∀ x ∈ ({1, 2, 3} : Finset ℕ), ∀ w ∈ pairDeps x, w ∈ ({1, 2, 3} : Finset ℕ) := by
    decide
  obtain ⟨dt, circular, h, hnodup, horder, -⟩ := dependencyOrder_spec hU
    (show ∀ i ∈ [1, 3], i ∈ ({1, 2, 3} : Finset ℕ) by decide)
    (show ({1, 2, 3} : Finset ℕ).card < 4 by decide) ⟨id, fun _ => .refl _⟩
  exact ⟨dt, circular, h, hnodup, horder⟩

end LuaAttic.DepOrder
