import Mathlib.Data.Finset.Card
import Mathlib.Data.List.Perm.Basic
import Mathlib.Data.Set.Finite.Basic
import Mathlib.Data.Set.Lattice
import Mathlib.Logic.Function.Iterate
import Mathlib.Order.CompletePartialOrder

/-!
# Rooted trees with links in both directions

The nodes of a tree have a link to their parent and a list of their children.
The two agree if every node but the root is in one child list, once, and that is
the list of its parent.  What keeps them in agreement is adding a leaf on both
sides, reordering children, and taking a node away with all that is below it.
-/

namespace LuaAttic.Support

/-- The parent of each node and the list of its children. -/
structure Links (ι : Type*) where
  parent : ι → ι
  children : ι → List ι

namespace Links

variable {ι : Type*} [DecidableEq ι]

/-- Every node but the root is in one child list, once, and that is the list of
its parent; only nodes are in child lists; and the parents of a node lead to the
root. -/
structure Consistent (l : Links ι) (root : ι) (nodes : Set ι) : Prop where
  once : ∀ n ∈ nodes, n ≠ root → ∀ p,
    (l.children p).count n = if p = l.parent n then 1 else 0
  present : ∀ p, ∀ c ∈ l.children p, c ∈ nodes
  reaches : ∀ n ∈ nodes, ∃ k, l.parent^[k] n = root

/-- The links make a tree of the nodes. -/
structure Rooted (l : Links ι) (root : ι) (nodes : Set ι) : Prop
    extends l.Consistent root nodes where
  root_mem : root ∈ nodes
  parent_root : l.parent root = root
  root_notMem : ∀ p, root ∉ l.children p
  childless : ∀ p, p ∉ nodes → l.children p = []

variable {l l' : Links ι} {root a c n p : ι} {nodes : Set ι}

namespace Rooted

variable (h : l.Rooted root nodes)

include h

/-! ## Parents and children -/

theorem mem_children_iff (hn : n ∈ nodes) (hne : n ≠ root) :
    n ∈ l.children p ↔ p = l.parent n := by
  rw [← List.count_pos_iff, h.once n hn hne p]
  split_ifs with heq <;> simp [heq]

theorem of_mem_children (hc : c ∈ l.children p) :
    c ∈ nodes ∧ c ≠ root ∧ l.parent c = p := by
  have hmem := h.present p c hc
  have hne : c ≠ root := fun heq => h.root_notMem p (heq ▸ hc)
  exact ⟨hmem, hne, ((h.mem_children_iff hmem hne).mp hc).symm⟩

theorem mem_of_mem_children (hc : c ∈ l.children p) : p ∈ nodes := by
  by_contra hp
  rw [h.childless p hp] at hc
  exact absurd hc List.not_mem_nil

theorem children_nodup (p : ι) : (l.children p).Nodup := by
  rw [List.nodup_iff_count_le_one]
  intro c
  by_cases hc : c ∈ l.children p
  · obtain ⟨hmem, hne, -⟩ := h.of_mem_children hc
    rw [h.once c hmem hne p]
    split_ifs <;> simp
  · simp [List.count_eq_zero.mpr hc]

theorem parent_mem (hn : n ∈ nodes) : l.parent n ∈ nodes := by
  by_cases hne : n = root
  · rw [hne, h.parent_root]
    exact h.root_mem
  · exact h.mem_of_mem_children ((h.mem_children_iff hn hne).mpr rfl)

/-! ## Following the parents -/

theorem iterate_mem (hn : n ∈ nodes) (k : ℕ) : l.parent^[k] n ∈ nodes := by
  induction k with
  | zero => exact hn
  | succ k ih =>
      rw [Function.iterate_succ_apply']
      exact h.parent_mem ih

theorem iterate_root (k : ℕ) : l.parent^[k] root = root :=
  Function.iterate_fixed h.parent_root k

/-- Past the root there is only the root. -/
theorem iterate_of_le {j k : ℕ} (hle : j ≤ k) (hj : l.parent^[j] n = root) :
    l.parent^[k] n = root := by
  obtain ⟨i, rfl⟩ := Nat.exists_eq_add_of_le' hle
  rw [Function.iterate_add_apply, hj, h.iterate_root]

/-- No node but the root is above itself. -/
theorem eq_root_of_iterate_eq (hn : n ∈ nodes) {k : ℕ}
    (hk : l.parent^[k + 1] n = n) : n = root := by
  obtain ⟨j, hj⟩ := h.reaches n hn
  have hperiod : l.parent^[(k + 1) * j] n = n := by
    rw [Function.iterate_mul]
    exact Function.iterate_fixed hk j
  rw [← hperiod]
  exact h.iterate_of_le (Nat.le_mul_of_pos_left j k.succ_pos) hj

/-- A node that is not the root has a fixed distance from each one below. -/
theorem iterate_inj (ha : a ≠ root) (hn : n ∈ nodes) {i j : ℕ}
    (hi : l.parent^[i] n = a) (hj : l.parent^[j] n = a) : i = j := by
  wlog hle : i ≤ j generalizing i j
  · exact (this hj hi (Nat.le_of_not_le hle)).symm
  obtain ⟨k, rfl⟩ := Nat.exists_eq_add_of_le' hle
  rw [Function.iterate_add_apply, hi] at hj
  cases k with
  | zero => exact (Nat.zero_add i).symm
  | succ k =>
      have hmem : a ∈ nodes := hi ▸ h.iterate_mem hn i
      exact absurd (h.eq_root_of_iterate_eq hmem hj) ha

end Rooted

/-! ## What is below a node -/

/-- The nodes from which the parents lead to the given one, itself included. -/
def below (l : Links ι) (nodes : Set ι) (a : ι) : Set ι :=
  {n ∈ nodes | ∃ k, l.parent^[k] n = a}

omit [DecidableEq ι] in
theorem self_mem_below (ha : a ∈ nodes) : a ∈ l.below nodes a := ⟨ha, 0, rfl⟩

omit [DecidableEq ι] in
theorem mem_below_of_parent (hn : n ∈ nodes) (hp : l.parent n ∈ l.below nodes a) :
    n ∈ l.below nodes a := by
  obtain ⟨-, k, hk⟩ := hp
  exact ⟨hn, k + 1, hk⟩

namespace Rooted

variable (h : l.Rooted root nodes)

include h

theorem mem_below_iff (ha : a ∈ nodes) :
    n ∈ l.below nodes a ↔ n = a ∨ ∃ c ∈ l.children a, n ∈ l.below nodes c := by
  constructor
  · rintro ⟨hn, k, hk⟩
    induction k generalizing a with
    | zero => exact Or.inl hk
    | succ k ih =>
        rw [Function.iterate_succ_apply'] at hk
        have hmem := h.iterate_mem hn k
        by_cases hroot : l.parent^[k] n = root
        · -- only the root is above the root
          rw [hroot, h.parent_root] at hk
          subst hk
          exact ih ha hroot
        · have hchild := (h.mem_children_iff hmem hroot).mpr hk.symm
          exact Or.inr ⟨_, hchild, hn, k, rfl⟩
  · rintro (rfl | ⟨c, hc, hn, k, hk⟩)
    · exact self_mem_below ha
    · refine ⟨hn, k + 1, ?_⟩
      rw [Function.iterate_succ_apply', hk]
      exact (h.of_mem_children hc).2.2

/-- Nothing is below two children of a node. -/
theorem disjoint_below {c' : ι} (hc : c ∈ l.children p) (hc' : c' ∈ l.children p)
    (hne : c ≠ c') : Disjoint (l.below nodes c) (l.below nodes c') := by
  rw [Set.disjoint_left]
  rintro n ⟨hn, i, hi⟩ ⟨-, j, hj⟩
  obtain ⟨-, -, hparent⟩ := h.of_mem_children hc
  obtain ⟨-, -, hparent'⟩ := h.of_mem_children hc'
  have hp (k : ℕ) (hk : l.parent^[k] n = c) : l.parent^[k + 1] n = p := by
    rw [Function.iterate_succ_apply', hk, hparent]
  have hp' (k : ℕ) (hk : l.parent^[k] n = c') : l.parent^[k + 1] n = p := by
    rw [Function.iterate_succ_apply', hk, hparent']
  by_cases hroot : p = root
  · -- the node before the root on the way is none of the others
    wlog hle : i ≤ j generalizing i j c c'
    · exact this hc' hc hne.symm j hj i hi hparent' hparent hp' hp
        (Nat.le_of_not_le hle)
    obtain rfl | hlt := hle.eq_or_lt
    · exact hne (hi.symm.trans hj)
    · have hreach : l.parent^[j] n = root :=
        h.iterate_of_le hlt ((hp i hi).trans hroot)
      exact (h.of_mem_children hc').2.1 (hj.symm.trans hreach)
  · have heq := h.iterate_inj hroot hn (hp i hi) (hp' j hj)
    obtain rfl : i = j := Nat.succ.inj heq
    exact hne (hi.symm.trans hj)

theorem notMem_below_child (ha : a ∈ nodes) (hc : c ∈ l.children a) :
    a ∉ l.below nodes c := by
  obtain ⟨-, hroot, hparent⟩ := h.of_mem_children hc
  rintro ⟨-, k, hk⟩
  by_cases haroot : a = root
  · rw [haroot, h.iterate_root] at hk
    exact hroot hk.symm
  · refine haroot (h.eq_root_of_iterate_eq ha (k := k) ?_)
    rw [Function.iterate_succ_apply', hk, hparent]

theorem parent_notMem_below (ha : a ≠ root) : l.parent a ∉ l.below nodes a := by
  rintro ⟨hmem, k, hk⟩
  have hself : l.parent^[k + 1] (l.parent a) = l.parent a := by
    rw [Function.iterate_succ_apply', hk]
  have hroot := h.eq_root_of_iterate_eq hmem hself
  rw [hroot, h.iterate_root] at hk
  exact ha hk.symm

theorem root_notMem_below (ha : a ≠ root) : root ∉ l.below nodes a := by
  rintro ⟨-, k, hk⟩
  rw [h.iterate_root] at hk
  exact ha hk.symm

/-- The way up from a node below is shorter than there are nodes. -/
theorem lt_card_of_iterate_eq {s : Finset ι} (hs : ∀ n ∈ nodes, n ∈ s)
    (ha : a ≠ root) (hn : n ∈ nodes) {k : ℕ} (hk : l.parent^[k] n = a) :
    k < s.card := by
  have hinj : Set.InjOn (fun i => l.parent^[i] n) (Finset.range (k + 1)) := by
    intro i hi j hj heq
    rw [Finset.coe_range, Set.mem_Iio] at hi hj
    have hroot : l.parent^[i] n ≠ root := fun hr =>
      ha (hk.symm.trans (h.iterate_of_le (Nat.le_of_lt_succ hi) hr))
    exact h.iterate_inj hroot hn rfl heq.symm
  have hcard := Finset.card_le_card_of_injOn (s := Finset.range (k + 1)) (t := s)
    (fun i => l.parent^[i] n) (fun i _ => hs _ (h.iterate_mem hn i)) hinj
  rwa [Finset.card_range] at hcard

end Rooted

/-! ## Changing the links -/

/-- Reordering children. -/
theorem Rooted.perm (h : l.Rooted root nodes) (hparent : l'.parent = l.parent)
    (hchildren : ∀ p, (l'.children p).Perm (l.children p)) :
    l'.Rooted root nodes where
  once n hn hne p := by
    rw [(hchildren p).count_eq, hparent]
    exact h.once n hn hne p
  present p c hc := h.present p c ((hchildren p).mem_iff.mp hc)
  reaches n hn := by
    rw [hparent]
    exact h.reaches n hn
  root_mem := h.root_mem
  parent_root := by
    rw [hparent]
    exact h.parent_root
  root_notMem p hp := h.root_notMem p ((hchildren p).mem_iff.mp hp)
  childless p hp := by
    have hnil := hchildren p
    rw [h.childless p hp] at hnil
    exact hnil.eq_nil

omit [DecidableEq ι] in
/-- The parents of a node are the same with other links that agree above it. -/
theorem iterate_congr {s : Set ι}
    (hs : ∀ n ∈ s, l'.parent n = l.parent n ∧ l.parent n ∈ s)
    (hn : n ∈ s) (k : ℕ) : l'.parent^[k] n = l.parent^[k] n := by
  induction k generalizing n with
  | zero => rfl
  | succ k ih =>
      obtain ⟨heq, hmem⟩ := hs n hn
      rw [Function.iterate_succ_apply, Function.iterate_succ_apply, heq, ih hmem]

/-- Adding a leaf, to a child list and with a link to the parent. -/
theorem Rooted.insert (h : l.Rooted root nodes) (hn : n ∉ nodes) (hp : p ∈ nodes)
    (hparent : l'.parent n = p) (hparents : ∀ m, m ≠ n → l'.parent m = l.parent m)
    (hchild : (l'.children p).Perm (n :: l.children p))
    (hchildren : ∀ q, q ≠ p → l'.children q = l.children q) :
    l'.Rooted root (insert n nodes) := by
  have hne {m : ι} (hm : m ∈ nodes) : m ≠ n := fun heq => hn (heq ▸ hm)
  have hiterate {m : ι} (hm : m ∈ nodes) (k : ℕ) : l'.parent^[k] m = l.parent^[k] m :=
    iterate_congr (fun i hi => ⟨hparents i (hne hi), h.parent_mem hi⟩) hm k
  have hfresh (q : ι) : n ∉ l.children q := fun hq => hn (h.present q n hq)
  refine ⟨⟨?_, ?_, ?_⟩, Or.inr h.root_mem, ?_, ?_, ?_⟩
  · rintro m (rfl | hm) hroot q
    · rw [hparent]
      split_ifs with heq
      · rw [heq, hchild.count_eq, List.count_cons_self,
          List.count_eq_zero.mpr (hfresh p)]
      · rw [hchildren q heq, List.count_eq_zero.mpr (hfresh q)]
    · have hold := h.once m hm hroot q
      rw [hparents m (hne hm), ← hold]
      by_cases heq : q = p
      · rw [heq, hchild.count_eq, List.count_cons_of_ne (hne hm).symm]
      · rw [hchildren q heq]
  · intro q c hc
    by_cases heq : q = p
    · rw [heq, hchild.mem_iff] at hc
      exact (List.mem_cons.mp hc).imp id (h.present p c)
    · rw [hchildren q heq] at hc
      exact Or.inr (h.present q c hc)
  · rintro m (rfl | hm)
    · obtain ⟨k, hk⟩ := h.reaches p hp
      refine ⟨k + 1, ?_⟩
      rw [Function.iterate_succ_apply, hparent, hiterate hp, hk]
    · obtain ⟨k, hk⟩ := h.reaches m hm
      exact ⟨k, (hiterate hm k).trans hk⟩
  · rw [hparents root (hne h.root_mem)]
    exact h.parent_root
  · intro q hq
    by_cases heq : q = p
    · rw [heq, hchild.mem_iff] at hq
      exact (List.mem_cons.mp hq).elim (hne h.root_mem) (h.root_notMem p)
    · rw [hchildren q heq] at hq
      exact h.root_notMem q hq
  · intro q hq
    obtain ⟨hqn, hq⟩ := not_or.mp hq
    rw [hchildren q fun heq => hq (heq ▸ hp)]
    exact h.childless q hq

/-- Taking a node away, with all nodes below it. -/
theorem Rooted.prune (h : l.Rooted root nodes) (ha : a ∈ nodes) (hne : a ≠ root)
    (hparents : ∀ m, m ∉ l.below nodes a → l'.parent m = l.parent m)
    (hchildren : ∀ q, q ∉ l.below nodes a → l'.children q = (l.children q).erase a)
    (hempty : ∀ q, q ∈ l.below nodes a → l'.children q = []) :
    l'.Rooted root (nodes \ l.below nodes a) := by
  have houtside : ∀ m ∈ nodes \ l.below nodes a,
      l'.parent m = l.parent m ∧ l.parent m ∈ nodes \ l.below nodes a := by
    rintro m ⟨hm, hbelow⟩
    exact ⟨hparents m hbelow, h.parent_mem hm,
      fun hp => hbelow (mem_below_of_parent hm hp)⟩
  have hroot := h.root_notMem_below hne
  have hsub {q c : ι} (hc : c ∈ l'.children q) : c ∈ l.children q ∧
      q ∉ l.below nodes a ∧ c ≠ a := by
    by_cases hq : q ∈ l.below nodes a
    · rw [hempty q hq] at hc
      exact absurd hc List.not_mem_nil
    · rw [hchildren q hq, (h.children_nodup q).mem_erase_iff] at hc
      exact ⟨hc.2, hq, hc.1⟩
  refine ⟨⟨?_, ?_, ?_⟩, ⟨h.root_mem, hroot⟩, ?_, ?_, ?_⟩
  · rintro m ⟨hm, hbelow⟩ hmroot q
    have hma : m ≠ a := by
      rintro rfl
      exact hbelow (self_mem_below ha)
    rw [hparents m hbelow]
    by_cases hq : q ∈ l.below nodes a
    · rw [hempty q hq, List.count_nil, if_neg]
      rintro rfl
      exact hbelow (mem_below_of_parent hm hq)
    · rw [hchildren q hq, List.count_erase_of_ne hma, h.once m hm hmroot q]
  · intro q c hc
    obtain ⟨hmem, hq, hca⟩ := hsub hc
    obtain ⟨hcn, hcroot, hcq⟩ := h.of_mem_children hmem
    refine ⟨hcn, fun hbelow => ?_⟩
    -- a node below that is not the node itself has its parent below
    obtain ⟨-, k, hk⟩ := hbelow
    cases k with
    | zero => exact hca hk
    | succ k =>
        rw [Function.iterate_succ_apply, hcq] at hk
        exact hq ⟨h.mem_of_mem_children hmem, k, hk⟩
  · intro m hm
    obtain ⟨k, hk⟩ := h.reaches m hm.1
    exact ⟨k, (iterate_congr houtside hm k).trans hk⟩
  · rw [hparents root hroot]
    exact h.parent_root
  · intro q hq
    exact h.root_notMem q (hsub hq).1
  · intro q hq
    by_cases hbelow : q ∈ l.below nodes a
    · exact hempty q hbelow
    · rw [hchildren q hbelow, h.childless q fun hn => hq ⟨hn, hbelow⟩]
      rfl

theorem Consistent.mem_children (h : l.Consistent root nodes) (hn : n ∈ nodes)
    (hne : n ≠ root) : n ∈ l.children (l.parent n) := by
  rw [← List.count_pos_iff, h.once n hn hne, if_pos rfl]
  exact Nat.one_pos

end Links

end LuaAttic.Support
