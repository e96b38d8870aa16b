import LuaAttic.Lua.Tables
import LuaAttic.Support.Topological

/-!
# Topological sorting (`tsort.lua`)

Lists are added whose elements depend on the ones before them.  The nodes are then visited in
any order, what they depend on first; a node that is met while it is visited ends the sort.

A node that is missing from the table would raise an error, and the recursion has a bound
here; neither happens.
-/

namespace LuaAttic.DepOrder

open Relation (TransGen)
open LuaAttic.Lua LuaAttic.Support

variable {K : Type} [DecidableEq K]

/-- `m[k]` is 0 while a node is visited and 1 after that. -/
inductive Mark
  | temporary
  | permanent
  deriving DecidableEq

/-- `m` and `s` -/
structure Visits (K : Type) where
  marks : K → Option Mark := fun _ => none
  sorted : List K := []

inductive Stop
  /-- `circular dependency` -/
  | circular
  | noNode
  | outOfFuel

/-- `m[k] = 0` -/
def Visits.start (st : Visits K) (k : K) : Visits K :=
  { st with marks := Function.update st.marks k (some .temporary) }

/-- `m[k] = 1` and `s[#s+1] = k` -/
def Visits.finish (st : Visits K) (k : K) : Visits K :=
  ⟨Function.update st.marks k (some .permanent), st.sorted ++ [k]⟩

/-- `visit(k, n, m, s)` -/
def visit (n : Table K (List K)) : ℕ → K → Visits K → Except Stop (Visits K)
  | 0, _, _ => .error .outOfFuel
  | fuel + 1, k, st =>
      match st.marks k with
      | some .temporary => .error .circular
      | some .permanent => .ok st
      | none =>
          match n.get k with
          | none => .error .noNode
          | some f => do
              let st ← f.foldlM (fun st w => visit n fuel w st) (st.start k)
              return st.finish k

/-- `add(...)`: the elements become nodes, and each depends on the one before it. -/
def add (n : Table K (List K)) (p : List K) : Table K (List K) :=
  let n := p.foldl (fun n f => if n.get f = none then n.set f [] else n) n
  (p.zip p.tail).foldl (fun n tf => n.set tf.2 ((n.get tf.2).getD [] ++ [tf.1])) n

/-- `sort()` -/
def sort (n : Table K (List K)) (pairs : Order K) : Except Stop (List K) := do
  let st ← (pairs.apply n.keys).foldlM (fun st k =>
    if st.marks k = none then visit n (n.keys.length + 1) k st else .ok st) {}
  return st.sorted

/-! ## Visiting -/

/-- The node `x` depends on `w`. -/
def Dep (n : Table K (List K)) (x w : K) : Prop := ∃ f, n.get x = some f ∧ w ∈ f

/-- What the visits have in common between two nodes. -/
structure Good (n : Table K (List K)) (st : Visits K) : Prop where
  permanent_iff : ∀ k, st.marks k = some .permanent ↔ k ∈ st.sorted
  nodup : st.sorted.Nodup
  depsFirst : DepsFirst (Dep n) st.sorted
  mem_keys : ∀ k ∈ st.sorted, k ∈ n.keys

/-- Nodes are added, and those that are being visited stay so. -/
structure Visits.Grows (st st' : Visits K) : Prop where
  sub : st.sorted ⊆ st'.sorted
  temporary_iff : ∀ k, st'.marks k = some .temporary ↔ st.marks k = some .temporary

/-- A computation ends well or has met a cycle. -/
def Ends {α : Type} (n : Table K (List K)) (x : Except Stop α) (done : α → Prop) : Prop :=
  match x with
  | .ok a => done a
  | .error .circular => ∃ c, TransGen (Dep n) c c
  | .error _ => False

/-- How many nodes have not been visited. -/
def unseen (n : Table K (List K)) (st : Visits K) : ℕ :=
  (n.keys.toFinset.filter fun k => st.marks k = none).card

section Visiting

variable {n : Table K (List K)} {st st' st'' : Visits K} {k : K}

omit [DecidableEq K] in
theorem Visits.Grows.refl (st : Visits K) : st.Grows st := ⟨fun _ => id, fun _ => Iff.rfl⟩

omit [DecidableEq K] in
theorem Visits.Grows.trans (h : st.Grows st') (h' : st'.Grows st'') : st.Grows st'' :=
  ⟨fun _ hk => h'.sub (h.sub hk), fun k => (h'.temporary_iff k).trans (h.temporary_iff k)⟩

omit [DecidableEq K] in
/-- What has been seen stays seen. -/
theorem Visits.Grows.eq_none (h : st.Grows st') (hg : Good n st) (hg' : Good n st')
    (hk : st'.marks k = none) : st.marks k = none := by
  cases hm : st.marks k with
  | none => rfl
  | some m =>
      cases m with
      | temporary =>
          rw [(h.temporary_iff k).mpr hm] at hk
          cases hk
      | permanent =>
          rw [(hg'.permanent_iff k).mpr (h.sub ((hg.permanent_iff k).mp hm))] at hk
          cases hk

theorem Visits.Grows.unseen_le (h : st.Grows st') (hg : Good n st) (hg' : Good n st') :
    unseen n st' ≤ unseen n st :=
  Finset.card_le_card (Finset.monotone_filter_right _ fun _ _ => h.eq_none hg hg')

theorem unseen_le (n : Table K (List K)) (st : Visits K) : unseen n st ≤ n.keys.length :=
  (Finset.card_filter_le _ _).trans (List.toFinset_card_le _)

theorem start_self (st : Visits K) (k : K) : (st.start k).marks k = some .temporary :=
  Function.update_self _ _ _

theorem start_of_ne {k' : K} (h : k' ≠ k) : (st.start k).marks k' = st.marks k' :=
  Function.update_of_ne h _ _

theorem finish_self (st : Visits K) (k : K) : (st.finish k).marks k = some .permanent :=
  Function.update_self _ _ _

theorem finish_of_ne {k' : K} (h : k' ≠ k) : (st.finish k).marks k' = st.marks k' :=
  Function.update_of_ne h _ _

theorem mem_finish {k' : K} : k' ∈ (st.finish k).sorted ↔ k' ∈ st.sorted ∨ k' = k := by
  rw [Visits.finish, List.mem_append, List.mem_singleton]

theorem unseen_start (hk : k ∈ n.keys) (hm : st.marks k = none) :
    unseen n (st.start k) < unseen n st := by
  refine Finset.card_lt_card (Finset.ssubset_iff_of_subset ?_ |>.mpr ⟨k, ?_, ?_⟩)
  · refine Finset.monotone_filter_right _ fun k' _ hk' => ?_
    by_cases heq : k' = k
    · rwa [heq]
    · rwa [start_of_ne heq] at hk'
  · exact Finset.mem_filter.mpr ⟨List.mem_toFinset.mpr hk, hm⟩
  · intro hmem
    have hnone := (Finset.mem_filter.mp hmem).2
    rw [start_self] at hnone
    cases hnone

theorem Good.start (hg : Good n st) (hm : st.marks k = none) : Good n (st.start k) := by
  refine ⟨fun k' => ?_, hg.nodup, hg.depsFirst, hg.mem_keys⟩
  by_cases heq : k' = k
  · subst heq
    rw [start_self]
    refine iff_of_false nofun fun hk => ?_
    rw [(hg.permanent_iff k').mpr hk] at hm
    cases hm
  · rw [start_of_ne heq]
    exact hg.permanent_iff k'

/-- A node is done when all that it depends on is. -/
theorem Good.finish (hg : Good n st) (hk : k ∈ n.keys) (hm : st.marks k = some .temporary)
    (hdeps : ∀ w, Dep n k w → w ∈ st.sorted) :
    Good n (st.finish k) := by
  have hnew : k ∉ st.sorted := by
    intro hmem
    rw [(hg.permanent_iff k).mpr hmem] at hm
    cases hm
  refine ⟨fun k' => ?_, ?_, hg.depsFirst.snoc hdeps, fun k' hk' => ?_⟩
  · rw [mem_finish]
    by_cases heq : k' = k
    · subst heq
      rw [finish_self]
      exact iff_of_true rfl (Or.inr rfl)
    · rw [finish_of_ne heq, hg.permanent_iff]
      exact (or_iff_left heq).symm
  · rw [Visits.finish, List.nodup_append_comm]
    exact List.nodup_cons.mpr ⟨hnew, hg.nodup⟩
  · rcases mem_finish.mp hk' with hk' | rfl
    · exact hg.mem_keys k' hk'
    · exact hk

theorem Visits.Grows.finish (h : (st.start k).Grows st') (hm : st.marks k = none) :
    st.Grows (st'.finish k) := by
  refine ⟨fun _ hk => mem_finish.mpr (Or.inl (h.sub hk)), fun k' => ?_⟩
  by_cases heq : k' = k
  · subst heq
    rw [finish_self, hm]
    exact iff_of_false nofun nofun
  · rw [finish_of_ne heq, h.temporary_iff, start_of_ne heq]

omit [DecidableEq K] in
theorem Ends.bind {α : Type} {x : Except Stop (Visits K)} {f : Visits K → Except Stop α}
    {done : Visits K → Prop} {done' : α → Prop} (h : Ends n x done)
    (hf : ∀ st, done st → Ends n (f st) done') : Ends n (x >>= f) done' := by
  cases x with
  | ok st => exact hf st h
  | error e => cases e <;> exact h

omit [DecidableEq K] in
theorem Ends.mono {x : Except Stop (Visits K)} {done done' : Visits K → Prop}
    (h : Ends n x done) (hd : ∀ st, done st → done' st) : Ends n x done' := by
  cases x with
  | ok st => exact hd st h
  | error e => cases e <;> exact h

/-- A node is visited with all that it depends on, or there is a cycle.  All nodes that are being
visited depend on it. -/
theorem visit_ends (hkeys : ∀ x w, Dep n x w → w ∈ n.keys) {fuel : ℕ} (hg : Good n st)
    (hk : k ∈ n.keys) (hfuel : unseen n st < fuel)
    (hpath : ∀ t, st.marks t = some .temporary → TransGen (Dep n) t k) :
    Ends n (visit n fuel k st) fun st' => Good n st' ∧ st.Grows st' ∧ k ∈ st'.sorted := by
  induction fuel generalizing k st with
  | zero => omega
  | succ fuel ih =>
      rw [visit]
      cases hm : st.marks k with
      | some m =>
          cases m with
          | temporary => exact ⟨k, hpath k hm⟩
          | permanent => exact ⟨hg, .refl st, (hg.permanent_iff k).mp hm⟩
      | none =>
          obtain ⟨f, hf⟩ := Option.isSome_iff_exists.mp ((n.mem_keys k).mp hk)
          simp only [hf]
          have hless := unseen_start hk hm
          -- the loop over what the node depends on
          have hloop : ∀ ws : List K, (∀ w ∈ ws, w ∈ f) → ∀ st₁, Good n st₁ →
              (st.start k).Grows st₁ →
              Ends n (ws.foldlM (fun st w => visit n fuel w st) st₁) fun st' =>
                Good n st' ∧ st₁.Grows st' ∧ ∀ w ∈ ws, w ∈ st'.sorted := by
            intro ws
            induction ws with
            | nil => exact fun _ st₁ hg₁ _ => ⟨hg₁, .refl st₁, nofun⟩
            | cons w ws ihws =>
                intro hws st₁ hg₁ hgrows
                obtain ⟨hw, hws⟩ := List.forall_mem_cons.mp hws
                have hdep : Dep n k w := ⟨f, hf, hw⟩
                have hle := hgrows.unseen_le (hg.start hm) hg₁
                rw [List.foldlM_cons]
                refine (ih hg₁ (hkeys k w hdep) (by omega) ?_).bind ?_
                · intro t ht
                  have ht' := (hgrows.temporary_iff t).mp ht
                  by_cases htk : t = k
                  · rw [htk]
                    exact .single hdep
                  · rw [start_of_ne htk] at ht'
                    exact (hpath t ht').tail hdep
                · rintro st₂ ⟨hg₂, hgrows₂, hmem⟩
                  refine (ihws hws st₂ hg₂ (hgrows.trans hgrows₂)).mono ?_
                  rintro st₃ ⟨hg₃, hgrows₃, hall⟩
                  exact ⟨hg₃, hgrows₂.trans hgrows₃,
                    List.forall_mem_cons.mpr ⟨hgrows₃.sub hmem, hall⟩⟩
          refine (hloop f (fun w hw => hw) (st.start k) (hg.start hm) (.refl _)).bind ?_
          rintro st' ⟨hg', hgrows, hall⟩
          have hmark : st'.marks k = some .temporary :=
            (hgrows.temporary_iff k).mpr (start_self st k)
          refine ⟨hg'.finish hk hmark ?_, hgrows.finish hm, mem_finish.mpr (Or.inr rfl)⟩
          rintro w ⟨f', hf', hw⟩
          rw [hf] at hf'
          obtain rfl := Option.some.inj hf'
          exact hall w hw

/-- The sort visits all nodes, or there is a cycle. -/
theorem sort_ends (hkeys : ∀ x w, Dep n x w → w ∈ n.keys) (pairs : Order K) :
    Ends n (sort n pairs) fun s =>
      s.Nodup ∧ DepsFirst (Dep n) s ∧ ∀ k, k ∈ s ↔ k ∈ n.keys := by
  have hloop : ∀ ks : List K, (∀ k ∈ ks, k ∈ n.keys) → ∀ st, Good n st →
      (∀ t, st.marks t ≠ some .temporary) →
      Ends n (ks.foldlM (fun st k =>
          if st.marks k = none then visit n (n.keys.length + 1) k st else .ok st) st) fun st' =>
        Good n st' ∧ st.Grows st' ∧ ∀ k ∈ ks, k ∈ st'.sorted := by
    intro ks
    induction ks with
    | nil => exact fun _ st hg _ => ⟨hg, .refl st, nofun⟩
    | cons k ks ih =>
        intro hks st hg htemp
        obtain ⟨hk, hks⟩ := List.forall_mem_cons.mp hks
        have hvisit : Ends n (if st.marks k = none then visit n (n.keys.length + 1) k st
            else .ok st) fun st' => Good n st' ∧ st.Grows st' ∧ k ∈ st'.sorted := by
          split_ifs with hm
          · exact visit_ends hkeys hg hk (Nat.lt_succ_of_le (unseen_le n st))
              fun t ht => absurd ht (htemp t)
          · cases hm' : st.marks k with
            | none => exact absurd hm' hm
            | some m =>
                cases m with
                | temporary => exact absurd hm' (htemp k)
                | permanent => exact ⟨hg, .refl st, (hg.permanent_iff k).mp hm'⟩
        rw [List.foldlM_cons]
        refine hvisit.bind ?_
        rintro st₁ ⟨hg₁, hgrows₁, hmem⟩
        refine (ih hks st₁ hg₁ fun t ht => htemp t ((hgrows₁.temporary_iff t).mp ht)).mono ?_
        rintro st₂ ⟨hg₂, hgrows₂, hall⟩
        exact ⟨hg₂, hgrows₁.trans hgrows₂, List.forall_mem_cons.mpr ⟨hgrows₂.sub hmem, hall⟩⟩
  have hgood : Good n {} := ⟨fun _ => iff_of_false nofun List.not_mem_nil, List.nodup_nil,
    depsFirst_nil, nofun⟩
  have hmem : ∀ k, k ∈ pairs.apply n.keys ↔ k ∈ n.keys := fun k => (pairs.perm n.keys).mem_iff
  refine (hloop (pairs.apply n.keys) (fun k => (hmem k).mp) {} hgood nofun).bind ?_
  rintro st ⟨hg, -, hall⟩
  exact ⟨hg.nodup, hg.depsFirst, fun k => ⟨hg.mem_keys k, fun hk => hall k ((hmem k).mpr hk)⟩⟩

end Visiting

/-! ## Adding -/

section Adding

variable {n : Table K (List K)}

theorem dep_set {x w k : K} {f : List K} :
    Dep (n.set k f) x w ↔ if x = k then w ∈ f else Dep n x w := by
  split_ifs with h
  · subst h
    rw [Dep, get_set_self]
    exact ⟨fun ⟨f', hf', hw⟩ => Option.some.inj hf' ▸ hw, fun hw => ⟨f, rfl, hw⟩⟩
  · rw [Dep, get_set_of_ne h]
    rfl

theorem mem_keys_set {x k : K} {f : List K} : x ∈ (n.set k f).keys ↔ x ∈ n.keys ∨ x = k := by
  rw [Table.mem_keys, Table.mem_keys]
  by_cases h : x = k
  · subst h
    rw [get_set_self]
    exact iff_of_true rfl (Or.inr rfl)
  · rw [get_set_of_ne h]
    exact (or_iff_left h).symm

/-- The elements of the list become nodes. -/
theorem foldl_nodes (p : List K) (n : Table K (List K)) :
    let n' := p.foldl (fun n f => if n.get f = none then n.set f [] else n) n
    (∀ k, k ∈ n'.keys ↔ k ∈ n.keys ∨ k ∈ p) ∧ ∀ x w, Dep n' x w ↔ Dep n x w := by
  induction p generalizing n with
  | nil => exact ⟨fun k => by simp, fun x w => Iff.rfl⟩
  | cons a p ih =>
      have hstep : (∀ k, k ∈ (if n.get a = none then n.set a [] else n).keys ↔
            k ∈ n.keys ∨ k = a) ∧
          ∀ x w, Dep (if n.get a = none then n.set a [] else n) x w ↔ Dep n x w := by
        split_ifs with h
        · refine ⟨fun k => mem_keys_set, fun x w => ?_⟩
          rw [dep_set]
          split_ifs with hx
          · subst hx
            refine iff_of_false List.not_mem_nil ?_
            rintro ⟨f, hf, -⟩
            rw [h] at hf
            cases hf
          · rfl
        · refine ⟨fun k => (or_iff_left_of_imp ?_).symm, fun x w => Iff.rfl⟩
          rintro rfl
          exact (n.mem_keys k).mpr (Option.isSome_iff_ne_none.mpr h)
      obtain ⟨hkeys, hdep⟩ := ih (if n.get a = none then n.set a [] else n)
      refine ⟨fun k => (hkeys k).trans ?_, fun x w => (hdep x w).trans (hstep.2 x w)⟩
      rw [hstep.1, List.mem_cons, or_assoc]

/-- Each element depends on the one before it. -/
theorem foldl_edges (l : List (K × K)) (n : Table K (List K)) (hl : ∀ tf ∈ l, tf.2 ∈ n.keys) :
    let n' := l.foldl (fun n tf => n.set tf.2 ((n.get tf.2).getD [] ++ [tf.1])) n
    (∀ k, k ∈ n'.keys ↔ k ∈ n.keys) ∧ ∀ x w, Dep n' x w ↔ Dep n x w ∨ (w, x) ∈ l := by
  induction l generalizing n with
  | nil => exact ⟨fun k => Iff.rfl, fun x w => by simp⟩
  | cons tf l ih =>
      obtain ⟨htf, hl⟩ := List.forall_mem_cons.mp hl
      let n₁ := n.set tf.2 ((n.get tf.2).getD [] ++ [tf.1])
      have hkeys₁ : ∀ k, k ∈ n₁.keys ↔ k ∈ n.keys := by
        intro k
        refine mem_keys_set.trans (or_iff_left_of_imp ?_)
        rintro rfl
        exact htf
      obtain ⟨f, hf⟩ := Option.isSome_iff_exists.mp ((n.mem_keys tf.2).mp htf)
      have hdep₁ : ∀ x w, Dep n₁ x w ↔ Dep n x w ∨ (w, x) = tf := by
        intro x w
        rw [dep_set, hf, Option.getD_some]
        split_ifs with hx
        · subst hx
          rw [List.mem_append, List.mem_singleton]
          refine or_congr ⟨fun hw => ⟨f, hf, hw⟩, ?_⟩ ⟨fun h => by rw [h], fun h => ?_⟩
          · rintro ⟨f', hf', hw⟩
            rw [hf] at hf'
            exact Option.some.inj hf' ▸ hw
          · exact congrArg Prod.fst h
        · refine (or_iff_left fun h => hx ?_).symm
          exact congrArg Prod.snd h
      obtain ⟨hkeys, hdep⟩ := ih n₁ fun tf' htf' => (hkeys₁ _).mpr (hl tf' htf')
      refine ⟨fun k => (hkeys k).trans (hkeys₁ k), fun x w => (hdep x w).trans ?_⟩
      rw [hdep₁, List.mem_cons, or_assoc]

omit [DecidableEq K] in
theorem mem_zip_tail {p : List K} {w x : K} : (w, x) ∈ p.zip p.tail ↔ [w, x] <:+: p := by
  induction p with
  | nil => simp
  | cons a p ih =>
      cases p with
      | nil =>
          refine iff_of_false List.not_mem_nil fun h => ?_
          have hlen := h.length_le
          simp at hlen
      | cons b p =>
          rw [List.tail_cons] at ih ⊢
          rw [List.zip_cons_cons, List.mem_cons, List.infix_cons_iff, List.cons_prefix_cons,
            List.cons_prefix_cons, ← ih, Prod.mk.injEq]
          simp

theorem add_spec (n : Table K (List K)) (p : List K) :
    (∀ k, k ∈ (add n p).keys ↔ k ∈ n.keys ∨ k ∈ p) ∧
      ∀ x w, Dep (add n p) x w ↔ Dep n x w ∨ [w, x] <:+: p := by
  obtain ⟨hkeys, hdep⟩ := foldl_nodes p n
  obtain ⟨hkeys', hdep'⟩ := foldl_edges (p.zip p.tail)
    (p.foldl (fun n f => if n.get f = none then n.set f [] else n) n) (by
      rintro ⟨t, f⟩ htf
      exact (hkeys f).mpr (Or.inr (List.mem_of_mem_tail (List.of_mem_zip htf).2)))
  refine ⟨fun k => (hkeys' k).trans (hkeys k), fun x w => (hdep' x w).trans ?_⟩
  rw [hdep, mem_zip_tail]

theorem foldl_add (adds : List (List K)) (n : Table K (List K)) :
    (∀ k, k ∈ (adds.foldl add n).keys ↔ k ∈ n.keys ∨ ∃ p ∈ adds, k ∈ p) ∧
      ∀ x w, Dep (adds.foldl add n) x w ↔ Dep n x w ∨ ∃ p ∈ adds, [w, x] <:+: p := by
  induction adds generalizing n with
  | nil => simp
  | cons p adds ih =>
      obtain ⟨hkeys, hdep⟩ := ih (add n p)
      obtain ⟨hkeys', hdep'⟩ := add_spec n p
      refine ⟨fun k => (hkeys k).trans ?_, fun x w => (hdep x w).trans ?_⟩
      · rw [hkeys', List.exists_mem_cons_iff, or_assoc]
      · rw [hdep', List.exists_mem_cons_iff, or_assoc]

end Adding

/-- Whatever lists are added, and in whatever order the nodes are visited: the sort gives all
elements once, with every list that was added as a part of it, or there is no such order. -/
theorem sort_foldl_add (adds : List (List K)) (pairs : Order K) :
    match sort (adds.foldl add Table.empty) pairs with
    | .ok s => s.Nodup ∧ (∀ k, k ∈ s ↔ ∃ p ∈ adds, k ∈ p) ∧ ∀ p ∈ adds, p.Sublist s
    | .error .circular => ¬ ∃ s : List K, s.Nodup ∧ ∀ p ∈ adds, p.Sublist s
    | .error _ => False := by
  obtain ⟨hkeys, hdep⟩ := foldl_add adds Table.empty
  have hkeys : ∀ k, k ∈ (adds.foldl add Table.empty).keys ↔ ∃ p ∈ adds, k ∈ p :=
    fun k => (hkeys k).trans (or_iff_right List.not_mem_nil)
  have hdep : ∀ x w, Dep (adds.foldl add Table.empty) x w ↔ ∃ p ∈ adds, [w, x] <:+: p :=
    fun x w => (hdep x w).trans (or_iff_right fun h => nomatch h.choose_spec.1)
  have hends := sort_ends (n := adds.foldl add Table.empty) (fun x w h => by
    obtain ⟨p, hp, hadj⟩ := (hdep x w).mp h
    exact (hkeys w).mpr ⟨p, hp, hadj.subset List.mem_cons_self⟩) pairs
  cases hsort : sort (adds.foldl add Table.empty) pairs with
  | ok s =>
      rw [hsort] at hends
      obtain ⟨hnodup, horder, hmem⟩ := hends
      have hmem : ∀ k, k ∈ s ↔ ∃ p ∈ adds, k ∈ p := fun k => (hmem k).trans (hkeys k)
      refine ⟨hnodup, hmem, fun p hp => horder.sublist_of_isChain ?_ fun x hx => ?_⟩
      · refine List.isChain_iff_forall_rel_of_append_cons_cons.mpr fun w x A B heq => ?_
        exact (hdep x w).mpr ⟨p, hp, A, B, by simp [heq]⟩
      · exact (hmem x).mpr ⟨p, hp, List.mem_of_mem_getLast? hx⟩
  | error e =>
      rw [hsort] at hends
      cases e with
      | circular =>
          obtain ⟨c, hc⟩ := hends
          rintro ⟨s, hnodup, hall⟩
          have horder : DepsFirst (Dep (adds.foldl add Table.empty)) s := by
            rintro A x B rfl w hw
            obtain ⟨p, hp, hadj⟩ := (hdep x w).mp hw
            exact mem_of_pair_sublist hnodup (hadj.sublist.trans (hall p hp))
          obtain ⟨w, hw, -⟩ := Relation.TransGen.head'_iff.mp hc
          obtain ⟨p, hp, hadj⟩ := (hdep c w).mp hw
          exact horder.not_transGen hnodup ((hall p hp).subset (hadj.subset (by simp))) hc
      | noNode => exact hends
      | outOfFuel => exact hends

end LuaAttic.DepOrder
