import LuaAttic.Varlinker.Runs

/-!
# When propagation is consistent

A variable is computed when it is first visited.  All variables end up
consistent, whatever their functions and the order of visits, exactly when
nothing that a variable reads is visited after it.
-/

namespace LuaAttic.Varlinker

open LuaAttic.Support

variable {Val : Type}

/-! ## The condition -/

/-- Whichever way a variable is come to, what one of its dependents reads has
been passed, apart from what does not change. -/
def Graph.Ordered (g : Graph) (k : ℕ) : Prop :=
  ∀ x w y, g.edge x w → g.reads y w → g.Reaches k y → y ≠ x →
    ∀ q, Path g.edge k q x → y ∈ q

/-- What changes in a graph is neither read nor computed in the other. -/
def Graph.Apart (g g' : Graph) (k : ℕ) : Prop :=
  ∀ w, g.Reaches k w → ¬ g'.Reaches k w ∧ ∀ y, g.reads y w → ¬ g'.Reaches k y

/-- The condition on the graphs of the linksets. -/
structure Settles (gs : List Graph) (k : ℕ) : Prop where
  nonempty : gs ≠ []
  ordered : ∀ g ∈ gs, g.Ordered k
  apart : gs.Pairwise fun g g' => g.Apart g' k ∧ g'.Apart g k

/-! ## The order of the steps -/

section InOrder

variable {Λ : Linker Val} {k : ℕ}

/-- What a step reads. -/
def stepInputs (gs : List Graph) (b : ℕ × ℕ) : Set ℕ :=
  fun y => ∃ g, gs[b.1]? = some g ∧ g.reads y b.2

theorem mem_stepInputs_iff {L : Linkset Val} {i : ℕ} (h : Λ.linksets[i]? = some L)
    {w y : ℕ} : y ∈ stepInputs Λ.graphs (i, w) ↔ L.graph.reads y w := by
  have hg : Λ.graphs[i]? = some L.graph := by simp [Linker.graphs, h]
  constructor
  · rintro ⟨g, hg', hreads⟩
    obtain rfl : L.graph = g := Option.some.inj (hg.symm.trans hg')
    exact hreads
  · exact fun hreads => ⟨L.graph, hg, hreads⟩

theorem pairwise_stepsFrom {R : ℕ × ℕ → ℕ × ℕ → Prop} {Ls : List (Linkset Val)}
    {i : ℕ} :
    (stepsFrom k i Ls).Pairwise R ↔
      (∀ (n : ℕ) (L : Linkset Val), Ls[n]? = some L →
        (L.order k).Pairwise fun a b => R (i + n, a) (i + n, b)) ∧
      ∀ (m n : ℕ) (L L' : Linkset Val), m < n →
        Ls[m]? = some L → Ls[n]? = some L' → ∀ a ∈ L.order k, ∀ b ∈ L'.order k,
          R (i + m, a) (i + n, b) := by
  induction Ls generalizing i with
  | nil => simp [stepsFrom]
  | cons L Ls ih =>
      rw [stepsFrom, List.pairwise_append, ih, List.pairwise_map]
      constructor
      · rintro ⟨hhead, ⟨hin, hout⟩, hcross⟩
        refine ⟨fun n L' hn => ?_, fun m n L₁ L₂ hmn hm hn a ha b hb => ?_⟩
        · cases n with
          | zero =>
              obtain rfl : L = L' := by simpa using hn
              exact hhead
          | succ n =>
              simpa only [Nat.succ_eq_add_one, ← Nat.add_assoc, Nat.add_right_comm]
                using hin n L' hn
        · obtain ⟨n, rfl⟩ := Nat.exists_eq_succ_of_ne_zero (Nat.ne_of_gt (Nat.zero_lt_of_lt hmn))
          cases m with
          | zero =>
              obtain rfl : L = L₁ := by simpa using hm
              refine hcross _ (List.mem_map_of_mem ha) _ (mem_stepsFrom_iff.mpr ?_)
              exact ⟨n, L₂, hn, by simp only; omega, hb⟩
          | succ m =>
              have h := hout m n L₁ L₂ (Nat.lt_of_succ_lt_succ hmn) hm hn a ha b hb
              simpa only [Nat.succ_eq_add_one, ← Nat.add_assoc, Nat.add_right_comm] using h
      · rintro ⟨hin, hout⟩
        refine ⟨hin 0 L rfl, ⟨fun n L' hn => ?_, fun m n L₁ L₂ hmn hm hn a ha b hb => ?_⟩,
          fun a ha b hb => ?_⟩
        · simpa only [Nat.succ_eq_add_one, ← Nat.add_assoc, Nat.add_right_comm]
            using hin (n + 1) L' hn
        · have h := hout (m + 1) (n + 1) L₁ L₂ (Nat.succ_lt_succ hmn) hm hn a ha b hb
          simpa only [Nat.succ_eq_add_one, ← Nat.add_assoc, Nat.add_right_comm] using h
        · obtain ⟨w, hw, rfl⟩ := List.mem_map.mp ha
          obtain ⟨n, L', hn, hb1, hb2⟩ := mem_stepsFrom_iff.mp hb
          obtain ⟨j, u⟩ := b
          obtain rfl : j = i + (n + 1) := by simp only at hb1; omega
          exact hout 0 (n + 1) L L' n.succ_pos rfl hn w hw u hb2

theorem nodup_steps (Λ : Linker Val) (k : ℕ) : (Λ.steps k).Nodup := by
  refine pairwise_stepsFrom.mpr ⟨fun n L _ => ?_, fun m n L L' hmn _ _ a _ b _ => ?_⟩
  · exact (nodup_order L k).imp fun hab h => hab (congrArg Prod.snd h)
  · intro h
    have := congrArg Prod.fst h
    simp only at this
    omega

/-- The steps are in order when this holds within each linkset and between
each two. -/
theorem inOrder_iff (hacyclic : ∀ L ∈ Λ.linksets, L.graph.Acyclic) :
    InOrder Prod.snd (stepInputs Λ.graphs) (Λ.steps k) ↔
      (∀ L ∈ Λ.linksets, (L.order k).Pairwise fun a b => ¬ L.graph.reads b a) ∧
        Λ.graphs.Pairwise fun g g' => g.Apart g' k := by
  rw [InOrder, Linker.steps, pairwise_stepsFrom]
  refine and_congr ?_ ?_
  · constructor
    · intro h L hL
      obtain ⟨n, hn, rfl⟩ := List.mem_iff_getElem.mp hL
      have hget : Λ.linksets[n]? = some Λ.linksets[n] := List.getElem?_eq_getElem hn
      refine (h n _ hget).imp fun hab hreads => hab.2 ?_
      rw [Nat.zero_add, mem_stepInputs_iff hget]
      exact hreads
    · intro h n L hn
      have hL : L ∈ Λ.linksets := List.mem_of_getElem? hn
      refine ((nodup_order L k).and (h L hL)).imp fun hab => ⟨hab.1.symm, ?_⟩
      rw [Nat.zero_add, mem_stepInputs_iff hn]
      exact hab.2
  · rw [List.pairwise_iff_getElem]
    constructor
    · intro h m n hm hn hmn
      have hm' : m < Λ.linksets.length := by simpa [Linker.graphs] using hm
      have hn' : n < Λ.linksets.length := by simpa [Linker.graphs] using hn
      have hgetm := List.getElem?_eq_getElem hm'
      have hgetn := List.getElem?_eq_getElem hn'
      have hcross := h m n _ _ hmn hgetm hgetn
      simp only [Linker.graphs, List.getElem_map]
      intro w hw
      rw [← mem_order_iff (hacyclic _ (List.getElem_mem hm'))] at hw
      refine ⟨fun hw' => ?_, fun y hy hy' => ?_⟩
      · rw [← mem_order_iff (hacyclic _ (List.getElem_mem hn'))] at hw'
        exact (hcross w hw w hw').1 rfl
      · rw [← mem_order_iff (hacyclic _ (List.getElem_mem hn'))] at hy'
        refine (hcross w hw y hy').2 ?_
        rw [Nat.zero_add, mem_stepInputs_iff hgetm]
        exact hy
    · intro h m n L L' hmn hm hn a ha b hb
      have hLm := List.mem_of_getElem? hm
      have hLn := List.mem_of_getElem? hn
      rw [mem_order_iff (hacyclic L hLm)] at ha
      rw [mem_order_iff (hacyclic L' hLn)] at hb
      obtain ⟨hm', rfl⟩ := List.getElem?_eq_some_iff.mp hm
      obtain ⟨hn', rfl⟩ := List.getElem?_eq_some_iff.mp hn
      have happart := h m n (by simpa [Linker.graphs] using hm')
        (by simpa [Linker.graphs] using hn') hmn
      simp only [Linker.graphs, List.getElem_map] at happart
      refine ⟨?_, ?_⟩
      · rintro rfl
        exact (happart _ ha).1 hb
      · rw [Nat.zero_add, mem_stepInputs_iff hm]
        exact fun hreads => (happart a ha).2 b hreads hb

end InOrder

/-! ## The condition is enough -/

section Sufficient

variable {Λ : Linker Val} {L : Linkset Val} {k : ℕ}

theorem Graph.Acyclic.not_reads {g : Graph} (h : g.Acyclic) {x : ℕ} :
    ¬ g.reads x x :=
  fun hx => h x (.single (.inr hx))

/-- In a walk what a variable reads comes before it. -/
theorem order_pairwise (hordered : L.graph.Ordered k)
    (hacyclic : L.graph.Acyclic) :
    (L.order k).Pairwise fun a b => ¬ L.graph.reads b a := by
  by_contra hnot
  obtain ⟨A, w, B, y, hsplit, hy, hreads⟩ := exists_split_of_not_pairwise hnot
  rw [not_not] at hreads
  have hvisited : L.visited k = (k :: A) ++ w :: B := by
    rw [visited_eq, hsplit, List.cons_append]
  have hnodup := nodup_visited L k
  rw [hvisited] at hnodup
  have hlater : y ∉ k :: A := fun hmem =>
    (List.nodup_append.mp hnodup).2.2 y hmem y (List.mem_cons_of_mem w hy) rfl
  have hreach : L.graph.Reaches k y := by
    rw [← mem_order_iff hacyclic, hsplit]
    exact List.mem_append_right A (List.mem_cons_of_mem w hy)
  obtain ⟨q, hq, hsub⟩ := visited_afterPaths L k _ _ _ hvisited
  cases hq with
  | nil =>
      have hw := notMem_order L k
      rw [hsplit] at hw
      exact hw (List.mem_append_right A List.mem_cons_self)
  | @snoc q x _ hq hw =>
      by_cases hyx : y = x
      · subst hyx
        exact hlater (hsub (by simp))
      · have hpath : Path L.graph.edge k q x := hq.mono fun _ _ => mem_successors_iff.mp
        have hmem := hordered x w y (mem_successors_iff.mp hw) hreads hreach hyx q hpath
        exact hlater (hsub (List.mem_append_left _ hmem))

/-- A variable that is reached is computed by one of its dependencies. -/
theorem exists_dep_of_reaches {w : ℕ} (h : L.graph.Reaches k w) :
    ∃ x dep, (w, dep) ∈ L.dependents x := by
  obtain ⟨x, -, dep, hdep⟩ := Relation.TransGen.tail'_iff.mp h
  exact ⟨x, dep, hdep⟩

theorem exists_step {b : ℕ × ℕ} (hΛ : Λ.Admissible) (hb : b ∈ Λ.steps k) :
    ∃ L x dep, Λ.linksets[b.1]? = some L ∧ (b.2, dep) ∈ L.dependents x ∧
      Λ.stepFn b = dep.fn := by
  obtain ⟨L, hget, hw⟩ := mem_steps_iff.mp hb
  have hL : L ∈ Λ.linksets := List.mem_of_getElem? hget
  rw [mem_order_iff (hΛ.acyclic L hL)] at hw
  obtain ⟨x, dep, hdep⟩ := exists_dep_of_reaches hw
  exact ⟨L, x, dep, hget, hdep,
    (stepFn_eq hget b.2).trans (rule_eq (hΛ.once L hL) hdep)⟩

theorem stepFn_reads (hΛ : Λ.Admissible) :
    ReadsInputs (stepInputs Λ.graphs) Λ.stepFn (Λ.steps k) := by
  intro b hb s t hst
  obtain ⟨L, x, dep, hget, hdep, hfn⟩ := exists_step hΛ hb
  rw [hfn]
  refine dep.reads s t fun y hy => hst y ?_
  exact (mem_stepInputs_iff hget).mpr ⟨x, dep, hdep, hy⟩

theorem consistent_of_inOrder (hΛ : Λ.Admissible) (hne : Λ.linksets ≠ [])
    (hsteps : InOrder Prod.snd (stepInputs Λ.graphs) (Λ.steps k)) (v : Val)
    (s : ℕ → Val) : Λ.Consistent k v s := by
  refine ⟨_, update_eq hΛ hne k v s, ?_, fun L hL x w dep hdep hw => ?_⟩
  · rw [runSteps_of_notMem, Function.update_self]
    rintro b hb rfl
    obtain ⟨L, -, hw⟩ := mem_steps_iff.mp hb
    exact notMem_order L _ hw
  · obtain ⟨i, hget⟩ := List.mem_iff_getElem?.mp hL
    have hstep : (i, w) ∈ Λ.steps k :=
      mem_steps_iff.mpr ⟨L, hget, (mem_order_iff (hΛ.acyclic L hL)).mpr hw⟩
    have hself : ∀ b ∈ Λ.steps k, b.2 ∉ stepInputs Λ.graphs b := by
      intro b hb hmem
      obtain ⟨L', hget', -⟩ := mem_steps_iff.mp hb
      exact (hΛ.acyclic L' (List.mem_of_getElem? hget')).not_reads
        ((mem_stepInputs_iff hget').mp hmem)
    have hfinal := computed_of_inOrder (stepFn_reads hΛ) hself hsteps
      (Function.update s k v) (i, w) hstep
    rw [stepFn_eq hget, rule_eq (hΛ.once L hL) hdep] at hfinal
    exact hfinal

theorem inOrder_of_settles (hΛ : Λ.Admissible) (h : Settles Λ.graphs k) :
    InOrder Prod.snd (stepInputs Λ.graphs) (Λ.steps k) := by
  refine (inOrder_iff hΛ.acyclic).mpr ⟨fun L hL => ?_, h.apart.imp And.left⟩
  exact order_pairwise (h.ordered _ (List.mem_map_of_mem hL)) (hΛ.acyclic L hL)

/-- The condition does not depend on the order of the linksets. -/
theorem Settles.perm {gs gs' : List Graph} (h : Settles gs k) (hperm : gs.Perm gs') :
    Settles gs' k where
  nonempty hnil := h.nonempty (by
    rw [hnil] at hperm
    exact hperm.eq_nil)
  ordered g hg := h.ordered g (hperm.mem_iff.mpr hg)
  apart := (hperm.pairwise_iff fun hgg => hgg.symm).mp h.apart

theorem consistent_of_settles (hΛ : Λ.Admissible) (h : Settles Λ.graphs k) (v : Val)
    (s : ℕ → Val) : Λ.Consistent k v s := by
  refine consistent_of_inOrder hΛ ?_ (inOrder_of_settles hΛ h) v s
  rintro hnil
  exact h.nonempty (by rw [Linker.graphs, hnil, List.map_nil])

end Sufficient

end LuaAttic.Varlinker
