import LuaAttic.Varlinker.Propagation

/-!
# Where propagation is not consistent

For linksets that do not meet the condition there are functions, and orders in
which the dependents are visited, for which a variable is computed before
something that it reads.
-/

namespace LuaAttic.Varlinker

open LuaAttic.Support

variable {Val : Type}

/-! ## Other functions -/

section MapDeps

variable {Val' : Type}

/-- The same linkset with other functions. -/
def Linkset.mapDeps (f : ℕ → Dep Val → Dep Val') (L : Linkset Val) : Linkset Val' :=
  ⟨L.deps.map fun e => (e.1, e.2.map fun d => (d.1, f d.1 d.2))⟩

/-- The same linker with other functions. -/
def Linker.mapDeps (f : ℕ → ℕ → Dep Val → Dep Val') (Λ : Linker Val) : Linker Val' where
  linksets := Λ.linksets.mapIdx fun i L => L.mapDeps (f i)

theorem lookup_map {α β : Type} (g : α → β) (l : List (ℕ × α)) (k : ℕ) :
    List.lookup k (l.map fun e => (e.1, g e.2)) = (List.lookup k l).map g := by
  induction l with
  | nil => rfl
  | cons e l ih =>
      rw [List.map_cons, List.lookup_cons, List.lookup_cons, ih]
      cases k == e.1 <;> rfl

variable {f : ℕ → Dep Val → Dep Val'} {L : Linkset Val} {k : ℕ}

theorem dependents_mapDeps (x : ℕ) :
    (L.mapDeps f).dependents x = (L.dependents x).map fun d => (d.1, f d.1 d.2) := by
  have hlookup := lookup_map
    (fun t : List (ℕ × Dep Val) => t.map fun d => (d.1, f d.1 d.2)) L.deps x
  simp only [Linkset.dependents, Linkset.mapDeps, hlookup]
  cases List.lookup x L.deps <;> rfl

theorem mem_dependents_mapDeps {x w : ℕ} {dep' : Dep Val'} :
    (w, dep') ∈ (L.mapDeps f).dependents x ↔
      ∃ dep, (w, dep) ∈ L.dependents x ∧ f w dep = dep' := by
  rw [dependents_mapDeps]
  simp only [List.mem_map, Prod.mk.injEq, Prod.exists]
  constructor
  · rintro ⟨w', dep, hdep, rfl, rfl⟩
    exact ⟨dep, hdep, rfl⟩
  · rintro ⟨dep, hdep, rfl⟩
    exact ⟨w, dep, hdep, rfl, rfl⟩

theorem graph_mapDeps (hf : ∀ w dep, (f w dep).inputs = dep.inputs) :
    (L.mapDeps f).graph = L.graph := by
  have hedge : (L.mapDeps f).graph.edge = L.graph.edge := by
    funext x w
    simp only [Linkset.graph, mem_dependents_mapDeps, eq_iff_iff]
    constructor
    · rintro ⟨_, dep, hdep, -⟩
      exact ⟨dep, hdep⟩
    · rintro ⟨dep, hdep⟩
      exact ⟨_, dep, hdep, rfl⟩
  have hreads : (L.mapDeps f).graph.reads = L.graph.reads := by
    funext y w
    simp only [Linkset.graph, mem_dependents_mapDeps, eq_iff_iff]
    constructor
    · rintro ⟨x, _, ⟨dep, hdep, rfl⟩, hy⟩
      exact ⟨x, dep, hdep, by rwa [hf] at hy⟩
    · rintro ⟨x, dep, hdep, hy⟩
      exact ⟨x, _, ⟨dep, hdep, rfl⟩, by rwa [hf]⟩
  cases hL : (L.mapDeps f).graph
  cases hL' : L.graph
  simp_all

theorem computesOnce_mapDeps (h : L.ComputesOnce) : (L.mapDeps f).ComputesOnce := by
  intro x x' w dep dep' hdep hdep'
  obtain ⟨d, hd, rfl⟩ := mem_dependents_mapDeps.mp hdep
  obtain ⟨d', hd', rfl⟩ := mem_dependents_mapDeps.mp hdep'
  rw [h x x' w d d' hd hd']

theorem order_mapDeps : (L.mapDeps f).order k = L.order k := by
  have hsucc : (L.mapDeps f).successors = L.successors := by
    funext x
    simp [Linkset.successors, dependents_mapDeps]
  have hfuel : (L.mapDeps f).fuel = L.fuel := by
    simp [Linkset.fuel, Linkset.mapDeps, Function.comp_def]
  rw [Linkset.order, Linkset.visited, hsucc, hfuel]
  rfl

theorem stepsFrom_mapIdx {g : ℕ → Linkset Val → Linkset Val'}
    (hg : ∀ i L, (g i L).order k = L.order k) (i : ℕ) (Ls : List (Linkset Val)) :
    stepsFrom k i (Ls.mapIdx g) = stepsFrom k i Ls := by
  induction Ls generalizing i g with
  | nil => rfl
  | cons L Ls ih =>
      rw [List.mapIdx_cons, stepsFrom, stepsFrom, hg, ih fun j L => hg (j + 1) L]

variable {Λ : Linker Val} {f : ℕ → ℕ → Dep Val → Dep Val'}

theorem steps_mapDeps : (Λ.mapDeps f).steps k = Λ.steps k :=
  stepsFrom_mapIdx (fun _ _ => order_mapDeps) 0 Λ.linksets

theorem graphs_mapDeps (hf : ∀ i w dep, (f i w dep).inputs = dep.inputs) :
    (Λ.mapDeps f).graphs = Λ.graphs := by
  apply List.ext_getElem?
  intro i
  simp only [Linker.graphs, Linker.mapDeps, List.getElem?_map, List.getElem?_mapIdx]
  cases Λ.linksets[i]? with
  | none => rfl
  | some L => exact congrArg some (graph_mapDeps (hf i))

theorem admissible_mapDeps (hf : ∀ i w dep, (f i w dep).inputs = dep.inputs)
    (hΛ : Λ.Admissible) : (Λ.mapDeps f).Admissible where
  unconstrained _ := rfl
  once L' hL' := by
    obtain ⟨i, hi, rfl⟩ := List.mem_mapIdx.mp hL'
    exact computesOnce_mapDeps (hΛ.once _ (List.getElem_mem hi))
  acyclic L' hL' := by
    obtain ⟨i, hi, rfl⟩ := List.mem_mapIdx.mp hL'
    rw [graph_mapDeps (hf i)]
    exact hΛ.acyclic _ (List.getElem_mem hi)

end MapDeps

/-! ## Functions that show an old value -/

section OldValues

/-- A function that does not read its inputs. -/
def Dep.const (c : Bool) (dep : Dep Val) : Dep Bool where
  inputs := dep.inputs
  fn _ := c
  reads _ _ _ := rfl

/-- A function that returns one of its inputs. -/
def Dep.copy (y : ℕ) (dep : Dep Val) : Dep Bool where
  inputs := dep.inputs
  fn s := if y ∈ dep.inputs then s y else true
  reads s t h := by
    by_cases hy : y ∈ dep.inputs
    · rw [if_pos hy, if_pos hy, h y hy]
    · rw [if_neg hy, if_neg hy]

variable {Λ : Linker Val} {k : ℕ}

theorem stepFn_mapDeps {f : ℕ → ℕ → Dep Val → Dep Bool}
    (hf : ∀ i w dep, (f i w dep).inputs = dep.inputs) (hΛ : Λ.Admissible)
    {b : ℕ × ℕ} (hb : b ∈ Λ.steps k) :
    ∃ L x dep, Λ.linksets[b.1]? = some L ∧ (b.2, dep) ∈ L.dependents x ∧
      (Λ.mapDeps f).stepFn b = (f b.1 b.2 dep).fn := by
  obtain ⟨L, x, dep, hget, hdep, -⟩ := exists_step hΛ hb
  have hget' : (Λ.mapDeps f).linksets[b.1]? = some (L.mapDeps (f b.1)) := by
    simp [Linker.mapDeps, List.getElem?_mapIdx, hget]
  have hdep' : (b.2, f b.1 b.2 dep) ∈ (L.mapDeps (f b.1)).dependents x :=
    mem_dependents_mapDeps.mpr ⟨dep, hdep, rfl⟩
  have honce := (admissible_mapDeps hf hΛ).once _ (List.mem_of_getElem? hget')
  exact ⟨L, x, dep, hget, hdep,
    (stepFn_eq hget' b.2).trans (rule_eq honce hdep')⟩

theorem not_consistent_of_step {Λ : Linker Bool} (hΛ : Λ.Admissible) {v : Bool}
    {s : ℕ → Bool} {a : ℕ × ℕ} (ha : a ∈ Λ.steps k)
    (hne : let t := runSteps Prod.snd Λ.stepFn (Λ.steps k) (Function.update s k v)
      t a.2 ≠ Λ.stepFn a t) : ¬ Λ.Consistent k v s := by
  rintro ⟨t, ht, -, hfinal⟩
  obtain ⟨L, x, dep, hget, hdep, hfn⟩ := exists_step hΛ ha
  have hL := List.mem_of_getElem? hget
  have hreach : L.graph.Reaches k a.2 := by
    obtain ⟨L', hget', hw⟩ := mem_steps_iff.mp ha
    obtain rfl : L = L' := Option.some.inj (hget.symm.trans hget')
    exact (mem_order_iff (hΛ.acyclic L hL)).mp hw
  rw [update_eq hΛ (List.ne_nil_of_mem hL)] at ht
  obtain rfl := Option.some.inj ht
  refine hne ?_
  rw [hfn]
  exact hfinal L hL x a.2 dep hdep hreach

/-- Where the steps are not in order, some functions show it. -/
theorem exists_not_consistent (hΛ : Λ.Admissible)
    (hbad : ¬ InOrder Prod.snd (stepInputs Λ.graphs) (Λ.steps k)) :
    ∃ Λ' : Linker Bool, Λ'.Admissible ∧ Λ'.graphs = Λ.graphs ∧
      ∃ v s, ¬ Λ'.Consistent k v s := by
  by_cases hdistinct : ((Λ.steps k).map Prod.snd).Nodup
  · obtain ⟨A, a, B, b, hsplit, hb, hab⟩ := exists_split_of_not_pairwise hbad
    have hmem : a ∈ Λ.steps k := by simp [hsplit]
    have hinput : b.2 ∈ stepInputs Λ.graphs a := by
      by_contra hnot
      refine hab ⟨fun heq => ?_, hnot⟩
      rw [hsplit, List.map_append, List.map_cons] at hdistinct
      have hrest := (List.nodup_append.mp hdistinct).2.1
      exact (List.nodup_cons.mp hrest).1 (heq ▸ List.mem_map_of_mem hb)
    let f : ℕ → ℕ → Dep Val → Dep Bool := fun i w dep =>
      if (i, w) = a then dep.copy b.2 else dep.const true
    have hf : ∀ i w dep, (f i w dep).inputs = dep.inputs := by
      intro i w dep
      simp only [f]
      split_ifs <;> rfl
    have hstep : ∀ c ∈ Λ.steps k, (Λ.mapDeps f).stepFn c = copyStep a b.2 c := by
      intro c hc
      obtain ⟨L, x, dep, hget, hdep, hfn⟩ := stepFn_mapDeps hf hΛ hc
      rw [hfn]
      by_cases hca : c = a
      · subst hca
        obtain ⟨x', dep', hdep', hy⟩ := (mem_stepInputs_iff hget).mp hinput
        rw [hΛ.once L (List.mem_of_getElem? hget) x' x c.2 dep' dep hdep' hdep] at hy
        funext s
        simp [f, Dep.copy, hy, copyStep]
      · funext s
        simp [f, Dep.const, hca, copyStep]
    refine ⟨Λ.mapDeps f, admissible_mapDeps hf hΛ, graphs_mapDeps hf, false,
      fun _ => false, ?_⟩
    refine not_consistent_of_step (a := a) (admissible_mapDeps hf hΛ) ?_ ?_
    · rwa [steps_mapDeps]
    · simp only [steps_mapDeps, runSteps_congr hstep, hstep a hmem]
      rw [hsplit] at hdistinct ⊢
      refine copyStep_ne hdistinct hb ?_
      by_cases hbk : b.2 = k <;> simp [hbk]
  · rw [List.Nodup, List.pairwise_map] at hdistinct
    obtain ⟨A, a, B, b, hsplit, hb, hab⟩ := exists_split_of_not_pairwise hdistinct
    have hmem : a ∈ Λ.steps k := by simp [hsplit]
    let f : ℕ → ℕ → Dep Val → Dep Bool := fun i w dep =>
      dep.const (decide ((i, w) = a))
    have hf : ∀ i w dep, (f i w dep).inputs = dep.inputs := fun _ _ _ => rfl
    have hstep : ∀ c ∈ Λ.steps k, (Λ.mapDeps f).stepFn c = onlyStep a c := by
      intro c hc
      obtain ⟨L, x, dep, -, -, hfn⟩ := stepFn_mapDeps hf hΛ hc
      rw [hfn]
      rfl
    refine ⟨Λ.mapDeps f, admissible_mapDeps hf hΛ, graphs_mapDeps hf, false,
      fun _ => false, ?_⟩
    refine not_consistent_of_step (a := a) (admissible_mapDeps hf hΛ) ?_ ?_
    · rwa [steps_mapDeps]
    · have hnodup := nodup_steps Λ k
      simp only [steps_mapDeps, runSteps_congr hstep, hstep a hmem]
      rw [hsplit] at hnodup ⊢
      exact onlyStep_ne hnodup hb (not_not.mp hab).symm _

end OldValues

/-! ## Other orders -/

section Reorder

/-- The same table, with one of its keys visited first. -/
def moveFirst {α : Type} (first : Option ℕ) (t : List (ℕ × α)) : List (ℕ × α) :=
  t.filter (fun e => some e.1 = first) ++ t.filter fun e => ¬ some e.1 = first

theorem mem_moveFirst {α : Type} {first : Option ℕ} {t : List (ℕ × α)} {e : ℕ × α} :
    e ∈ moveFirst first t ↔ e ∈ t := by
  unfold moveFirst
  by_cases h : some e.1 = first <;> simp [h]

theorem head_moveFirst {α : Type} {w : ℕ} {t : List (ℕ × α)}
    (h : w ∈ t.map Prod.fst) :
    ((moveFirst (some w) t).map Prod.fst).head? = some w := by
  obtain ⟨e, he, rfl⟩ := List.mem_map.mp h
  have hmem : e ∈ t.filter fun e' => some e'.1 = some e.1 := by simp [he]
  obtain ⟨e', l, hl⟩ := List.exists_cons_of_ne_nil (List.ne_nil_of_mem hmem)
  have he' : e'.1 = e.1 := by
    have hmem' : e' ∈ t.filter fun e' => some e'.1 = some e.1 := by
      rw [hl]
      exact List.mem_cons_self
    simpa using (List.mem_filter.mp hmem').2
  rw [moveFirst, hl]
  exact congrArg some he'

/-- The same linkset, with other dependents visited first. -/
def Linkset.reorder (first : ℕ → Option ℕ) (L : Linkset Val) : Linkset Val :=
  ⟨L.deps.map fun e => (e.1, moveFirst (first e.1) e.2)⟩

/-- The same linker, with other dependents visited first. -/
def Linker.reorder (first : ℕ → Option ℕ) (Λ : Linker Val) : Linker Val where
  linksets := Λ.linksets.map (Linkset.reorder first)

variable {first : ℕ → Option ℕ} {L : Linkset Val} {Λ : Linker Val} {k : ℕ}

theorem dependents_reorder (x : ℕ) :
    (L.reorder first).dependents x = moveFirst (first x) (L.dependents x) := by
  unfold Linkset.dependents Linkset.reorder
  induction L.deps with
  | nil => simp [moveFirst]
  | cons e l ih =>
      rw [List.map_cons, List.lookup_cons, List.lookup_cons]
      cases hx : x == e.1 with
      | true =>
          obtain rfl : x = e.1 := by simpa using hx
          rfl
      | false => exact ih

theorem mem_dependents_reorder {x w : ℕ} {dep : Dep Val} :
    (w, dep) ∈ (L.reorder first).dependents x ↔ (w, dep) ∈ L.dependents x := by
  rw [dependents_reorder, mem_moveFirst]

theorem graph_reorder : (L.reorder first).graph = L.graph := by
  simp only [Linkset.graph, mem_dependents_reorder]

theorem graphs_reorder : (Λ.reorder first).graphs = Λ.graphs := by
  simp [Linker.graphs, Linker.reorder, Function.comp_def, graph_reorder]

theorem admissible_reorder (hΛ : Λ.Admissible) : (Λ.reorder first).Admissible where
  unconstrained _ := rfl
  once L' hL' := by
    obtain ⟨L, hL, rfl⟩ := List.mem_map.mp hL'
    intro x x' w dep dep' hdep hdep'
    exact hΛ.once L hL x x' w dep dep' (mem_dependents_reorder.mp hdep)
      (mem_dependents_reorder.mp hdep')
  acyclic L' hL' := by
    obtain ⟨L, hL, rfl⟩ := List.mem_map.mp hL'
    rw [graph_reorder]
    exact hΛ.acyclic L hL

end Reorder

/-! ## A path that is walked first -/

section Detour

variable {L : Linkset Val} {Λ : Linker Val} {k : ℕ}

theorem reaches_last {R : ℕ → ℕ → Prop} {x u : ℕ} {q : List ℕ} (h : Path R k q x)
    (hu : u ∈ q ++ [x]) : Relation.ReflTransGen R u x := by
  induction h with
  | nil =>
      obtain rfl : u = k := by simpa using hu
      exact .refl
  | @snoc q x w hq hw ih =>
      rcases List.mem_append.mp hu with hu | hu
      · exact (ih hu).tail hw
      · obtain rfl : u = w := by simpa using hu
        exact .refl

theorem nodup_path {R : ℕ → ℕ → Prop} (hR : ∀ x, ¬ Relation.TransGen R x x) {x : ℕ}
    {q : List ℕ} (h : Path R k q x) : (q ++ [x]).Nodup := by
  induction h with
  | nil => exact List.nodup_singleton k
  | @snoc q x w hq hw ih =>
      rw [List.nodup_append_comm]
      refine List.nodup_cons.mpr ⟨fun hmem => ?_, ih⟩
      exact hR w (.tail' (reaches_last hq hmem) hw)

theorem isChain_path {R : ℕ → ℕ → Prop} {x : ℕ} {q : List ℕ} (h : Path R k q x) :
    (q ++ [x]).IsChain R ∧ ∃ p, q ++ [x] = k :: p := by
  induction h with
  | nil => exact ⟨List.isChain_singleton k, [], rfl⟩
  | @snoc q x w hq hw ih =>
      obtain ⟨hchain, p, hp⟩ := ih
      refine ⟨?_, p ++ [w], by rw [hp, List.cons_append]⟩
      rw [List.append_assoc, List.singleton_append]
      exact List.isChain_append_cons_cons.mpr ⟨hchain, hw, List.isChain_singleton w⟩

/-- What comes after a vertex in a list. -/
def nextIn (p : List ℕ) (u : ℕ) : Option ℕ := p[p.idxOf u + 1]?

theorem isChain_nextIn {p : List ℕ} (hp : p.Nodup) :
    p.IsChain fun a b => nextIn p a = some b := by
  rw [List.isChain_iff_getElem]
  intro i hi
  rw [nextIn, hp.idxOf_getElem, List.getElem?_eq_getElem]

/-- Walking along a path and to a dependent first, one comes to the dependent
before the variables that are not on the path. -/
theorem not_pairwise_reorder (hacyclic : L.graph.Acyclic) {x w y : ℕ} {q : List ℕ}
    (hq : Path L.graph.edge k q x) (hw : L.graph.edge x w) (hreads : L.graph.reads y w)
    (hy : L.graph.Reaches k y) (hyx : y ≠ x) (hyq : y ∉ q) :
    ¬ ((L.reorder (nextIn (q ++ [x] ++ [w]))).order k).Pairwise
      fun a b => ¬ L.graph.reads b a := by
  let first := nextIn (q ++ [x] ++ [w])
  have hpath : Path L.graph.edge k (q ++ [x]) w := hq.snoc hw
  have hnodup : (q ++ [x] ++ [w]).Nodup :=
    nodup_path (fun _ => hacyclic.not_edge) hpath
  obtain ⟨hedges, p, hp⟩ := isChain_path hpath
  have hchain : (q ++ [x] ++ [w]).IsChain fun a b =>
      ((L.reorder first).successors a).head? = some b := by
    have hnext := isChain_nextIn hnodup
    rw [List.isChain_iff_getElem] at hnext hedges ⊢
    intro i hi
    rw [Linkset.successors, dependents_reorder]
    simp only [first, hnext i hi]
    exact head_moveFirst (mem_successors_iff.mpr (hedges i hi))
  have hvisited := visit_visited (L.reorder first) k
  rw [hp] at hchain hnodup
  obtain ⟨rest, hrest⟩ := visit_first hvisited hchain hnodup (List.disjoint_nil_right _)
  rw [List.nil_append, ← hp] at hrest
  have hacyclic' : (L.reorder first).graph.Acyclic := by rwa [graph_reorder]
  have hmem : y ∈ rest := by
    have hall : y ∈ (L.reorder first).visited k := by
      rw [visited_eq]
      refine List.mem_cons_of_mem k ((mem_order_iff hacyclic').mpr ?_)
      rwa [graph_reorder]
    rw [← hrest] at hall
    have hyw : y ≠ w := by
      rintro rfl
      exact hacyclic.not_reads hreads
    simpa [hyq, hyx, hyw] using hall
  have horder : (L.reorder first).order k = (q ++ [x] ++ [w]).tail ++ rest := by
    rw [Linkset.order, ← hrest, hp]
    rfl
  intro hpairwise
  change ((L.reorder first).order k).Pairwise _ at hpairwise
  have hwtail : w ∈ (q ++ [x] ++ [w]).tail := by
    rw [List.tail_append_of_ne_nil (by simp)]
    exact List.mem_append_right _ List.mem_cons_self
  rw [horder, List.pairwise_append] at hpairwise
  exact hpairwise.2.2 w hwtail y hmem hreads

end Detour

/-! ## The exact condition -/

/-- One link, from a variable to another. -/
def oneLink : Linker ℕ where
  linksets := [({} : Linkset ℕ).link 1 2 none]

theorem mem_dependents_oneLink {x w : ℕ} {dep : Dep ℕ} :
    (w, dep) ∈ (({} : Linkset ℕ).link 1 2 none).dependents x ↔
      x = 1 ∧ w = 2 ∧ dep = .get 1 := by
  by_cases hx : x = 1
  · subst hx
    simp [Linkset.link, Linkset.setDep, Linkset.dependents, setKey]
  · have hne : (x == 1) = false := by simpa using hx
    simp [Linkset.link, Linkset.setDep, Linkset.dependents, setKey, List.lookup, hne, hx]

theorem lt_of_edge_oneLink {x w : ℕ}
    (h : (({} : Linkset ℕ).link 1 2 none).graph.edge x w ∨
      (({} : Linkset ℕ).link 1 2 none).graph.reads x w) : x < w := by
  rcases h with ⟨dep, hdep⟩ | ⟨x', dep, hdep, hx⟩
  · obtain ⟨rfl, rfl, -⟩ := mem_dependents_oneLink.mp hdep
    exact Nat.one_lt_two
  · obtain ⟨-, rfl, rfl⟩ := mem_dependents_oneLink.mp hdep
    obtain rfl : x = 1 := by simpa [Dep.get] using hx
    exact Nat.one_lt_two

theorem oneLink_admissible : oneLink.Admissible where
  unconstrained _ := rfl
  once L hL := by
    obtain rfl := List.mem_singleton.mp hL
    intro x x' w dep dep' h h'
    rw [(mem_dependents_oneLink.mp h).2.2, (mem_dependents_oneLink.mp h').2.2]
  acyclic L hL := by
    obtain rfl := List.mem_singleton.mp hL
    intro x hx
    have hlt := Relation.TransGen.mono (fun _ _ h => lt_of_edge_oneLink h) _ _ hx
    rw [Relation.transGen_eq_self] at hlt
    exact hlt.false

theorem oneLink_settles : Settles oneLink.graphs 1 where
  nonempty := nofun
  ordered g hg := by
    obtain rfl := List.mem_singleton.mp hg
    rintro x w y ⟨dep, hdep⟩ ⟨x', dep', hdep', hy⟩ - hyx
    obtain ⟨rfl, -, -⟩ := mem_dependents_oneLink.mp hdep
    obtain ⟨-, -, rfl⟩ := mem_dependents_oneLink.mp hdep'
    exact absurd (by simpa [Dep.get] using hy) hyx
  apart := List.pairwise_singleton _ _

/-- The sum of two linked variables, and no other. -/
def diamond : Linker ℕ where
  linksets :=
    [((({} : Linkset ℕ).expr 4 ⟨[2, 3], fun s => s 2 + s 3, fun _ _ h => by
      rw [h 2 (by simp), h 3 (by simp)]⟩).link 1 3 none).link 1 2 none]

end LuaAttic.Varlinker
