import LuaAttic.Support.Fallible
import LuaAttic.Varlinker.Linker

/-!
# An assignment as a schedule

What an assignment does to a linkset is a depth-first walk, in which each
variable is computed when it is visited.  For several linksets the walks come
one after the other.
-/

namespace LuaAttic.Varlinker

open LuaAttic.Support

variable {Val : Type}

/-! ## One linkset -/

section Linksets

variable {L : Linkset Val} {k : ℕ}

/-- The dependents of a variable, without their functions. -/
def Linkset.successors (L : Linkset Val) (x : ℕ) : List ℕ :=
  (L.dependents x).map Prod.fst

theorem mem_successors_iff {x w : ℕ} : w ∈ L.successors x ↔ L.graph.edge x w := by
  simp [Linkset.successors, Linkset.graph]

theorem mem_targets (L : Linkset Val) (x w : ℕ)
    (h : w ∈ L.successors x) :
    w ∈ L.deps.flatMap fun e => e.2.map Prod.fst := by
  unfold Linkset.successors Linkset.dependents at h
  cases hx : List.lookup x L.deps with
  | none => simp [hx] at h
  | some t =>
      rw [hx, Option.getD_some] at h
      have hmem : (x, t) ∈ L.deps := by
        obtain ⟨l₁, l₂, heq, -⟩ := List.lookup_eq_some_iff.mp hx
        rw [heq]
        simp
      exact List.mem_flatMap.mpr ⟨(x, t), hmem, h⟩

/-- The fuel of a linkset is enough for a walk. -/
theorem exists_visit_linkset (L : Linkset Val) (k : ℕ) :
    ∃ out, visit L.successors L.fuel k [] = some out := by
  let targets := L.deps.flatMap fun e => e.2.map Prod.fst
  refine exists_visit (U := insert k targets.toFinset) ?_
    (Finset.mem_insert_self _ _) ?_
  · intro x _ w hw
    exact Finset.mem_insert_of_mem
      (List.mem_toFinset.mpr (mem_targets L x w hw))
  · have hlen : targets.length = (L.deps.map fun e => e.2.length).sum := by
      simp [targets, List.length_flatMap]
    have hcard := List.toFinset_card_le targets
    have hinsert := Finset.card_insert_le k targets.toFinset
    rw [List.toFinset_nil, Finset.sdiff_empty, Linkset.fuel, ← hlen]
    omega

/-- The variables visited from one, which comes first. -/
def Linkset.visited (L : Linkset Val) (k : ℕ) : List ℕ :=
  (visit L.successors L.fuel k []).getD []

theorem visit_visited (L : Linkset Val) (k : ℕ) :
    visit L.successors L.fuel k [] = some (L.visited k) := by
  obtain ⟨out, hout⟩ := exists_visit_linkset L k
  rw [Linkset.visited, hout, Option.getD_some]

/-- The variables computed after an assignment, in their order. -/
def Linkset.order (L : Linkset Val) (k : ℕ) : List ℕ := (L.visited k).tail

theorem visited_eq (L : Linkset Val) (k : ℕ) : L.visited k = k :: L.order k := by
  have h := visit_first (p := []) (visit_visited L k) (List.isChain_singleton k)
    (List.nodup_singleton k) (List.disjoint_nil_right _)
  obtain ⟨rest, hrest⟩ := h
  rw [Linkset.order, ← hrest]
  rfl

theorem nodup_visited (L : Linkset Val) (k : ℕ) : (L.visited k).Nodup :=
  visit_nodup (visit_visited L k) List.nodup_nil

theorem notMem_order (L : Linkset Val) (k : ℕ) : k ∉ L.order k := by
  have h := nodup_visited L k
  rw [visited_eq] at h
  exact (List.nodup_cons.mp h).1

theorem nodup_order (L : Linkset Val) (k : ℕ) : (L.order k).Nodup := by
  have h := nodup_visited L k
  rw [visited_eq] at h
  exact (List.nodup_cons.mp h).2

theorem visited_afterPaths (L : Linkset Val) (k : ℕ) :
    AfterPaths L.successors k (L.visited k) :=
  visit_afterPaths (visit_visited L k) (fun A w B h => by simp at h) .nil
    (List.nil_subset _)

theorem mem_visited_iff {w : ℕ} :
    w ∈ L.visited k ↔ Relation.ReflTransGen L.graph.edge k w := by
  constructor
  · intro hw
    obtain ⟨A, B, hsplit⟩ := List.append_of_mem hw
    obtain ⟨q, hq, -⟩ := visited_afterPaths L k A w B hsplit
    exact Relation.ReflTransGen.mono (fun _ _ h => mem_successors_iff.mp h) _ _
      hq.reflTransGen
  · intro hw
    induction hw with
    | refl =>
        rw [visited_eq]
        exact List.mem_cons_self
    | tail _ hw ih =>
        exact visit_closed (visit_visited L k) _ ih List.not_mem_nil _
          (mem_successors_iff.mpr hw)

theorem Graph.Acyclic.not_edge {g : Graph} (h : g.Acyclic) {x : ℕ} :
    ¬ g.Reaches x x :=
  fun hx => h x (Relation.TransGen.mono (fun _ _ => Or.inl) _ _ hx)

theorem mem_order_iff (hacyclic : L.graph.Acyclic) {w : ℕ} :
    w ∈ L.order k ↔ L.graph.Reaches k w := by
  have hvisited := mem_visited_iff (L := L) (k := k) (w := w)
  rw [visited_eq, List.mem_cons, Relation.reflTransGen_iff_eq_or_transGen] at hvisited
  constructor
  · intro hw
    refine (hvisited.mp (.inr hw)).resolve_left ?_
    rintro rfl
    exact notMem_order L w hw
  · intro hw
    refine (hvisited.mpr (.inr hw)).resolve_left ?_
    rintro rfl
    exact hacyclic.not_edge hw

/-- What computes a variable, whichever it depends on. -/
noncomputable def Linkset.rule (L : Linkset Val) (w : ℕ) (s : ℕ → Val) : Val :=
  open Classical in
  if h : ∃ dep x, (w, dep) ∈ L.dependents x then h.choose.fn s else s w

theorem rule_eq (honce : L.ComputesOnce) {x w : ℕ} {dep : Dep Val}
    (h : (w, dep) ∈ L.dependents x) : L.rule w = dep.fn := by
  have hex : ∃ dep x, (w, dep) ∈ L.dependents x := ⟨dep, x, h⟩
  obtain ⟨x', hx'⟩ := hex.choose_spec
  funext s
  rw [Linkset.rule, dif_pos hex, honce x' x w _ dep hx' h]

end Linksets

/-! ## An assignment to one linkset -/

section Update

variable {Λ : Linker Val} {L : Linkset Val}

theorem set_of_unconstrained (h : ∀ k, Λ.setters k = none) (k : ℕ) (v : Val)
    (s : ℕ → Val) : Λ.set k v s = Function.update s k v := by
  simp [Linker.set, h k]

/-- Computing the variables of a linkset one after the other. -/
noncomputable def Linkset.compute (L : Linkset Val) (ws : List ℕ) (s : ℕ → Val) :
    ℕ → Val :=
  runSteps id L.rule ws s

theorem drop_of_extends {seen mid out : List ℕ} (h : seen <+: mid)
    (h' : mid <+: out) :
    out.drop seen.length = mid.drop seen.length ++ out.drop mid.length := by
  obtain ⟨a, rfl⟩ := h
  obtain ⟨b, rfl⟩ := h'
  simp

/-- The walks from some dependents, given those from each. -/
theorem foldlM_updateLinkset {n : ℕ}
    (ih : ∀ w (dep : Dep Val) s seen, L.rule w = dep.fn →
      Λ.updateLinkset L n w (dep.fn s) ⟨s, seen⟩ =
        (visit L.successors n w seen).map fun out =>
          ⟨L.compute (out.drop seen.length) s, out⟩)
    {deps : List (ℕ × Dep Val)} (hdeps : ∀ e ∈ deps, L.rule e.1 = e.2.fn)
    (s : ℕ → Val) (seen : List ℕ) :
    deps.foldlM (fun st e => Λ.updateLinkset L n e.1 (e.2.fn st.vals) st) ⟨s, seen⟩ =
      (visitAll L.successors n (deps.map Prod.fst) seen).map fun out =>
        ⟨L.compute (out.drop seen.length) s, out⟩ := by
  induction deps generalizing s seen with
  | nil => simp [visitAll, Linkset.compute, runSteps]
  | cons e deps ihdeps =>
      obtain ⟨he, hdeps⟩ := List.forall_mem_cons.mp hdeps
      rw [List.foldlM_cons, ih e.1 e.2 s seen he, List.map_cons]
      cases hmid : visit L.successors n e.1 seen with
      | none => simp [visitAll, hmid]
      | some mid =>
          have hstep : visitAll L.successors n (e.1 :: deps.map Prod.fst) seen =
              visitAll L.successors n (deps.map Prod.fst) mid := by
            simp [visitAll, hmid]
          rw [Option.map_some, Option.bind_eq_bind, Option.bind_some, hstep,
            ihdeps hdeps]
          cases hout : visitAll L.successors n (deps.map Prod.fst) mid with
          | none => rfl
          | some out =>
              have hdrop := drop_of_extends (visit_extends hmid)
                (visitAll_extends hout)
              simp [Linkset.compute, hdrop, runSteps_append]

/-- A variable that is computed, and what is computed after it. -/
theorem updateLinkset_computed (hfree : ∀ k, Λ.setters k = none)
    (honce : L.ComputesOnce) (n w : ℕ) (dep : Dep Val) (s : ℕ → Val)
    (seen : List ℕ) (hrule : L.rule w = dep.fn) :
    Λ.updateLinkset L n w (dep.fn s) ⟨s, seen⟩ =
      (visit L.successors n w seen).map fun out =>
        ⟨L.compute (out.drop seen.length) s, out⟩ := by
  induction n generalizing w dep s seen with
  | zero => rfl
  | succ n ih =>
      by_cases hw : w ∈ seen
      · rw [Linker.updateLinkset, if_pos hw, visit_of_mem hw]
        simp [Linkset.compute, runSteps]
      · rw [Linker.updateLinkset, if_neg hw, visit_of_notMem hw,
          set_of_unconstrained hfree,
          foldlM_updateLinkset ih fun e he => rule_eq honce he]
        change (visitAll L.successors n (L.successors w) _).map _ = _
        cases hout : visitAll L.successors n (L.successors w) (seen ++ [w]) with
        | none => rfl
        | some out =>
            have hdrop := drop_of_extends (List.prefix_append seen [w])
              (visitAll_extends hout)
            simp only [Option.map_some, hdrop, List.drop_left, Linkset.compute,
              List.singleton_append, runSteps_cons, id, hrule]

/-- The variable assigned, and what is computed after it. -/
theorem updateLinkset_assigned (hfree : ∀ k, Λ.setters k = none)
    (honce : L.ComputesOnce) (k : ℕ) (v : Val) (s : ℕ → Val) :
    (Λ.updateLinkset L L.fuel k v ⟨s, []⟩).map State.vals =
      some (L.compute (L.order k) (Function.update s k v)) := by
  have hvisit := visit_visited L k
  obtain ⟨n, hn⟩ : ∃ n, L.fuel = n + 1 := ⟨_, rfl⟩
  rw [hn, visit_of_notMem List.not_mem_nil] at hvisit
  rw [hn, Linker.updateLinkset, if_neg List.not_mem_nil, set_of_unconstrained hfree,
    foldlM_updateLinkset (fun w dep s seen => updateLinkset_computed hfree honce n w dep s seen)
      fun e he => rule_eq honce he]
  change ((visitAll L.successors n (L.successors k) _).map _).map _ = _
  rw [hvisit, visited_eq]
  rfl

end Update

/-! ## An assignment to all linksets -/

section Schedule

variable {Λ : Linker Val} {k : ℕ}

/-- The variables computed for some linksets, with the places of these. -/
def stepsFrom (k : ℕ) : ℕ → List (Linkset Val) → List (ℕ × ℕ)
  | _, [] => []
  | i, L :: Ls => (L.order k).map (i, ·) ++ stepsFrom k (i + 1) Ls

/-- The variables computed after an assignment, with the places of the linksets
for which they are. -/
def Linker.steps (Λ : Linker Val) (k : ℕ) : List (ℕ × ℕ) :=
  stepsFrom k 0 Λ.linksets

theorem mem_stepsFrom_iff {Ls : List (Linkset Val)} {i : ℕ} {b : ℕ × ℕ} :
    b ∈ stepsFrom k i Ls ↔
      ∃ n L, Ls[n]? = some L ∧ b.1 = i + n ∧ b.2 ∈ L.order k := by
  induction Ls generalizing i with
  | nil => simp [stepsFrom]
  | cons L Ls ih =>
      rw [stepsFrom, List.mem_append, ih]
      constructor
      · rintro (h | ⟨n, L', hn, hb, hw⟩)
        · obtain ⟨w, hw, rfl⟩ := List.mem_map.mp h
          exact ⟨0, L, rfl, rfl, hw⟩
        · exact ⟨n + 1, L', hn, by omega, hw⟩
      · rintro ⟨_ | n, L', hn, hb, hw⟩
        · obtain rfl : L = L' := by simpa using hn
          exact .inl (List.mem_map.mpr ⟨b.2, hw, Prod.ext hb.symm rfl⟩)
        · exact .inr ⟨n, L', hn, by omega, hw⟩

theorem mem_steps_iff {b : ℕ × ℕ} :
    b ∈ Λ.steps k ↔ ∃ L, Λ.linksets[b.1]? = some L ∧ b.2 ∈ L.order k := by
  rw [Linker.steps, mem_stepsFrom_iff]
  constructor
  · rintro ⟨n, L, hn, hb, hw⟩
    obtain rfl : b.1 = n := by omega
    exact ⟨L, hn, hw⟩
  · rintro ⟨L, hL, hw⟩
    exact ⟨b.1, L, hL, (Nat.zero_add _).symm, hw⟩

/-- What computes a variable for a linkset. -/
noncomputable def Linker.stepFn (Λ : Linker Val) (b : ℕ × ℕ) (s : ℕ → Val) : Val :=
  match Λ.linksets[b.1]? with
  | some L => L.rule b.2 s
  | none => s b.2

theorem stepFn_eq {L : Linkset Val} {i : ℕ} (h : Λ.linksets[i]? = some L) (w : ℕ) :
    Λ.stepFn (i, w) = L.rule w := by
  funext s
  simp [Linker.stepFn, h]

theorem compute_eq {L : Linkset Val} {i : ℕ} {fn : ℕ × ℕ → (ℕ → Val) → Val}
    (hfn : ∀ w, fn (i, w) = L.rule w) (ws : List ℕ) (s : ℕ → Val) :
    L.compute ws s = runSteps Prod.snd fn (ws.map (i, ·)) s := by
  rw [Linkset.compute, runSteps, runSteps, List.foldl_map]
  simp only [hfn, id]

theorem foldlM_linksets (hfree : ∀ k, Λ.setters k = none) {v : Val}
    {fn : ℕ × ℕ → (ℕ → Val) → Val} {Ls : List (Linkset Val)} {i : ℕ}
    (honce : ∀ L ∈ Ls, L.ComputesOnce)
    (hfn : ∀ n L, Ls[n]? = some L → ∀ w, fn (i + n, w) = L.rule w)
    {s : ℕ → Val} (hs : s k = v) :
    Ls.foldlM (fun s L => (Λ.updateLinkset L L.fuel k v ⟨s, []⟩).map State.vals) s =
      some (runSteps Prod.snd fn (stepsFrom k i Ls) s) := by
  induction Ls generalizing i s with
  | nil => rfl
  | cons L Ls ih =>
      obtain ⟨hL, hLs⟩ := List.forall_mem_cons.mp honce
      have hsame : Function.update s k v = s := by
        rw [← hs, Function.update_eq_self]
      rw [List.foldlM_cons, updateLinkset_assigned hfree hL, hsame,
        Option.bind_eq_bind, Option.bind_some, compute_eq (hfn 0 L rfl),
        stepsFrom, runSteps_append]
      refine ih hLs (fun n L' hn w => ?_) ?_
      · rw [Nat.add_right_comm]
        exact hfn (n + 1) L' hn w
      · rw [runSteps_of_notMem, hs]
        rintro b hb rfl
        obtain ⟨w, hw, rfl⟩ := List.mem_map.mp hb
        exact notMem_order L w hw

/-- An assignment sets the variable, and then takes the steps of each linkset. -/
theorem update_eq (hΛ : Λ.Admissible) (hne : Λ.linksets ≠ []) (k : ℕ) (v : Val)
    (s : ℕ → Val) :
    Λ.update k v s =
      some (runSteps Prod.snd Λ.stepFn (Λ.steps k) (Function.update s k v)) := by
  rw [Linker.steps, ← foldlM_linksets hΛ.unconstrained hΛ.once
    (fun n L hn w => by rw [Nat.zero_add, stepFn_eq hn]) (Function.update_self k v s)]
  obtain ⟨L, Ls, hLs⟩ := List.exists_cons_of_ne_nil hne
  have hL : L.ComputesOnce := hΛ.once L (by simp [hLs])
  rw [Linker.update, hLs, List.foldlM_cons, List.foldlM_cons,
    updateLinkset_assigned hΛ.unconstrained hL,
    updateLinkset_assigned hΛ.unconstrained hL, Function.update_idem]

end Schedule

/-!
## What an assignment leaves

A variable may depend on others by several links, so that its value is the one
of the link by which it was first visited.  What holds of each value that is
set, given that it holds of those set before, holds of all of them.
-/

variable {Val : Type} {Λ : Linker Val} {L : Linkset Val} {k : ℕ} {v : Val} {s : ℕ → Val}

/-! ### Visits -/

/-- The variables touched are those of a walk. -/
theorem map_touched_updateLinkset (n w : ℕ) (v : Val) (st : State Val) :
    (Λ.updateLinkset L n w v st).map State.touched =
      visit L.successors n w st.touched := by
  induction n generalizing w v st with
  | zero => rfl
  | succ n ih =>
      by_cases hw : w ∈ st.touched
      · rw [Linker.updateLinkset, if_pos hw, visit_of_mem hw]
        rfl
      · rw [Linker.updateLinkset, if_neg hw, visit_of_notMem hw, visitAll,
          Linkset.successors, List.foldlM_map]
        exact map_foldlM (fun st e => ih e.1 _ st) _ _

theorem visit_touched {n w : ℕ} {st st' : State Val}
    (h : Λ.updateLinkset L n w v st = some st') :
    visit L.successors n w st.touched = some st'.touched := by
  rw [← map_touched_updateLinkset (Λ := Λ) n w v, h]
  rfl

/-! ### The rule -/

/-- Variables seen by a walk: each but the first comes after another one, and
after the dependents of that one that are visited before it. -/
def Linkset.Walk (L : Linkset Val) (k : ℕ) (P : List ℕ) : Prop :=
  k ∈ P ∧ ∀ y ∈ P, y = k ∨ ∃ x A dep B, L.dependents x = A ++ (y, dep) :: B ∧ x ∈ P ∧
    ∀ e ∈ A, e.1 ∈ P

/-- What is set keeps a property, given that what was set before has it. -/
def Linkset.Sound (L : Linkset Val) (k : ℕ) (s : ℕ → Val) (Q : ℕ → Val → Prop) : Prop :=
  ∀ x A w dep B P t, L.dependents x = A ++ (w, dep) :: B → L.Walk k P → x ∈ P →
    (∀ e ∈ A, e.1 ∈ P) → w ∉ P → (∀ y ∈ P, Q y (t y)) → (∀ y ∉ P, t y = s y) →
      Q w (dep.fn t)

/-- What is known while variables are visited. -/
structure Assigned (L : Linkset Val) (k : ℕ) (v : Val) (s : ℕ → Val) (Q : ℕ → Val → Prop)
    (st : State Val) : Prop where
  walk : L.Walk k st.touched
  value : st.vals k = v
  set : ∀ y ∈ st.touched, Q y (st.vals y)
  kept : ∀ y ∉ st.touched, st.vals y = s y

section Rule

variable {Q : ℕ → Val → Prop}

/-- The dependents of a variable, one after the other. -/
theorem Assigned.foldlM {n x : ℕ} {A B : List (ℕ × Dep Val)} {st st' : State Val}
    (ih : ∀ A w dep B (st st' : State Val), L.dependents x = A ++ (w, dep) :: B →
      Assigned L k v s Q st → x ∈ st.touched → (∀ e ∈ A, e.1 ∈ st.touched) →
      Λ.updateLinkset L n w (dep.fn st.vals) st = some st' → Assigned L k v s Q st')
    (hdeps : L.dependents x = A ++ B) (h : Assigned L k v s Q st) (hx : x ∈ st.touched)
    (hA : ∀ e ∈ A, e.1 ∈ st.touched)
    (hrun : B.foldlM (fun st e => Λ.updateLinkset L n e.1 (e.2.fn st.vals) st) st =
      some st') : Assigned L k v s Q st' := by
  induction B generalizing A st with
  | nil =>
      obtain rfl := Option.some.inj hrun
      exact h
  | cons e B ihB =>
      rw [List.foldlM_cons] at hrun
      obtain ⟨mid, hmid, hrest⟩ := Option.bind_eq_some_iff.mp hrun
      have hvisit := visit_touched hmid
      have hgrow := (visit_extends hvisit).subset
      refine ihB (A := A ++ [e]) (by simpa using hdeps) (ih A e.1 e.2 B st mid hdeps h hx hA hmid)
        (hgrow hx) (fun a ha => ?_) hrest
      rcases List.mem_append.mp ha with ha | ha
      · exact hgrow (hA a ha)
      · obtain rfl := List.mem_singleton.mp ha
        exact mem_of_visit hvisit

theorem Assigned.step (hfree : ∀ k, Λ.setters k = none) (hsound : L.Sound k s Q) {n : ℕ} :
    ∀ x A w dep B (st st' : State Val), L.dependents x = A ++ (w, dep) :: B →
      Assigned L k v s Q st → x ∈ st.touched → (∀ e ∈ A, e.1 ∈ st.touched) →
      Λ.updateLinkset L n w (dep.fn st.vals) st = some st' → Assigned L k v s Q st' := by
  induction n with
  | zero =>
      intro x A w dep B st st' _ _ _ _ hrun
      cases hrun
  | succ n ih =>
      intro x A w dep B st st' hdeps h hx hA hrun
      by_cases hw : w ∈ st.touched
      · rw [Linker.updateLinkset, if_pos hw] at hrun
        obtain rfl := Option.some.inj hrun
        exact h
      · rw [Linker.updateLinkset, if_neg hw, set_of_unconstrained hfree] at hrun
        have hQ := hsound x A w dep B st.touched st.vals hdeps h.walk hx hA hw h.set h.kept
        refine Assigned.foldlM (A := []) (ih w) rfl ?_ (by simp) (by simp) hrun
        have hkw : k ≠ w := by
          rintro rfl
          exact hw h.walk.1
        refine ⟨⟨?_, ?_⟩, ?_, ?_, ?_⟩
        · exact List.mem_append_left _ h.walk.1
        · intro y hy
          rcases List.mem_append.mp hy with hy | hy
          · refine (h.walk.2 y hy).imp_right ?_
            rintro ⟨x', A', dep', B', hsplit, hx', hA'⟩
            exact ⟨x', A', dep', B', hsplit, List.mem_append_left _ hx',
              fun e he => List.mem_append_left _ (hA' e he)⟩
          · obtain rfl := List.mem_singleton.mp hy
            exact .inr ⟨x, A, dep, B, hdeps, List.mem_append_left _ hx,
              fun e he => List.mem_append_left _ (hA e he)⟩
        · exact (Function.update_of_ne hkw _ _).trans h.value
        · intro y hy
          change Q y (Function.update st.vals w (dep.fn st.vals) y)
          by_cases hyw : y = w
          · subst hyw
            rw [Function.update_self]
            exact hQ
          · rw [Function.update_of_ne hyw]
            refine h.set y ((List.mem_append.mp hy).resolve_right fun hmem => ?_)
            exact hyw (List.mem_singleton.mp hmem)
        · intro y hy
          have hyw : y ≠ w := by
            rintro rfl
            exact hy (by simp)
          refine (Function.update_of_ne hyw _ _).trans ?_
          exact h.kept y fun hmem => hy (List.mem_append_left _ hmem)

/-- The variables that are visited when one is assigned. -/
def Linkset.Visits (L : Linkset Val) (k y : ℕ) : Prop :=
  Relation.ReflTransGen L.graph.edge k y

/-- What an assignment to a variable of the only linkset leaves. -/
theorem update_of_sound (hΛ : Λ.linksets = [L]) (hfree : ∀ k, Λ.setters k = none)
    (hroot : Q k v) (hsound : L.Sound k s Q) :
    ∃ t, Λ.update k v s = some t ∧ t k = v ∧ (∀ y, L.Visits k y → Q y (t y)) ∧
      ∀ y, ¬ L.Visits k y → t y = s y := by
  have htouched := map_touched_updateLinkset (Λ := Λ) (L := L) L.fuel k v ⟨s, []⟩
  rw [visit_visited] at htouched
  obtain ⟨st, hrun, hst⟩ := Option.map_eq_some_iff.mp htouched
  have hassigned : Assigned L k v s Q st := by
    obtain ⟨n, hn⟩ : ∃ n, L.fuel = n + 1 := ⟨_, rfl⟩
    rw [hn, Linker.updateLinkset, if_neg List.not_mem_nil, set_of_unconstrained hfree] at hrun
    refine Assigned.foldlM (A := []) (Assigned.step hfree hsound k) rfl ?_ (by simp)
      (by simp) hrun
    refine ⟨⟨by simp, fun y hy => ?_⟩, Function.update_self _ _ _, fun y hy => ?_,
      fun y hy => ?_⟩
    · exact .inl (by simpa using hy)
    · obtain rfl : y = k := by simpa using hy
      change Q y (Function.update s y v y)
      rw [Function.update_self]
      exact hroot
    · exact Function.update_of_ne (by simpa using hy) _ _
  have hmem : ∀ y, y ∈ st.touched ↔ L.Visits k y := fun y => by
    rw [hst]
    exact mem_visited_iff
  refine ⟨st.vals, ?_, hassigned.value, fun y hy => ?_, fun y hy => ?_⟩
  · simp [Linker.update, hΛ, hrun]
  · exact hassigned.set y ((hmem y).mpr hy)
  · exact hassigned.kept y fun h => hy ((hmem y).mp h)

end Rule

end LuaAttic.Varlinker
