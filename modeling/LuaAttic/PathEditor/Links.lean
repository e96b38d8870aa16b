import LuaAttic.PathEditor.Editor
import LuaAttic.Varlinker.Runs

/-!
# Links of an editor

Which variables depend on which is read off the calls that made the links, when
no link replaces another one.
-/

namespace LuaAttic.PathEditor

open LuaAttic.Varlinker

variable {K : Type}

/-! ## Linksets -/

section Linksets

variable {L : Linkset K}

theorem lookup_filter {α : Type} (t : List (ℕ × α)) {k k' : ℕ} (hk : k' ≠ k) :
    (t.filter fun e => e.1 ≠ k).lookup k' = t.lookup k' := by
  induction t with
  | nil => rfl
  | cons e t ih =>
      by_cases he : e.1 = k
      · have hne : (k' == e.1) = false := beq_eq_false_iff_ne.mpr (he ▸ hk)
        rw [List.filter_cons_of_neg (by simpa using he), ih, List.lookup_cons, hne]
      · rw [List.filter_cons_of_pos (by simpa using he), List.lookup_cons,
          List.lookup_cons, ih]

theorem lookup_setKey {α : Type} (t : List (ℕ × α)) (k k' : ℕ) (v : α) :
    (setKey t k v).lookup k' = if k' = k then some v else t.lookup k' := by
  by_cases hk : k' = k
  · subst hk
    simp [setKey]
  · have hne : (k' == k) = false := beq_eq_false_iff_ne.mpr hk
    rw [if_neg hk, setKey, List.lookup_cons, hne]
    exact lookup_filter t hk

theorem dependents_setDep (k1 k2 x : ℕ) (dep : Dep K) :
    (L.setDep k1 k2 dep).dependents x =
      if x = k1 then setKey (L.dependents k1) k2 dep else L.dependents x := by
  rw [Linkset.dependents, Linkset.setDep, lookup_setKey]
  split
  · rfl
  · rfl

theorem mem_dependents_setDep {k1 k2 x w : ℕ} {dep dep' : Dep K} :
    (w, dep') ∈ (L.setDep k1 k2 dep).dependents x ↔
      (x = k1 ∧ w = k2 ∧ dep' = dep) ∨ ((w, dep') ∈ L.dependents x ∧ (x, w) ≠ (k1, k2)) := by
  rw [dependents_setDep]
  by_cases hx : x = k1
  · subst hx
    by_cases hw : w = k2
    · subst hw
      simp [setKey]
    · simp [setKey, hw]
  · simp [hx]

end Linksets

/-! ## Edges -/

/-- The variable that a call makes depend on others. -/
def Call.target : Call → ℕ
  | .link _ k2 | .linkAdd _ k2 | .exprSub k2 _ _ => k2

/-- The variables that it is made to depend on, those of a call of `expr` in
order. -/
def Call.sources : Call → List ℕ
  | .link k1 _ | .linkAdd k1 _ => [k1]
  | .exprSub _ var1 var2 => [var1, var2]

/-- The pairs of variables that calls link. -/
def pairs (calls : List Call) : List (ℕ × ℕ) :=
  calls.flatMap fun c => c.sources.map (·, c.target)

theorem mem_pairs_iff {calls : List Call} {x w : ℕ} :
    (x, w) ∈ pairs calls ↔ ∃ c ∈ calls, x ∈ c.sources ∧ w = c.target := by
  simp only [pairs, List.mem_flatMap, List.mem_map, Prod.mk.injEq]
  grind

variable [AddCommGroup K]

def Call.dep : Call → Dep K
  | .link k1 _ => .get k1
  | .linkAdd _ k2 => add k2 delta
  | .exprSub _ var1 var2 => sub var1 var2

theorem make_eq (L : Linkset K) (c : Call) :
    c.make L = c.sources.foldl (fun L x => L.setDep x c.target c.dep) L := by
  cases c with
  | link k1 k2 => rfl
  | linkAdd k1 k2 => rfl
  | exprSub k2 var1 var2 => rfl

omit [AddCommGroup K] in
theorem mem_dependents_foldl {xs : List ℕ} (hnodup : xs.Nodup) {k2 : ℕ} {dep₀ : Dep K}
    {L : Linkset K} (hfresh : ∀ x ∈ xs, ∀ dep, (k2, dep) ∉ L.dependents x) {x w : ℕ}
    {dep : Dep K} :
    (w, dep) ∈ (xs.foldl (fun L x => L.setDep x k2 dep₀) L).dependents x ↔
      (w, dep) ∈ L.dependents x ∨ (x ∈ xs ∧ w = k2 ∧ dep = dep₀) := by
  induction xs generalizing L with
  | nil => simp
  | cons y xs ih =>
      obtain ⟨hy, hxs⟩ := List.nodup_cons.mp hnodup
      rw [List.foldl_cons, ih hxs, mem_dependents_setDep]
      · have hno := hfresh y List.mem_cons_self
        grind
      · intro z hz dep' hmem
        rw [mem_dependents_setDep] at hmem
        have hno := hfresh z (List.mem_cons_of_mem y hz) dep'
        grind

theorem mem_dependents_make {L : Linkset K} {c : Call} (hnodup : c.sources.Nodup)
    (hfresh : ∀ x ∈ c.sources, ∀ dep, (c.target, dep) ∉ L.dependents x) {x w : ℕ}
    {dep : Dep K} : (w, dep) ∈ (c.make L).dependents x ↔
      (w, dep) ∈ L.dependents x ∨ (x ∈ c.sources ∧ w = c.target ∧ dep = c.dep) := by
  rw [make_eq]
  exact mem_dependents_foldl hnodup hfresh

/-- What depends on what. -/
theorem mem_dependents_iff {calls : List Call} (hnodup : (pairs calls).Nodup) {x w : ℕ}
    {dep : Dep K} : (w, dep) ∈ (calls.foldl Call.make ({} : Linkset K)).dependents x ↔
      ∃ c ∈ calls, x ∈ c.sources ∧ w = c.target ∧ dep = c.dep := by
  induction calls using List.reverseRecOn generalizing x w dep with
  | nil => simp [Linkset.dependents]
  | append_singleton calls c ih =>
      have hsplit : pairs (calls ++ [c]) = pairs calls ++ c.sources.map (·, c.target) := by
        simp [pairs]
      rw [hsplit] at hnodup
      obtain ⟨hcalls, hc, hapart⟩ := List.nodup_append.mp hnodup
      have hsources : c.sources.Nodup := List.Nodup.of_map _ hc
      rw [List.foldl_append, List.foldl_cons, List.foldl_nil,
        mem_dependents_make hsources, ih hcalls]
      · simp only [List.mem_append, List.mem_singleton]
        grind
      · intro x hx dep' hmem
        obtain ⟨c', hc', hx', ht, -⟩ := (ih hcalls).mp hmem
        refine hapart (x, c.target) (mem_pairs_iff.mpr ⟨c', hc', hx', ht⟩) (x, c.target) ?_ rfl
        exact List.mem_map_of_mem hx

/-!
## Nets of points

A coordinate of a point is an endpoint's or a control point's, others are stored
in the path.  Endpoints that share a coordinate are linked both ways, a control
point moves with an endpoint, and what is stored depends on one point or on the
difference of two.  Moving a point moves all points that are linked to it by the
same distance.
-/

/-! ### Nets -/

inductive Role
  | endpoint
  | control
  | stored
  deriving DecidableEq, Repr

/-- What a variable is: its role, and for a coordinate of a point its place, which
is an endpoint that it shares its moves with, and the axis. -/
structure Label where
  role : Role
  place : ℕ × Bool
  deriving DecidableEq, Repr

/-- What a call links, among others; `relCurve` says if there are relative curves. -/
def Call.Fits (lab : ℕ → Label) (calls : List Call) (relCurve : Prop) : Call → Prop
  | .link k1 k2 => (lab k1).role ≠ .stored ∧ (lab k2).role ≠ .control ∧
      ((lab k2).role = .endpoint → (lab k1).role = .endpoint ∧
        (lab k1).place = (lab k2).place ∧ Call.link k2 k1 ∈ calls)
  | .linkAdd k1 k2 => (lab k1).role = .endpoint ∧ (lab k2).role = .control ∧
      (lab k1).place = (lab k2).place
  | .exprSub c p p1 => (lab c).role = .stored ∧ (lab p).role ≠ .stored ∧
      (lab p1).role = .endpoint ∧
      ((lab p).place ≠ (lab p1).place ∨ Call.linkAdd p1 p ∈ calls ∧ relCurve)

/-- The calls link the variables as they should, below `next`. -/
structure Net (calls : List Call) (lab : ℕ → Label) (next : ℕ) (relCurve : Prop) :
    Prop where
  nodup : (pairs calls).Nodup
  fits : ∀ c ∈ calls, c.Fits lab calls relCurve
  targets : calls.Pairwise fun c c' =>
    c.target = c'.target → (lab c.target).role = .endpoint
  bounds : ∀ c ∈ calls, ∀ k ∈ c.target :: c.sources, 2 ≤ k ∧ k < next
  places : ∀ k < next, (lab k).place.1 < next

variable {K : Type} [AddCommGroup K]

/-- The linkset of some calls, with dependents in any order. -/
def Orders (L : Linkset K) (calls : List Call) : Prop :=
  ∀ x w dep, (w, dep) ∈ L.dependents x ↔
    ∃ c ∈ calls, x ∈ c.sources ∧ w = c.target ∧ dep = c.dep

/-- What a call is for holds of the values. -/
def Call.Holds (s : ℕ → K) : Call → Prop
  | .link k1 k2 => s k2 = s k1
  | .linkAdd _ _ => True
  | .exprSub k2 var1 var2 => s k2 = s var1 - s var2

omit [AddCommGroup K] in
/-- Among the dependents of a variable one comes before another one. -/
def VisitsFirst (L : Linkset K) (x a b : ℕ) : Prop :=
  ∀ A dep B, L.dependents x = A ++ (b, dep) :: B → ∃ e ∈ A, e.1 = a

/-- A control point that moves with an endpoint is visited before what is stored
of it relative to that endpoint. -/
def ControlsFirst (L : Linkset K) (calls : List Call) : Prop :=
  ∀ p1 p c, Call.linkAdd p1 p ∈ calls → Call.exprSub c p p1 ∈ calls → VisitsFirst L p1 p c

section Nets

variable {calls : List Call} {lab : ℕ → Label} {next : ℕ} {relCurve : Prop}
  {L : Linkset K}

/-- What is no endpoint depends by one call only. -/
theorem Net.unique (h : Net calls lab next relCurve) {c c' : Call} (hc : c ∈ calls)
    (hc' : c' ∈ calls) (ht : c.target = c'.target) (hrole : (lab c.target).role ≠ .endpoint) :
    c = c' := by
  by_contra hne
  have hsymm : Std.Symm fun c c' : Call =>
      c.target = c'.target → (lab c.target).role = .endpoint :=
    ⟨fun a b hab heq => by rw [heq]; exact hab heq.symm⟩
  exact hrole (h.targets.forall hc hc' hne ht)

theorem Net.link_fits (h : Net calls lab next relCurve) {k1 k2 : ℕ}
    (hc : Call.link k1 k2 ∈ calls) : (lab k1).role ≠ .stored ∧ (lab k2).role ≠ .control ∧
      ((lab k2).role = .endpoint → (lab k1).role = .endpoint ∧
        (lab k1).place = (lab k2).place ∧ Call.link k2 k1 ∈ calls) :=
  h.fits _ hc

theorem Net.linkAdd_fits (h : Net calls lab next relCurve) {k1 k2 : ℕ}
    (hc : Call.linkAdd k1 k2 ∈ calls) : (lab k1).role = .endpoint ∧
      (lab k2).role = .control ∧ (lab k1).place = (lab k2).place :=
  h.fits _ hc

theorem Net.exprSub_fits (h : Net calls lab next relCurve) {c p p1 : ℕ}
    (hc : Call.exprSub c p p1 ∈ calls) : (lab c).role = .stored ∧ (lab p).role ≠ .stored ∧
      (lab p1).role = .endpoint ∧
      ((lab p).place ≠ (lab p1).place ∨ Call.linkAdd p1 p ∈ calls ∧ relCurve) :=
  h.fits _ hc

/-! ### What moves -/

theorem Orders.edge_iff (hL : Orders L calls) {x w : ℕ} :
    L.graph.edge x w ↔ ∃ c ∈ calls, x ∈ c.sources ∧ w = c.target := by
  constructor
  · rintro ⟨dep, hdep⟩
    obtain ⟨c, hc, hx, hw, -⟩ := (hL x w dep).mp hdep
    exact ⟨c, hc, hx, hw⟩
  · rintro ⟨c, hc, hx, hw⟩
    exact ⟨c.dep, (hL x w c.dep).mpr ⟨c, hc, hx, hw, rfl⟩⟩

/-- What is linked to a point is linked to its place, and to a control point that
is nothing but the point. -/
theorem Net.edge_point (h : Net calls lab next relCurve) (hL : Orders L calls) {x w : ℕ}
    (hedge : L.graph.edge x w) (hw : (lab w).role ≠ .stored) :
    (lab x).role = .endpoint ∧ (lab w).place = (lab x).place := by
  obtain ⟨c, hc, hx, rfl⟩ := hL.edge_iff.mp hedge
  cases c with
  | link k1 k2 =>
      obtain rfl : x = k1 := by simpa [Call.sources] using hx
      obtain ⟨-, hcontrol, hendpoint⟩ := h.link_fits hc
      have hrole : (lab k2).role = .endpoint := by
        cases hk : (lab k2).role with
        | endpoint => rfl
        | control => exact absurd hk hcontrol
        | stored => exact absurd hk hw
      exact ⟨(hendpoint hrole).1, (hendpoint hrole).2.1.symm⟩
  | linkAdd k1 k2 =>
      obtain rfl : x = k1 := by simpa [Call.sources] using hx
      obtain ⟨hrole, -, hplace⟩ := h.linkAdd_fits hc
      exact ⟨hrole, hplace.symm⟩
  | exprSub k2 p p1 => exact absurd (h.exprSub_fits hc).1 hw

/-- What is stored leads nowhere. -/
theorem Net.role_of_edge (h : Net calls lab next relCurve) (hL : Orders L calls) {x w : ℕ}
    (hedge : L.graph.edge x w) : (lab x).role ≠ .stored := by
  obtain ⟨c, hc, hx, rfl⟩ := hL.edge_iff.mp hedge
  cases c with
  | link k1 k2 =>
      obtain rfl : x = k1 := by simpa [Call.sources] using hx
      exact (h.link_fits hc).1
  | linkAdd k1 k2 =>
      obtain rfl : x = k1 := by simpa [Call.sources] using hx
      rw [(h.linkAdd_fits hc).1]
      nofun
  | exprSub k2 p p1 =>
      obtain ⟨-, hp, hp1, -⟩ := h.exprSub_fits hc
      rcases List.mem_pair.mp hx with rfl | rfl
      · exact hp
      · rw [hp1]
        nofun

/-- The points that move with a point share its place, and a control point moves
alone. -/
theorem Net.visits_point (h : Net calls lab next relCurve) (hL : Orders L calls) {r y : ℕ}
    (hvisits : L.Visits r y) (hy : (lab y).role ≠ .stored) :
    (lab y).place = (lab r).place ∧ ((lab r).role = .control → y = r) := by
  induction hvisits with
  | refl => exact ⟨rfl, fun _ => rfl⟩
  | tail hvisits hedge ih =>
      obtain ⟨hrole, hplace⟩ := h.edge_point hL hedge hy
      obtain ⟨hplace', hcontrol⟩ := ih (by rw [hrole]; nofun)
      refine ⟨hplace.trans hplace', fun hr => ?_⟩
      obtain rfl := hcontrol hr
      rw [hr] at hrole
      cases hrole

end Nets

end LuaAttic.PathEditor
