import Mathlib.Data.Finset.Card
import Mathlib.Data.Finset.Dedup
import Mathlib.Data.List.Infix
import Mathlib.Data.List.Chain
import Mathlib.Logic.Relation

/-!
# Depth-first walks

A walk visits a vertex and then, one after the other, the successors that have
not been seen.  The vertices seen are kept in the order in which they are
visited.  With enough fuel the walk ends; it sees what can be reached, each
vertex after the ones of a path to it; and it starts with any path whose
vertices come first among the successors.
-/

namespace LuaAttic.Support

variable {V : Type*}

/-! ## Paths -/

/-- The vertices of a path from a vertex to another, without the last one. -/
inductive Path (R : V → V → Prop) (k : V) : List V → V → Prop
  | nil : Path R k [] k
  | snoc {q : List V} {x w : V} (h : Path R k q x) (hw : R x w) :
      Path R k (q ++ [x]) w

theorem Path.reflTransGen {R : V → V → Prop} {k w : V} {q : List V}
    (h : Path R k q w) : Relation.ReflTransGen R k w := by
  induction h with
  | nil => exact .refl
  | snoc _ hw ih => exact ih.tail hw

theorem Path.mono {R R' : V → V → Prop} (hR : ∀ x w, R x w → R' x w) {k w : V}
    {q : List V} (h : Path R k q w) : Path R' k q w := by
  induction h with
  | nil => exact .nil
  | snoc _ hw ih => exact ih.snoc (hR _ _ hw)

/-- Each vertex comes after those of a path to it. -/
def AfterPaths (succ : V → List V) (root : V) (seen : List V) : Prop :=
  ∀ A w B, seen = A ++ w :: B → ∃ q, Path (fun x w => w ∈ succ x) root q w ∧ q ⊆ A

theorem AfterPaths.snoc {succ : V → List V} {root k : V} {seen : List V}
    (h : AfterPaths succ root seen) {q : List V}
    (hq : Path (fun x w => w ∈ succ x) root q k) (hsub : q ⊆ seen) :
    AfterPaths succ root (seen ++ [k]) := by
  intro A w B heq
  rcases List.eq_nil_or_concat B with rfl | ⟨B, b, rfl⟩
  · obtain ⟨rfl, hw⟩ := List.append_inj' heq rfl
    obtain rfl : k = w := by simpa using hw
    exact ⟨q, hq, hsub⟩
  · have heq' : seen ++ [k] = (A ++ w :: B) ++ [b] := by simpa using heq
    obtain ⟨hseen, -⟩ := List.append_inj' heq' rfl
    exact h A w B hseen

/-! ## Walks -/

section Walks

variable [DecidableEq V]

/-- The vertices seen after a walk from a vertex; none if the fuel runs out. -/
def visit (succ : V → List V) : ℕ → V → List V → Option (List V)
  | 0, _, _ => none
  | n + 1, k, seen =>
      if k ∈ seen then some seen
      else (succ k).foldlM (fun seen w => visit succ n w seen) (seen ++ [k])

/-- The walks from some vertices, one after the other. -/
def visitAll (succ : V → List V) (n : ℕ) (ws seen : List V) : Option (List V) :=
  ws.foldlM (fun seen w => visit succ n w seen) seen

variable {succ : V → List V} {n : ℕ} {k root : V} {seen out : List V}

theorem visit_of_mem (h : k ∈ seen) : visit succ (n + 1) k seen = some seen :=
  if_pos h

theorem visit_of_notMem (h : k ∉ seen) :
    visit succ (n + 1) k seen = visitAll succ n (succ k) (seen ++ [k]) :=
  if_neg h

theorem visitAll_cons_eq_some {w : V} {ws : List V} :
    visitAll succ n (w :: ws) seen = some out ↔
      ∃ mid, visit succ n w seen = some mid ∧ visitAll succ n ws mid = some out := by
  rw [visitAll, List.foldlM_cons, Option.bind_eq_bind, Option.bind_eq_some_iff]
  exact Iff.rfl

/-- A property of walks holds if it holds of a vertex that has been seen, and
of one that has not, given that it holds of the walks from its successors. -/
theorem visit_induction {motive : V → List V → List V → Prop}
    (old : ∀ k s, k ∈ s → motive k s s)
    (new : ∀ n k s out, k ∉ s →
      (∀ w mid out, visit succ n w mid = some out → motive w mid out) →
      visitAll succ n (succ k) (s ++ [k]) = some out → motive k s out)
    (h : visit succ n k seen = some out) : motive k seen out := by
  induction n generalizing k seen out with
  | zero => cases h
  | succ n ih =>
      by_cases hk : k ∈ seen
      · rw [visit_of_mem hk] at h
        cases h
        exact old k seen hk
      · rw [visit_of_notMem hk] at h
        exact new n k seen out hk (fun _ _ _ => ih) h

/-- What holds of each walk, for walks one after the other. -/
theorem visitAll_relates {R : List V → List V → Prop} (hrefl : ∀ s, R s s)
    (htrans : ∀ s t u, R s t → R t u → R s u) {ws : List V}
    (hstep : ∀ w ∈ ws, ∀ mid out, visit succ n w mid = some out → R mid out)
    (h : visitAll succ n ws seen = some out) : R seen out := by
  induction ws generalizing seen with
  | nil =>
      cases h
      exact hrefl _
  | cons w ws ih =>
      obtain ⟨mid, hw, hws⟩ := visitAll_cons_eq_some.mp h
      exact htrans _ _ _ (hstep w List.mem_cons_self seen mid hw)
        (ih (fun w hw => hstep w (List.mem_cons_of_mem _ hw)) hws)

/-- What has been seen stays, in its order. -/
theorem visit_extends (h : visit succ n k seen = some out) : seen <+: out := by
  refine visit_induction (motive := fun _ s out => s <+: out) ?_ ?_ h
  · exact fun k s _ => List.prefix_rfl
  · intro n k s out hk ih hall
    have hstart : s <+: s ++ [k] := List.prefix_append s [k]
    exact hstart.trans (visitAll_relates (fun _ => List.prefix_rfl)
      (fun _ _ _ => List.IsPrefix.trans) (fun w _ => ih w) hall)

theorem visitAll_extends {ws : List V} (h : visitAll succ n ws seen = some out) :
    seen <+: out :=
  visitAll_relates (fun _ => List.prefix_rfl) (fun _ _ _ => List.IsPrefix.trans)
    (fun _ _ _ _ => visit_extends) h

theorem mem_of_visit (h : visit succ n k seen = some out) : k ∈ out := by
  refine visit_induction (motive := fun k _ out => k ∈ out) ?_ ?_ h
  · exact fun k s hk => hk
  · intro n k s out hk ih hall
    exact (visitAll_extends hall).subset (by simp)

theorem mem_of_visitAll {ws : List V} (h : visitAll succ n ws seen = some out)
    {w : V} (hw : w ∈ ws) : w ∈ out := by
  induction ws generalizing seen with
  | nil => exact absurd hw List.not_mem_nil
  | cons a ws ih =>
      obtain ⟨mid, ha, hws⟩ := visitAll_cons_eq_some.mp h
      rcases List.mem_cons.mp hw with rfl | hw
      · exact (visitAll_extends hws).subset (mem_of_visit ha)
      · exact ih hws hw

theorem visit_nodup (h : visit succ n k seen = some out) (hseen : seen.Nodup) :
    out.Nodup := by
  refine visit_induction (motive := fun _ s out => s.Nodup → out.Nodup) ?_ ?_ h hseen
  · exact fun k s _ => id
  · intro n k s out hk ih hall hs
    have hstart : (s ++ [k]).Nodup := by
      rw [List.nodup_append_comm]
      exact List.nodup_cons.mpr ⟨hk, hs⟩
    exact visitAll_relates (R := fun s t => s.Nodup → t.Nodup) (fun _ => id)
      (fun _ _ _ hst htu => htu ∘ hst) (fun w _ => ih w) hall hstart

/-- What is seen on the way has its successors seen as well. -/
def ClosedFrom (succ : V → List V) (seen out : List V) : Prop :=
  ∀ x ∈ out, x ∉ seen → ∀ w ∈ succ x, w ∈ out

theorem visit_closed (h : visit succ n k seen = some out) :
    ClosedFrom succ seen out := by
  refine visit_induction (motive := fun _ s out => ClosedFrom succ s out) ?_ ?_ h
  · exact fun k s _ x hx hnew => absurd hx hnew
  · intro n k s out hk ih hall x hx hnew w hw
    by_cases hxk : x = k
    · subst hxk
      exact mem_of_visitAll hall hw
    · have hstart : x ∉ s ++ [k] := by simp [hnew, hxk]
      have hclosed := visitAll_relates
        (R := fun s t => s <+: t ∧ ClosedFrom succ s t)
        (fun s => ⟨List.prefix_rfl, fun x hx hs => absurd hx hs⟩)
        (fun s t u hst htu => ⟨hst.1.trans htu.1, fun x hx hs w hw => by
          by_cases hxt : x ∈ t
          · exact htu.1.subset (hst.2 x hxt hs w hw)
          · exact htu.2 x hx hxt w hw⟩)
        (fun w _ mid out hvisit => ⟨visit_extends hvisit, ih w mid out hvisit⟩) hall
      exact hclosed.2 x hx hstart w hw

theorem visit_afterPaths (h : visit succ n k seen = some out)
    (hseen : AfterPaths succ root seen) {q : List V}
    (hq : Path (fun x w => w ∈ succ x) root q k) (hsub : q ⊆ seen) :
    AfterPaths succ root out := by
  refine visit_induction (motive := fun k s out => AfterPaths succ root s →
    ∀ q, Path (fun x w => w ∈ succ x) root q k → q ⊆ s →
      AfterPaths succ root out) ?_ ?_ h hseen q hq hsub
  · exact fun k s _ hs q _ _ => hs
  · intro n k s out hk ih hall hs q hq hsub
    have hkept : q ++ [k] ⊆ s ++ [k] := by
      intro u hu
      rcases List.mem_append.mp hu with hu | hu
      · exact List.mem_append_left _ (hsub hu)
      · exact List.mem_append_right _ hu
    have hwalks := visitAll_relates
      (R := fun s t => s <+: t ∧ (q ++ [k] ⊆ s → AfterPaths succ root s →
        AfterPaths succ root t))
      (fun s => ⟨List.prefix_rfl, fun _ hs => hs⟩)
      (fun s t u hst htu => ⟨hst.1.trans htu.1, fun hq hs =>
        htu.2 (List.Subset.trans hq hst.1.subset) (hst.2 hq hs)⟩)
      (fun w hw mid out hvisit => ⟨visit_extends hvisit, fun hmid hs =>
        ih w mid out hvisit hs (q ++ [k]) (hq.snoc hw) hmid⟩) hall
    exact hwalks.2 hkept (hs.snoc hq hsub)

/-- The walk starts with a path that goes to the first successor each time. -/
theorem visit_first {p : List V} (h : visit succ n k seen = some out)
    (hp : (k :: p).IsChain fun a b => (succ a).head? = some b)
    (hnodup : (k :: p).Nodup) (hdisj : (k :: p).Disjoint seen) :
    seen ++ k :: p <+: out := by
  induction p generalizing n k seen out with
  | nil =>
      cases n with
      | zero => cases h
      | succ n =>
          rw [visit_of_notMem (hdisj List.mem_cons_self)] at h
          exact visitAll_extends h
  | cons b p ih =>
      cases n with
      | zero => cases h
      | succ n =>
          rw [visit_of_notMem (hdisj List.mem_cons_self)] at h
          obtain ⟨hb, hchain⟩ := List.isChain_cons_cons.mp hp
          obtain ⟨ws, hws⟩ := List.head?_eq_some_iff.mp hb
          rw [hws] at h
          obtain ⟨mid, hmid, hrest⟩ := visitAll_cons_eq_some.mp h
          obtain ⟨hk, hnodup⟩ := List.nodup_cons.mp hnodup
          have hstart := ih hmid hchain hnodup (by
            intro u hu hmem
            rcases List.mem_append.mp hmem with hmem | hmem
            · exact hdisj (List.mem_cons_of_mem k hu) hmem
            · obtain rfl : u = k := by simpa using hmem
              exact hk hu)
          rw [List.append_assoc, List.singleton_append] at hstart
          exact hstart.trans (visitAll_extends hrest)

/-- More fuel than there are vertices that have not been seen is enough. -/
theorem exists_visit {U : Finset V} (hU : ∀ x ∈ U, ∀ w ∈ succ x, w ∈ U)
    (hk : k ∈ U) (hn : (U \ seen.toFinset).card < n) :
    ∃ out, visit succ n k seen = some out := by
  induction n generalizing k seen with
  | zero => exact absurd hn (Nat.not_lt_zero _)
  | succ n ih =>
      by_cases hmem : k ∈ seen
      · exact ⟨seen, visit_of_mem hmem⟩
      · rw [visit_of_notMem hmem]
        have hless : (U \ (seen ++ [k]).toFinset).card < n := by
          refine Nat.lt_of_lt_of_le (Finset.card_lt_card ?_) (Nat.le_of_lt_succ hn)
          refine Finset.ssubset_iff_subset_ne.mpr ⟨?_, fun heq => ?_⟩
          · exact Finset.sdiff_subset_sdiff le_rfl (by simp)
          · have hkU : k ∈ U \ seen.toFinset := by simp [hk, hmem]
            rw [← heq] at hkU
            simp at hkU
        have hall : ∀ ws : List V, (∀ w ∈ ws, w ∈ U) → ∀ s : List V,
            (U \ s.toFinset).card < n → ∃ out, visitAll succ n ws s = some out := by
          intro ws
          induction ws with
          | nil => exact fun _ s _ => ⟨s, rfl⟩
          | cons w ws ihws =>
              intro hws s hs
              obtain ⟨mid, hmid⟩ := ih (hws w List.mem_cons_self) hs
              have hsub : s.toFinset ⊆ mid.toFinset := fun u hu => by
                simpa using (visit_extends hmid).subset (by simpa using hu)
              obtain ⟨out, hout⟩ := ihws (fun w hw => hws w (List.mem_cons_of_mem _ hw))
                mid ((Finset.card_le_card (Finset.sdiff_subset_sdiff le_rfl hsub)).trans_lt hs)
              exact ⟨out, visitAll_cons_eq_some.mpr ⟨mid, hmid, hout⟩⟩
        exact hall (succ k) (hU k hk) (seen ++ [k]) hless

/-! ## Walks from several vertices -/

theorem visit_reachable (h : visit succ n k seen = some out) :
    ∀ x ∈ out, x ∈ seen ∨ Relation.ReflTransGen (fun x w => w ∈ succ x) k x := by
  refine visit_induction (motive := fun k s out => ∀ x ∈ out, x ∈ s ∨
    Relation.ReflTransGen (fun x w => w ∈ succ x) k x) ?_ ?_ h
  · exact fun k s _ x hx => Or.inl hx
  · intro n k s out hk ih hall x hx
    have hwalks := visitAll_relates
      (R := fun s t => ∀ x ∈ t, x ∈ s ∨ Relation.ReflTransGen (fun x w => w ∈ succ x) k x)
      (fun s x hx => Or.inl hx)
      (fun s t u hst htu x hx => (htu x hx).elim (hst x) Or.inr)
      (fun w hw mid out hvisit x hx => (ih w mid out hvisit x hx).imp_right fun hpath =>
        Relation.ReflTransGen.head hw hpath) hall x hx
    rcases hwalks with hmem | hpath
    · rcases List.mem_append.mp hmem with hmem | hmem
      · exact Or.inl hmem
      · obtain rfl := List.mem_singleton.mp hmem
        exact Or.inr .refl
    · exact Or.inr hpath

/-- The walks from some vertices see what can be reached from one of them, each once. -/
theorem visitAll_spec {ws : List V} (h : visitAll succ n ws [] = some out) :
    out.Nodup ∧ ∀ x, x ∈ out ↔ ∃ w ∈ ws, Relation.ReflTransGen (fun x w => w ∈ succ x) w x := by
  have hnodup := visitAll_relates (R := fun s t => s.Nodup → t.Nodup) (fun _ => id)
    (fun _ _ _ hst htu => htu ∘ hst) (fun w _ mid out hvisit => visit_nodup hvisit) h
    List.nodup_nil
  have hreach := visitAll_relates
    (R := fun s t => ∀ x ∈ t, x ∈ s ∨ ∃ w ∈ ws, Relation.ReflTransGen (fun x w => w ∈ succ x) w x)
    (fun s x hx => Or.inl hx) (fun s t u hst htu x hx => (htu x hx).elim (hst x) Or.inr)
    (fun w hw mid out hvisit x hx =>
      (visit_reachable hvisit x hx).imp_right fun hpath => ⟨w, hw, hpath⟩) h
  have hclosed := visitAll_relates
    (R := fun s t => s <+: t ∧ ((∀ x ∈ s, ∀ w ∈ succ x, w ∈ s) → ∀ x ∈ t, ∀ w ∈ succ x, w ∈ t))
    (fun s => ⟨List.prefix_rfl, id⟩)
    (fun s t u hst htu => ⟨hst.1.trans htu.1, htu.2 ∘ hst.2⟩)
    (fun w _ mid out hvisit => ⟨visit_extends hvisit, fun hmid x hx w hw => by
      by_cases hxm : x ∈ mid
      · exact (visit_extends hvisit).subset (hmid x hxm w hw)
      · exact visit_closed hvisit x hx hxm w hw⟩) h
  refine ⟨hnodup, fun x => ⟨fun hx => (hreach x hx).resolve_left List.not_mem_nil, ?_⟩⟩
  rintro ⟨w, hw, hpath⟩
  induction hpath with
  | refl => exact mem_of_visitAll h hw
  | tail _ hstep ih => exact hclosed.2 nofun _ ih _ hstep

theorem exists_visitAll {U : Finset V} (hU : ∀ x ∈ U, ∀ w ∈ succ x, w ∈ U) {ws : List V}
    (hws : ∀ w ∈ ws, w ∈ U) (hn : U.card < n) : ∃ out, visitAll succ n ws seen = some out := by
  induction ws generalizing seen with
  | nil => exact ⟨seen, rfl⟩
  | cons w ws ih =>
      obtain ⟨hw, hws⟩ := List.forall_mem_cons.mp hws
      obtain ⟨mid, hmid⟩ : ∃ mid, visit succ n w seen = some mid :=
        exists_visit hU hw ((Finset.card_le_card Finset.sdiff_subset).trans_lt hn)
      obtain ⟨out, hout⟩ : ∃ out, visitAll succ n ws mid = some out := ih hws
      exact ⟨out, visitAll_cons_eq_some.mpr ⟨mid, hmid, hout⟩⟩

end Walks

end LuaAttic.Support
