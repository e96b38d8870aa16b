import Mathlib
import LuaAttic.PathEditor.Links

/-!
# Moves in a net

Assigning a coordinate of a point moves all that is linked to it by the same
distance, and what is stored follows, provided that the first control point of a
relative curve is visited before what is stored of it.
-/

namespace LuaAttic.PathEditor

open LuaAttic.Varlinker

variable {K : Type} [AddCommGroup K] {calls : List Call} {lab : ℕ → Label} {next : ℕ}
  {relCurve : Prop} {L : Linkset K} {r : ℕ} {d : K} {s : ℕ → K}

/-- Where a coordinate of a point is after a move. -/
noncomputable def moved (L : Linkset K) (r : ℕ) (d : K) (s : ℕ → K) (y : ℕ) : K :=
  open Classical in if L.Visits r y then s y + d else s y

theorem moved_of_visits {y : ℕ} (h : L.Visits r y) : moved L r d s y = s y + d := if_pos h

theorem moved_of_not_visits {y : ℕ} (h : ¬ L.Visits r y) : moved L r d s y = s y := if_neg h

/-- What a value is when it is set. -/
structure Follows (calls : List Call) (lab : ℕ → Label) (L : Linkset K) (r : ℕ) (d : K)
    (s : ℕ → K) (w : ℕ) (val : K) : Prop where
  visits : L.Visits r w
  point : (lab w).role ≠ .stored → val = s w + d
  linked : (lab w).role = .stored → ∀ k1, Call.link k1 w ∈ calls → val = s k1 + d
  relative : ∀ p p1, Call.exprSub w p p1 ∈ calls →
    val = moved L r d s p - moved L r d s p1

theorem ne_endpoint_of_stored {k : ℕ} (h : (lab k).role = .stored) :
    (lab k).role ≠ .endpoint := by
  rw [h]
  nofun

section Moves

variable (h : Net calls lab next relCurve) (hL : Orders L calls)

include h hL

/-- `delta` is not visited. -/
theorem Net.delta_not_mem (hr : 2 ≤ r) {P : List ℕ} (hP : L.Walk r P) : delta ∉ P := by
  intro hmem
  rcases hP.2 delta hmem with heq | ⟨x, A, dep, B, hdeps, -, -⟩
  · rw [← heq] at hr
    exact absurd hr (by decide)
  · have hdep : (delta, dep) ∈ L.dependents x := by
      rw [hdeps]
      exact List.mem_append_right A List.mem_cons_self
    obtain ⟨c, hc, -, hw, -⟩ := (hL x delta dep).mp hdep
    have hbound := (h.bounds c hc c.target List.mem_cons_self).1
    rw [← hw] at hbound
    exact absurd hbound (by decide)

/-- The only way to a control point is by the endpoint that it moves with. -/
theorem Net.control_walk {p1 p : ℕ} (hc : Call.linkAdd p1 p ∈ calls) {P : List ℕ}
    (hP : L.Walk r P) (hp : p ∈ P) (hr : p ≠ r) : ∃ A dep B,
      L.dependents p1 = A ++ (p, dep) :: B ∧ p1 ∈ P ∧ ∀ e ∈ A, e.1 ∈ P := by
  obtain ⟨x, A, dep, B, hdeps, hx, hA⟩ := (hP.2 p hp).resolve_left hr
  have hdep : (p, dep) ∈ L.dependents x := by
    rw [hdeps]
    exact List.mem_append_right A List.mem_cons_self
  obtain ⟨c, hc', hsource, hw, -⟩ := (hL x p dep).mp hdep
  obtain ⟨-, hcontrol, -⟩ := h.linkAdd_fits hc
  obtain rfl := h.unique hc hc' hw (by rw [Call.target, hcontrol]; nofun)
  obtain rfl : x = p1 := by simpa [Call.sources] using hsource
  exact ⟨A, dep, B, hdeps, hx, hA⟩

/-- What is stored of two points when one of them has been visited. -/
theorem Net.exprSub_step (hfirst : ControlsFirst L calls) {p p1 c x : ℕ}
    {A B : List (ℕ × Dep K)} {dep : Dep K} {P : List ℕ}
    (hc : Call.exprSub c p p1 ∈ calls) (hx : x = p ∨ x = p1)
    (hdeps : L.dependents x = A ++ (c, dep) :: B) (hP : L.Walk r P) (hxP : x ∈ P)
    (hA : ∀ e ∈ A, e.1 ∈ P) (hvisits : ∀ y ∈ P, L.Visits r y) :
    (p ∈ P ∨ ¬ L.Visits r p) ∧ (p1 ∈ P ∨ ¬ L.Visits r p1) := by
  obtain ⟨-, hp, hp1, hcase⟩ := h.exprSub_fits hc
  have hp1' : (lab p1).role ≠ .stored := by
    rw [hp1]
    nofun
  rcases hcase with hplace | ⟨hadd, -⟩
  · -- the points are in places of their own
    have hapart : ¬ (L.Visits r p ∧ L.Visits r p1) := fun ⟨hv, hv1⟩ =>
      hplace ((h.visits_point hL hv hp).1.trans (h.visits_point hL hv1 hp1').1.symm)
    rcases hx with rfl | rfl
    · exact ⟨.inl hxP, .inr fun hv1 => hapart ⟨hvisits _ hxP, hv1⟩⟩
    · exact ⟨.inr fun hv => hapart ⟨hv, hvisits _ hxP⟩, .inl hxP⟩
  · -- the first control point of a relative curve
    rcases hx with rfl | rfl
    · refine ⟨.inl hxP, ?_⟩
      by_cases hr : x = r
      · refine .inr fun hv1 => ?_
        obtain ⟨-, hcontrol, -⟩ := h.linkAdd_fits hadd
        have hsame := (h.visits_point hL hv1 hp1').2 (hr ▸ hcontrol)
        rw [hsame, ← hr, hcontrol] at hp1
        cases hp1
      · obtain ⟨-, -, -, -, hmem, -⟩ := h.control_walk hL hadd hP hxP hr
        exact .inl hmem
    · obtain ⟨e, he, rfl⟩ := hfirst _ _ _ hadd hc A dep B hdeps
      exact ⟨.inl (hA e he), .inl hxP⟩

theorem Net.sound_follows (hholds : ∀ c ∈ calls, c.Holds s) (hdelta : s delta = d)
    (hr : 2 ≤ r) (hfirst : ControlsFirst L calls) :
    L.Sound r s (Follows calls lab L r d s) := by
  intro x A w dep B P t hdeps hP hx hA hw hset hkept
  have hdep : (w, dep) ∈ L.dependents x := by
    rw [hdeps]
    exact List.mem_append_right A List.mem_cons_self
  have hedge : L.graph.edge x w := ⟨dep, hdep⟩
  have hvisits : L.Visits r w := (hset x hx).visits.tail hedge
  have htx : t x = s x + d := (hset x hx).point (h.role_of_edge hL hedge)
  obtain ⟨c, hc, hsource, rfl, rfl⟩ := (hL x w dep).mp hdep
  cases c with
  | link k1 k2 =>
      obtain rfl : x = k1 := by simpa [Call.sources] using hsource
      obtain ⟨-, hcontrol, -⟩ := h.link_fits hc
      refine ⟨hvisits, fun _ => ?_, fun hrole k1 hk1 => ?_, fun p p1 hsub => ?_⟩
      · have hsame : s k2 = s x := hholds _ hc
        exact htx.trans (congrArg (· + d) hsame.symm)
      · have hsame := h.unique hc hk1 rfl (ne_endpoint_of_stored hrole)
        obtain rfl := (Call.link.inj hsame).1
        exact htx
      · have hrole := (h.exprSub_fits hsub).1
        cases h.unique hc hsub rfl (ne_endpoint_of_stored hrole)
  | linkAdd k1 k2 =>
      obtain ⟨-, hcontrol, -⟩ := h.linkAdd_fits hc
      have hne : (lab k2).role ≠ .endpoint := by simp [hcontrol]
      refine ⟨hvisits, fun _ => ?_, fun hrole => ?_, fun p p1 hsub => ?_⟩
      · have hdelta' : t delta = d := (hkept delta (h.delta_not_mem hL hr hP)).trans hdelta
        change t k2 + t delta = s k2 + d
        rw [hkept k2 hw, hdelta']
      · rw [Call.target, hcontrol] at hrole
        cases hrole
      · cases h.unique hc hsub rfl hne
  | exprSub k2 p p1 =>
      obtain ⟨hrole, hp, hp1, -⟩ := h.exprSub_fits hc
      have hne : (lab k2).role ≠ .endpoint := ne_endpoint_of_stored hrole
      have hp1' : (lab p1).role ≠ .stored := by simp [hp1]
      have hsources : x = p ∨ x = p1 := List.mem_pair.mp hsource
      obtain ⟨hP0, hP1⟩ := h.exprSub_step hL hfirst hc hsources hdeps hP hx hA
        fun y hy => (hset y hy).visits
      have hmoved : ∀ y, (lab y).role ≠ .stored → (y ∈ P ∨ ¬ L.Visits r y) →
          t y = moved L r d s y := by
        intro y hy hor
        by_cases hyP : y ∈ P
        · rw [moved_of_visits (hset y hyP).visits]
          exact (hset y hyP).point hy
        · rw [moved_of_not_visits (hor.resolve_left hyP), hkept y hyP]
      refine ⟨hvisits, fun hk => absurd hrole hk, fun _ k1 hk1 => ?_, fun q q1 hsub => ?_⟩
      · cases h.unique hc hk1 rfl hne
      · obtain ⟨-, rfl, rfl⟩ := Call.exprSub.inj (h.unique hc hsub rfl hne)
        change t p - t p1 = _
        rw [hmoved p hp hP0, hmoved p1 hp1' hP1]

omit h in
/-- What is visited is visited after something that it depends on. -/
theorem Orders.exists_source {w : ℕ} (hvisits : L.Visits r w) (hw : w ≠ r) :
    ∃ c ∈ calls, w = c.target ∧ ∃ x ∈ c.sources, L.Visits r x := by
  rcases Relation.ReflTransGen.cases_tail hvisits with rfl | ⟨x, hx, hedge⟩
  · exact absurd rfl hw
  · obtain ⟨c, hc, hsource, hw⟩ := hL.edge_iff.mp hedge
    exact ⟨c, hc, hw, x, hsource, hx⟩

omit h in
theorem Orders.visits_target {c : Call} (hc : c ∈ calls) {x : ℕ} (hx : x ∈ c.sources)
    (hvisits : L.Visits r x) : L.Visits r c.target :=
  hvisits.tail (hL.edge_iff.mpr ⟨c, hc, hx, rfl⟩)

/-- After a move what the calls are for holds again. -/
theorem Net.holds_of_follows {t : ℕ → K} (hholds : ∀ c ∈ calls, c.Holds s)
    (hrole : (lab r).role ≠ .stored)
    (hfollows : ∀ y, L.Visits r y → Follows calls lab L r d s y (t y))
    (hpoint : ∀ y, (lab y).role ≠ .stored → t y = moved L r d s y)
    (hkept : ∀ y, ¬ L.Visits r y → t y = s y) : ∀ c ∈ calls, c.Holds t := by
  intro c hc
  have hs := hholds c hc
  cases c with
  | link k1 k2 =>
      obtain ⟨hk1, hcontrol, hendpoint⟩ := h.link_fits hc
      change t k2 = t k1
      rw [hpoint k1 hk1]
      cases hk2 : (lab k2).role with
      | control => exact absurd hk2 hcontrol
      | endpoint =>
          -- both move or none
          obtain ⟨-, -, hback⟩ := hendpoint hk2
          have hsame : L.Visits r k1 ↔ L.Visits r k2 :=
            ⟨hL.visits_target hc (by simp [Call.sources]),
              hL.visits_target hback (by simp [Call.sources])⟩
          rw [hpoint k2 (by simp [hk2]), moved, moved, hsame, show s k2 = s k1 from hs]
      | stored =>
          by_cases hv : L.Visits r k1
          · have hv2 := hL.visits_target hc (by simp [Call.sources]) hv
            rw [moved_of_visits hv]
            exact (hfollows k2 hv2).linked hk2 k1 hc
          · have hv2 : ¬ L.Visits r k2 := by
              intro hv2
              obtain ⟨c', hc', ht, x, hx, hvx⟩ := hL.exists_source hv2 (by
                rintro rfl
                exact hrole hk2)
              obtain rfl := h.unique hc hc' ht (ne_endpoint_of_stored hk2)
              obtain rfl : x = k1 := by simpa [Call.sources] using hx
              exact hv hvx
            rw [hkept k2 hv2, moved_of_not_visits hv]
            exact hs
  | linkAdd k1 k2 => trivial
  | exprSub k2 p p1 =>
      obtain ⟨hk2, hp, hp1, -⟩ := h.exprSub_fits hc
      have hp1' : (lab p1).role ≠ .stored := by simp [hp1]
      change t k2 = t p - t p1
      rw [hpoint p hp, hpoint p1 hp1']
      by_cases hv2 : L.Visits r k2
      · exact (hfollows k2 hv2).relative p p1 hc
      · have hv : ¬ L.Visits r p := fun hv =>
          hv2 (hL.visits_target hc (by simp [Call.sources]) hv)
        have hv1 : ¬ L.Visits r p1 := fun hv1 =>
          hv2 (hL.visits_target hc (by simp [Call.sources]) hv1)
        rw [hkept k2 hv2, moved_of_not_visits hv, moved_of_not_visits hv1]
        exact hs

/-- The linker of an editor. -/
def linker (L : Linkset K) : Linker K := { linksets := [L] }

/-- A move of a point. -/
theorem Net.update_point (hholds : ∀ c ∈ calls, c.Holds s) (hdelta : s delta = d)
    (hr : 2 ≤ r) (hrole : (lab r).role ≠ .stored) (hfirst : ControlsFirst L calls) :
    ∃ t, (linker L).update r (s r + d) s = some t ∧ t r = s r + d ∧
      (∀ y, (lab y).role ≠ .stored → t y = moved L r d s y) ∧ ∀ c ∈ calls, c.Holds t := by
  have hroot : Follows calls lab L r d s r (s r + d) :=
    ⟨.refl, fun _ => rfl, fun hr => absurd hr hrole,
      fun p p1 hsub => absurd (h.exprSub_fits hsub).1 hrole⟩
  obtain ⟨t, hrun, htr, hfollows, hkept⟩ := update_of_sound (Λ := linker L) rfl
    (fun _ => rfl) hroot (h.sound_follows hL hholds hdelta hr hfirst)
  have hpoint : ∀ y, (lab y).role ≠ .stored → t y = moved L r d s y := by
    intro y hy
    by_cases hv : L.Visits r y
    · rw [moved_of_visits hv]
      exact (hfollows y hv).point hy
    · rw [moved_of_not_visits hv, hkept y hv]
  exact ⟨t, hrun, htr, hpoint, h.holds_of_follows hL hholds hrole hfollows hpoint hkept⟩

/-- What is stored of the first control point of a relative curve, if it is visited
before the control point: the control point had not moved yet. -/
theorem Net.update_stale {p p1 c : ℕ} (hadd : Call.linkAdd p1 p ∈ calls)
    (hsub : Call.exprSub c p p1 ∈ calls) (hnot : ¬ VisitsFirst L p1 p c)
    (hdelta : s delta = d) :
    ∃ t, (linker L).update p1 (s p1 + d) s = some t ∧ t p1 = s p1 + d ∧ t p = s p + d ∧
      t c = s p - (s p1 + d) ∧ ∀ y, ¬ L.Visits p1 y → t y = s y := by
  obtain ⟨hrole1, hrole, -⟩ := h.linkAdd_fits hadd
  obtain ⟨hstored, -, -, -⟩ := h.exprSub_fits hsub
  have hp1 : 2 ≤ p1 :=
    (h.bounds _ hadd p1 (by simp [Call.sources])).1
  have hpp1 : p ≠ p1 := by
    rintro rfl
    rw [hrole] at hrole1
    cases hrole1
  have hcp : c ≠ p := by
    rintro rfl
    rw [hrole] at hstored
    cases hstored
  -- the control point has not been visited when what is stored is
  have hlater : ∀ P, L.Walk p1 P → c ∉ P → p ∉ P := by
    intro P hP hcP hpP
    obtain ⟨A, dep, B, hsplit, -, hA⟩ := h.control_walk hL hadd hP hpP hpp1
    obtain ⟨A', dep', B', hsplit', hnotmem⟩ : ∃ A' dep' B',
        L.dependents p1 = A' ++ (c, dep') :: B' ∧ ∀ e ∈ A', e.1 ≠ p := by
      simp only [VisitsFirst, not_forall] at hnot
      obtain ⟨A', dep', B', hsplit', hnone⟩ := hnot
      exact ⟨A', dep', B', hsplit', fun e he heq => hnone ⟨e, he, heq⟩⟩
    rcases List.append_eq_append_iff.mp (hsplit.symm.trans hsplit') with
      ⟨m, hA', hm⟩ | ⟨m, hA', hm⟩
    · cases m with
      | nil => exact hcp (congrArg Prod.fst (List.cons.inj hm).1).symm
      | cons e m =>
          obtain rfl := (List.cons.inj hm).1
          exact hnotmem (p, dep) (by simp [hA']) rfl
    · cases m with
      | nil => exact hcp (congrArg Prod.fst (List.cons.inj hm).1)
      | cons e m =>
          obtain rfl := (List.cons.inj hm).1
          exact hcP (hA (c, dep') (by simp [hA']))
  let Q : ℕ → K → Prop := fun w val => (w = p1 → val = s p1 + d) ∧ (w = p → val = s p + d) ∧
    (w = c → val = s p - (s p1 + d))
  have hsound : L.Sound p1 s Q := by
    intro x A w dep B P t hdeps hP hx hA hw hset hkept
    have hdep : (w, dep) ∈ L.dependents x := by
      rw [hdeps]
      exact List.mem_append_right A List.mem_cons_self
    obtain ⟨c', hc', -, rfl, rfl⟩ := (hL x w dep).mp hdep
    refine ⟨fun hwp => ?_, fun hwp => ?_, fun hwc => ?_⟩
    · exact absurd (hwp ▸ hP.1) hw
    · obtain rfl := h.unique hadd hc' hwp.symm (by simp [Call.target, hrole])
      have hdelta' : t delta = d := (hkept delta (h.delta_not_mem hL hp1 hP)).trans hdelta
      change t p + t delta = s p + d
      rw [hkept p hw, hdelta']
    · obtain rfl := h.unique hsub hc' hwc.symm (ne_endpoint_of_stored hstored)
      change t p - t p1 = s p - (s p1 + d)
      rw [hkept p (hlater P hP hw), (hset p1 hP.1).1 rfl]
  have hroot : Q p1 (s p1 + d) := by
    refine ⟨fun _ => rfl, fun heq => absurd heq.symm hpp1, fun heq => ?_⟩
    rw [heq, hstored] at hrole1
    cases hrole1
  obtain ⟨t, hrun, htp1, hQ, hkept⟩ := update_of_sound (Λ := linker L) rfl (fun _ => rfl)
    hroot hsound
  have hvp := hL.visits_target hadd (by simp [Call.sources]) (.refl : L.Visits p1 p1)
  have hvc := hL.visits_target hsub (by simp [Call.sources]) (.refl : L.Visits p1 p1)
  exact ⟨t, hrun, htp1, (hQ p hvp).2.1 rfl, (hQ c hvc).2.2 rfl, hkept⟩

/-- Nothing depends on `delta`. -/
theorem Net.update_delta (v : K) :
    (linker L).update delta v s = some (Function.update s delta v) := by
  have hvisits : ∀ y, L.Visits delta y → y = delta := by
    intro y hy
    induction hy with
    | refl => rfl
    | tail _ hedge ih =>
        subst ih
        obtain ⟨c, hc, hsource, -⟩ := hL.edge_iff.mp hedge
        have hbound := (h.bounds c hc delta (List.mem_cons_of_mem _ hsource)).1
        exact absurd hbound (by decide)
  obtain ⟨t, hrun, htd, -, hkept⟩ := update_of_sound (Λ := linker L) (L := L) (k := delta)
    (v := v) (s := s) (Q := fun _ _ => True) rfl (fun _ => rfl) trivial
    fun _ _ _ _ _ _ _ _ _ _ _ _ _ _ => trivial
  rw [hrun]
  congr 1
  funext y
  by_cases hy : y = delta
  · subst hy
    rw [htd, Function.update_self]
  · rw [Function.update_of_ne hy]
    exact hkept y fun hv => hy (hvisits y hv)

end Moves

end LuaAttic.PathEditor
