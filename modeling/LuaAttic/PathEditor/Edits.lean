import LuaAttic.PathEditor.Paths

/-!
# Editing a path by its points

After each call of `update_point` the path evaluates to the points, if the first
control point of each relative curve is visited before what is stored of it.
Otherwise moving the start point leaves the path of such a curve as if its control
point had not moved.
-/

namespace LuaAttic.PathEditor

open LuaAttic.Lua LuaAttic.Varlinker

variable {K : Type} [AddCommGroup K]

/-! ## Orders -/

/-- The linkset of an editor, with the dependents of each variable in any order. -/
theorem Built.orders {e : Editor K} {lab : ℕ → Label} (h : Built e lab) {L : Linkset K}
    (hL : ∀ x, (L.dependents x).Perm (e.linkset.dependents x)) : Orders L e.calls := by
  intro x w dep
  rw [(hL x).mem_iff]
  exact mem_dependents_iff h.net.nodup

/-- Without relative curves any order will do. -/
theorem controlsFirst_of_not_hasRelCurve {path : List (Command K)} {e : Editor K}
    (he : editor path = .ok e) (hpath : ¬ HasRelCurve path) (L : Linkset K) :
    ControlsFirst L e.calls := by
  obtain ⟨lab, h⟩ := editor_built he
  intro p1 p c hadd hsub
  obtain ⟨-, -, -, hcase⟩ := h.net.exprSub_fits hsub
  rcases hcase with hplace | ⟨-, x2, y2, x3, y3, x4, y4, hmem⟩
  · exact absurd (h.net.linkAdd_fits hadd).2.2.symm hplace
  · have hmap := List.mem_map_of_mem (f := fun c => c.map e.vals) hmem
    rw [editor_path he] at hmap
    exact absurd ⟨_, _, _, _, _, _, hmap⟩ hpath

/-! ## One coordinate -/

theorem getElem?_flatMap {qs : List (ℕ × ℕ)} {i : ℕ} {q : ℕ × ℕ} (h : qs[i]? = some q) :
    (qs.flatMap fun p => [p.1, p.2])[2 * i]? = some q.1 ∧
      (qs.flatMap fun p => [p.1, p.2])[2 * i + 1]? = some q.2 := by
  induction qs generalizing i with
  | nil => cases h
  | cons p qs ih =>
      cases i with
      | zero =>
          obtain rfl := Option.some.inj h
          exact ⟨rfl, rfl⟩
      | succ i => exact ih h

section Coordinates

variable {e : Editor K} {lab : ℕ → Label} (h : Built e lab) {L : Linkset K}
  (hL : Orders L e.calls) {xi r : ℕ} {x : K} {s : ℕ → K}

theorem moved_zero : moved L r 0 s = s := by
  funext y
  rw [moved, add_zero, ite_self]

include h in
theorem Built.holds_update_delta (hs : ∀ c ∈ e.calls, c.Holds s) (d : K) :
    ∀ c ∈ e.calls, c.Holds (Function.update s delta d) := by
  intro c hc
  refine (hs c hc).congr fun k hk => Function.update_of_ne ?_ _ _
  rintro rfl
  exact absurd (h.net.bounds c hc delta hk).1 (by decide)

omit [AddCommGroup K] in
theorem update_delta_of_le {d : K} {y : ℕ} (hy : 2 ≤ y) :
    Function.update s delta d y = s y := by
  refine Function.update_of_ne ?_ _ _
  rintro rfl
  exact absurd hy (by decide)

variable [DecidableEq K]

theorem update_of_eq (hr : e.pointVars[xi - 1]? = some r) (hx : x = s r) :
    update e L xi x s = some s := by
  rw [update, hr]
  simp [hx]

include h hL in
theorem Built.update_of_ne (hr : e.pointVars[xi - 1]? = some r) (hx : x - s r ≠ 0) :
    update e L xi x s = (linker L).update r x (Function.update s delta (x - s r)) := by
  have hdelta := h.net.update_delta hL (s := s) (x - s r)
  rw [linker] at hdelta
  rw [update, hr]
  simp [hx, hdelta, linker]

include h hL in
/-- What a coordinate of a point leaves when it is updated. -/
theorem Built.update (hr : e.pointVars[xi - 1]? = some r) (hr2 : 2 ≤ r)
    (hrole : (lab r).role ≠ .stored) (hs : ∀ c ∈ e.calls, c.Holds s)
    (hfirst : ControlsFirst L e.calls) : ∃ t, update e L xi x s = some t ∧ t r = x ∧
      (∀ y, 2 ≤ y → (lab y).role ≠ .stored → t y = moved L r (x - s r) s y) ∧
      ∀ c ∈ e.calls, c.Holds t := by
  by_cases hx : x = s r
  · refine ⟨s, update_of_eq hr hx, hx.symm, fun y _ _ => ?_, hs⟩
    rw [hx, sub_self, moved_zero]
  · have hd : x - s r ≠ 0 := sub_ne_zero.mpr hx
    obtain ⟨t, hrun, htr, hpoint, hholds⟩ := h.net.update_point hL
      (h.holds_update_delta hs (x - s r)) (Function.update_self _ _ _) hr2 hrole hfirst
    rw [update_delta_of_le hr2, add_sub_cancel] at hrun htr
    refine ⟨t, (h.update_of_ne hL hr hd).trans hrun, htr, fun y hy hrole => ?_, hholds⟩
    rw [hpoint y hrole, moved, moved, update_delta_of_le hy]

omit [DecidableEq K] in
include h hL in
/-- A control point moves with the endpoint that it is attached to, unless it is the
one that is updated. -/
theorem Built.moved_control {k1 k2 : ℕ} {d : K} (hc : Call.linkAdd k1 k2 ∈ e.calls)
    (hk2 : k2 ≠ r) : moved L r d s k2 - s k2 = moved L r d s k1 - s k1 := by
  have hiff : L.Visits r k2 ↔ L.Visits r k1 := by
    constructor
    · intro hv
      obtain ⟨c, hc', ht, k, hk, hvk⟩ := hL.exists_source hv hk2
      have hcontrol := (h.net.linkAdd_fits hc).2.1
      obtain rfl := h.net.unique hc hc' ht (by simp [Call.target, hcontrol])
      obtain rfl : k = k1 := by simpa [Call.sources] using hk
      exact hvk
    · exact hL.visits_target hc (by simp [Call.sources])
  by_cases hv : L.Visits r k1
  · rw [moved_of_visits hv, moved_of_visits (hiff.mpr hv), add_sub_cancel_left,
      add_sub_cancel_left]
  · rw [moved_of_not_visits hv, moved_of_not_visits (mt hiff.mp hv), sub_self, sub_self]

end Coordinates

/-! ## Edits -/

/-- A call of `update_point`, for a point by its number. -/
structure Edit (K : Type) where
  point : ℕ
  x : K
  y : K

variable [DecidableEq K]

/-- `update_point(xi, x, y)`, where `xi` is the number of the first variable of the
point. -/
def Editor.edit (e : Editor K) (L : Linkset K) (c : Edit K) (val : ℕ → K) : Option (ℕ → K) :=
  updatePoint e L (2 * c.point + 1) c.x c.y val

def Editor.edits (e : Editor K) (L : Linkset K) (cs : List (Edit K)) (val : ℕ → K) :
    Option (ℕ → K) :=
  cs.foldlM (fun val c => e.edit L c val) val

/-- What a call of `update_point` leaves: the point is where it was put, the path
evaluates to the points, and each control point but that one has moved as far as
the endpoint that it is attached to. -/
structure Updated (path : List (Command K)) (e : Editor K) (c : Edit K) (s t : ℕ → K) :
    Prop where
  point : ∀ q, e.points[c.point]? = some q → valuesAt t q = (c.x, c.y)
  evaluated : e.Evaluated t
  controls : ∀ a ∈ attached 0 0 path, a.2 ≠ c.point →
    ∀ q1 q2, e.points[a.1]? = some q1 → e.points[a.2]? = some q2 →
      valuesAt t q2 - valuesAt s q2 = valuesAt t q1 - valuesAt s q1

/-- Each call does after any others. -/
def Consistent (path : List (Command K)) (e : Editor K) (L : Linkset K) : Prop :=
  ∀ cs c, (∀ c' ∈ cs ++ [c], c'.point < e.points.length) →
    ∃ s t, e.edits L cs e.vals = some s ∧ e.edit L c s = some t ∧ Updated path e c s t

theorem ne_of_nodup_map {f : ℕ × ℕ → ℕ} {qs : List (ℕ × ℕ)} (h : (qs.map f).Nodup) {i j : ℕ}
    {q q' : ℕ × ℕ} (hi : qs[i]? = some q) (hj : qs[j]? = some q') (hij : i ≠ j) :
    f q ≠ f q' := by
  intro heq
  have hlength : i < (qs.map f).length := by
    rw [List.length_map]
    exact (List.getElem?_eq_some_iff.mp hi).1
  refine hij ((List.getElem?_inj hlength h).mp ?_)
  rw [List.getElem?_map, List.getElem?_map, hi, hj, Option.map_some, Option.map_some, heq]

section Edits

variable {path : List (Command K)} {e : Editor K} (he : editor path = .ok e)
  {lab : ℕ → Label} (h : Built e lab) {L : Linkset K} (hL : Orders L e.calls)

include h hL

omit [DecidableEq K] in
/-- The axes are independent. -/
theorem Built.not_visits {q : ℕ × ℕ} (hq : q ∈ e.points) :
    ¬ L.Visits q.1 q.2 ∧ ¬ L.Visits q.2 q.1 := by
  obtain ⟨-, -, hroles, haxes⟩ := h.points q hq
  constructor
  · intro hv
    have hplace := (h.net.visits_point hL hv hroles.2).1
    rw [Prod.ext_iff, haxes.1, haxes.2] at hplace
    exact absurd hplace.2 (by decide)
  · intro hv
    have hplace := (h.net.visits_point hL hv hroles.1).1
    rw [Prod.ext_iff, haxes.1, haxes.2] at hplace
    exact absurd hplace.2 (by decide)

include he

/-- One call. -/
theorem Built.edit {c : Edit K} {s : ℕ → K} (hc : c.point < e.points.length)
    (hs : ∀ c ∈ e.calls, c.Holds s) (hfirst : ControlsFirst L e.calls) :
    ∃ t, e.edit L c s = some t ∧ Updated path e c s t ∧ ∀ c ∈ e.calls, c.Holds t := by
  obtain ⟨q, hq⟩ : ∃ q, e.points[c.point]? = some q := ⟨_, List.getElem?_eq_getElem hc⟩
  have hmem := List.mem_of_getElem? hq
  have hx : e.pointVars[2 * c.point + 1 - 1]? = some q.1 := (getElem?_flatMap hq).1
  have hy : e.pointVars[2 * c.point + 2 - 1]? = some q.2 := (getElem?_flatMap hq).2
  obtain ⟨hfst, hsnd, hroles, haxes⟩ := h.points q hmem
  obtain ⟨u, hu, hux, hupoint, huholds⟩ := h.update hL (x := c.x) hx hfst.1 hroles.1 hs hfirst
  obtain ⟨t, ht, hty, htpoint, htholds⟩ := h.update hL (x := c.y) hy hsnd.1 hroles.2 huholds
    hfirst
  have hmoves : ∀ k1 k2, Call.linkAdd k1 k2 ∈ e.calls → k2 ≠ q.1 → k2 ≠ q.2 →
      t k2 - s k2 = t k1 - s k1 := by
    intro k1 k2 hadd hne1 hne2
    obtain ⟨hrole1, hrole2, -⟩ := h.net.linkAdd_fits hadd
    have hk1 := (h.net.bounds _ hadd k1 (by simp [Call.sources])).1
    have hk2 := (h.net.bounds _ hadd k2 (by simp [Call.target])).1
    have hpoint1 : (lab k1).role ≠ .stored := by simp [hrole1]
    have hpoint2 : (lab k2).role ≠ .stored := by simp [hrole2]
    have hfirst : u k2 - s k2 = u k1 - s k1 := by
      rw [hupoint k1 hk1 hpoint1, hupoint k2 hk2 hpoint2]
      exact h.moved_control hL hadd hne1
    have hsecond : t k2 - u k2 = t k1 - u k1 := by
      rw [htpoint k1 hk1 hpoint1, htpoint k2 hk2 hpoint2]
      exact h.moved_control hL hadd hne2
    rw [← sub_add_sub_cancel (t k2) (u k2), hfirst, hsecond, sub_add_sub_cancel]
  refine ⟨t, ?_, ⟨?_, h.evaluates t htholds, ?_⟩, htholds⟩
  · rw [Editor.edit, updatePoint, hu]
    exact ht
  · intro q' hq'
    obtain rfl := Option.some.inj (hq.symm.trans hq')
    have hkept := htpoint q.1 hfst.1 hroles.1
    rw [moved_of_not_visits (h.not_visits hL hmem).2, hux] at hkept
    exact Prod.ext hkept hty
  · intro a ha hne q1 q2 hq1 hq2
    have hadd1 := (linkAdd_iff he).mpr ⟨a, ha, q1, q2, hq1, hq2, .inl rfl⟩
    have hadd2 := (linkAdd_iff he).mpr ⟨a, ha, q1, q2, hq1, hq2, .inr rfl⟩
    have haxes2 := (h.points q2 (List.mem_of_getElem? hq2)).axes
    refine Prod.ext (hmoves _ _ hadd1 ?_ ?_) (hmoves _ _ hadd2 ?_ ?_)
    · exact ne_of_nodup_map (editor_points he).1 hq2 hq hne
    · intro heq
      rw [heq, haxes.2] at haxes2
      exact absurd haxes2.1 (by decide)
    · intro heq
      rw [heq, haxes.1] at haxes2
      exact absurd haxes2.2 (by decide)
    · exact ne_of_nodup_map (editor_points he).2 hq2 hq hne

/-- All calls. -/
theorem Built.edits {cs : List (Edit K)} {s : ℕ → K} (hcs : ∀ c ∈ cs, c.point < e.points.length)
    (hs : ∀ c ∈ e.calls, c.Holds s) (hfirst : ControlsFirst L e.calls) :
    ∃ t, e.edits L cs s = some t ∧ ∀ c ∈ e.calls, c.Holds t := by
  induction cs generalizing s with
  | nil => exact ⟨s, rfl, hs⟩
  | cons c cs ih =>
      obtain ⟨hc, hrest⟩ := List.forall_mem_cons.mp hcs
      obtain ⟨u, hu, -, huholds⟩ := Built.edit he h hL hc hs hfirst
      obtain ⟨t, ht, htholds⟩ := ih hrest huholds
      refine ⟨t, ?_, htholds⟩
      rw [Editor.edits, List.foldlM_cons, hu]
      exact ht

theorem Built.consistent (hfirst : ControlsFirst L e.calls) : Consistent path e L := by
  intro cs c hcs
  obtain ⟨hcs, hc⟩ := List.forall_mem_append.mp hcs
  obtain ⟨s, hrun, hs⟩ := Built.edits he h hL hcs h.holds hfirst
  obtain ⟨t, ht, hupdated, -⟩ := Built.edit he h hL (hc c List.mem_cons_self) hs hfirst
  exact ⟨s, t, hrun, ht, hupdated⟩

omit he in
/-- The start point of a relative curve is moved, and what is stored of its first
control point is not what it should be. -/
theorem Built.update_stale {xi p p1 c : ℕ} {d : K} {s : ℕ → K}
    (hr : e.pointVars[xi - 1]? = some p1) (hadd : Call.linkAdd p1 p ∈ e.calls)
    (hsub : Call.exprSub c p p1 ∈ e.calls) (hnot : ¬ VisitsFirst L p1 p c) (hd : d ≠ 0) :
    ∃ t, PathEditor.update e L xi (s p1 + d) s = some t ∧ t p = s p + d ∧ t p1 = s p1 + d ∧
      t c = s p - (s p1 + d) ∧ ∀ y, 2 ≤ y → ¬ L.Visits p1 y → t y = s y := by
  have hp1 := (h.net.bounds _ hadd p1 (by simp [Call.sources])).1
  have hp := (h.net.bounds _ hadd p (by simp [Call.target])).1
  obtain ⟨t, hrun, htp1, htp, htc, hkept⟩ := h.net.update_stale hL hadd hsub hnot
    (s := Function.update s delta d) (Function.update_self _ _ _)
  rw [update_delta_of_le hp1] at hrun htp1 htc
  rw [update_delta_of_le hp] at htp htc
  refine ⟨t, ?_, htp, htp1, htc, fun y hy hv => ?_⟩
  · have hne : s p1 + d - s p1 ≠ 0 := by rwa [add_sub_cancel_left]
    rw [h.update_of_ne hL hr hne, add_sub_cancel_left]
    exact hrun
  · rw [hkept y hv, update_delta_of_le hy]

theorem Built.controlsFirst [Nontrivial K] (hconsistent : Consistent path e L) :
    ControlsFirst L e.calls := by
  intro p1 p c hadd hsub
  by_contra hnot
  obtain ⟨d, hd⟩ := exists_ne (0 : K)
  obtain ⟨a, -, q1, q2, hq1, hq2, haxis⟩ := (linkAdd_iff he).mp hadd
  have hmem := List.mem_of_getElem? hq1
  have hlength := (List.getElem?_eq_some_iff.mp hq1).1
  have hx : e.pointVars[2 * a.1 + 1 - 1]? = some q1.1 := (getElem?_flatMap hq1).1
  have hy : e.pointVars[2 * a.1 + 2 - 1]? = some q1.2 := (getElem?_flatMap hq1).2
  obtain ⟨hfst, hsnd, hroles, -⟩ := h.points q1 hmem
  -- one call moves the point along the axis only
  have hwrong : ∀ x y t, e.edit L ⟨a.1, x, y⟩ e.vals = some t → t p = e.vals p + d →
      t p1 = e.vals p1 + d → t c = e.vals p - (e.vals p1 + d) → False := by
    intro x y t hrun htp htp1 htc
    obtain ⟨s, t', hs, ht', hupdated⟩ := hconsistent [] ⟨a.1, x, y⟩ (by simpa using hlength)
    obtain rfl := Option.some.inj hs
    obtain rfl := Option.some.inj (hrun.symm.trans ht')
    have hstored := h.exact t hupdated.evaluated c p p1 hsub
    rw [htc, htp, htp1] at hstored
    exact hd (left_eq_add.mp (sub_left_inj.mp hstored))
  rcases haxis with heq | heq
  · obtain ⟨rfl, rfl⟩ := Prod.mk.inj heq
    obtain ⟨t, hrun, htp, htp1, htc, hkept⟩ := h.update_stale hL (s := e.vals) hx hadd hsub
      hnot hd
    refine hwrong (e.vals q1.1 + d) (e.vals q1.2) t ?_ htp htp1 htc
    rw [Editor.edit, updatePoint, hrun]
    exact update_of_eq hy (hkept q1.2 hsnd.1 (h.not_visits hL hmem).1).symm
  · obtain ⟨rfl, rfl⟩ := Prod.mk.inj heq
    obtain ⟨t, hrun, htp, htp1, htc, -⟩ := h.update_stale hL (s := e.vals) hy hadd hsub
      hnot hd
    refine hwrong (e.vals q1.1) (e.vals q1.2 + d) t ?_ htp htp1 htc
    rw [Editor.edit, updatePoint, update_of_eq hx rfl]
    exact hrun

end Edits

omit [AddCommGroup K] [DecidableEq K] in
theorem visitsFirst_of_mem {L : Linkset K} {x a b : ℕ}
    (h : a ∈ ((L.dependents x).map Prod.fst).takeWhile (· ≠ b)) : VisitsFirst L x a b := by
  intro A dep B hsplit
  rw [hsplit] at h
  clear hsplit
  induction A with
  | nil => simp at h
  | cons e A ih =>
      by_cases he : e.1 = b
      · simp [he] at h
      · rw [List.cons_append, List.map_cons, List.takeWhile_cons_of_pos (by simpa using he)] at h
        rcases List.mem_cons.mp h with rfl | h
        · exact ⟨e, List.mem_cons_self, rfl⟩
        · obtain ⟨e', he', heq⟩ := ih h
          exact ⟨e', List.mem_cons_of_mem e he', heq⟩

/-- Without relative curves it does in any order. -/
theorem consistent_of_not_hasRelCurve {x y : K} {cs : List (Command K)} {e : Editor K}
    (he : editor (.move false x y :: cs) = .ok e)
    (hpath : ¬ HasRelCurve (.move false x y :: cs)) (L : Linkset K)
    (hL : ∀ k, (L.dependents k).Perm (e.linkset.dependents k)) :
    Consistent (.move false x y :: cs) e L := by
  obtain ⟨lab, h⟩ := editor_built he
  exact h.consistent he (h.orders hL) (controlsFirst_of_not_hasRelCurve he hpath L)

instance (e : Editor ℤ) (s : ℕ → ℤ) : Decidable (e.Evaluated s) :=
  inferInstanceAs (Decidable (_ = _))

/-- The dependents of each variable in the other order. -/
def backward {Val : Type} (L : Linkset Val) : Linkset Val :=
  ⟨L.deps.map fun e => (e.1, e.2.reverse)⟩

theorem dependents_backward {Val : Type} (L : Linkset Val) (k : ℕ) :
    (backward L).dependents k = (L.dependents k).reverse := by
  obtain ⟨deps⟩ := L
  rw [Linkset.dependents, Linkset.dependents, backward]
  induction deps with
  | nil => rfl
  | cons e deps ih =>
      rw [List.map_cons, List.lookup_cons, List.lookup_cons]
      cases k == e.1 with
      | true => rfl
      | false => exact ih

def relCurvePath : List (Command ℤ) := [.move false 0 0, .curve true 1 1 2 2 3 3]

def relCurveEditor : Editor ℤ :=
  (({ vals := fun _ => 0 } : Editor ℤ).line .move 0 0).curve true (4, 5) 1 1 2 2 3 3

end LuaAttic.PathEditor
