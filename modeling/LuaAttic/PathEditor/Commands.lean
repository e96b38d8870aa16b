import LuaAttic.PathEditor.Building

/-!
# Commands of an editor

What each command adds.
-/

namespace LuaAttic.PathEditor

open LuaAttic.Lua LuaAttic.Varlinker

variable {K : Type} [AddCommGroup K] {e : Editor K} {lab : ℕ → Label}

/-- Labels of what is stored and of coordinates of points. -/
def stored : Label := ⟨.stored, (0, false)⟩

def endpointAt (place : ℕ) (axis : Bool) : Label := ⟨.endpoint, (place, axis)⟩

/-! ## Lines -/

section Lines

variable {command : Bool → ℕ → ℕ → Command ℕ} (hcommand : command = .move ∨ command = .line)

/-- The labels of the variables of a line. -/
def lineLabels (n : ℕ) : List Label :=
  [stored, stored, endpointAt (n + 2) false, endpointAt (n + 3) true]

include hcommand

theorem adds_line (h : Built e lab) (x y : K) : Adds e (e.line command x y)
    (extend lab e.next (lineLabels e.next))
    [.link (e.next + 2) e.next, .link (e.next + 3) (e.next + 1)]
    (command false e.next (e.next + 1)) [] (e.next + 2, e.next + 3) where
  next := Nat.le_add_right e.next 4
  calls := by simp [Editor.line, Editor.link, Editor.point, Editor.var]
  path := rfl
  points := rfl
  pcp := rfl
  vals k hk := cells_of_lt hk [x, y, x, y]
  block := by
    change Block _ _ _ _ (e.next + 4) _
    have h2 := h.next
    constructor
    · simp [pairs, Call.sources, Call.target]
    · simp [Call.target]
    · simp [Call.Fits, extend_add, extend_self, lineLabels, stored, endpointAt]
    · simp [Call.target]
    · simp [Call.target, Call.sources]
      omega
    · exact fun k hk _ => place_extend_lt (by omega) (by simp [lineLabels, stored, endpointAt]) hk
  isPoint := by
    change ∀ q ∈ _, IsPoint _ (e.next + 4) q
    have h2 := h.next
    simp only [List.mem_singleton, forall_eq]
    constructor
    · simp
    · simp
    · simp [extend_add, lineLabels, endpointAt]
    · simp [extend_add, lineLabels, endpointAt]
  endpoint := by simp [extend_add, lineLabels, endpointAt]
  holds := by
    have hvals : (e.line command x y).vals = cells e.vals e.next [x, y, x, y] := rfl
    simp [Call.Holds, hvals, cells_add, cells_self]
  length s cp := by rcases hcommand with rfl | rfl <;> rfl
  evaluates s cp hcp hs := by
    simp only [List.mem_cons, List.not_mem_nil, or_false, forall_eq_or_imp, forall_eq,
      Call.Holds] at hs
    rcases hcommand with rfl | rfl
    · simp [Command.map, Command.points, origin, valuesAt, hs]
    · simp [Command.map, Command.points, origin, valuesAt, hs]
  exact s cp hcp heq := by simp

theorem adds_relLine (h : Built e lab) {p1 : ℕ × ℕ} (hp1 : e.pcp = some p1) (x y : K) :
    Adds e (e.relLine command p1 x y) (extend lab e.next (lineLabels e.next))
    [.exprSub e.next (e.next + 2) p1.1, .exprSub (e.next + 1) (e.next + 3) p1.2]
    (command true e.next (e.next + 1)) [] (e.next + 2, e.next + 3) where
  next := Nat.le_add_right e.next 4
  calls := by simp [Editor.relLine, Editor.exprSub, Editor.point, Editor.var]
  path := rfl
  points := rfl
  pcp := rfl
  vals k hk := cells_of_lt hk [x, y, e.vals p1.1 + x, e.vals p1.2 + y]
  block := by
    change Block _ _ _ _ (e.next + 4) _
    have h2 := h.next
    obtain ⟨⟨hp11, hp12, -, -⟩, hrole1, hrole2, hplace1, hplace2⟩ := h.isCurrent hp1
    constructor
    · simp [pairs, Call.sources, Call.target]
      omega
    · simp [Call.target]
    · simp [Call.Fits, extend_add, extend_self, extend_of_lt hp11.2, extend_of_lt hp12.2,
        lineLabels, stored, endpointAt, hrole1, hrole2, Prod.ext_iff]
      omega
    · simp [Call.target]
    · simp [Call.target, Call.sources]
      omega
    · exact fun k hk _ => place_extend_lt (by omega) (by simp [lineLabels, stored, endpointAt]) hk
  isPoint := by
    change ∀ q ∈ _, IsPoint _ (e.next + 4) q
    have h2 := h.next
    simp only [List.mem_singleton, forall_eq]
    constructor
    · simp
    · simp
    · simp [extend_add, lineLabels, endpointAt]
    · simp [extend_add, lineLabels, endpointAt]
  endpoint := by simp [extend_add, lineLabels, endpointAt]
  holds := by
    obtain ⟨hp11, hp12, -, -⟩ := (h.isCurrent hp1).toIsPoint
    have hvals : (e.relLine command p1 x y).vals =
        cells e.vals e.next [x, y, e.vals p1.1 + x, e.vals p1.2 + y] := rfl
    simp [Call.Holds, hvals, cells_add, cells_self, cells_of_lt hp11.2, cells_of_lt hp12.2]
  length s cp := by rcases hcommand with rfl | rfl <;> rfl
  evaluates s cp hcp hs := by
    obtain rfl := hcp p1 hp1
    simp only [List.mem_cons, List.not_mem_nil, or_false, forall_eq_or_imp, forall_eq,
      Call.Holds] at hs
    rcases hcommand with rfl | rfl
    · simp [Command.map, Command.points, origin, valuesAt, hs]
    · simp [Command.map, Command.points, origin, valuesAt, hs]
  exact s cp hcp heq := by
    obtain rfl := hcp p1 hp1
    have heq' : s p1.1 + s e.next = s (e.next + 2) ∧
        s p1.2 + s (e.next + 1) = s (e.next + 3) := by
      rcases hcommand with rfl | rfl
      · simpa [Command.map, Command.points, origin, valuesAt] using heq
      · simpa [Command.map, Command.points, origin, valuesAt] using heq
    simp only [List.mem_cons, List.not_mem_nil, or_false, Call.exprSub.injEq]
    rintro c p q (⟨rfl, rfl, rfl⟩ | ⟨rfl, rfl, rfl⟩)
    · exact eq_sub_of_add_eq' heq'.1
    · exact eq_sub_of_add_eq' heq'.2

end Lines

/-! ## Horizontal and vertical lines -/

section Straight

/-- The labels of the variables of a horizontal line. -/
def hlineLabels (n : ℕ) (place : ℕ × Bool) : List Label :=
  [stored, endpointAt (n + 1) false, ⟨.endpoint, place⟩]

/-- The labels of the variables of a vertical line. -/
def vlineLabels (n : ℕ) (place : ℕ × Bool) : List Label :=
  [stored, ⟨.endpoint, place⟩, endpointAt (n + 2) true]

omit [AddCommGroup K] in
theorem hline_vals {p1 : ℕ × ℕ} (hp1 : p1.2 < e.next) (x : K) :
    (e.hline p1 x).vals = cells e.vals e.next [x, x, e.vals p1.2] := by
  change cells e.vals e.next [x, x, Function.update e.vals e.next x p1.2] = _
  rw [Function.update_of_ne hp1.ne]

omit [AddCommGroup K] in
theorem vline_vals {p1 : ℕ × ℕ} (hp1 : p1.1 < e.next) (y : K) :
    (e.vline p1 y).vals = cells e.vals e.next [y, e.vals p1.1, y] := by
  change cells e.vals e.next [y, Function.update e.vals e.next y p1.1, y] = _
  rw [Function.update_of_ne hp1.ne]

theorem relHline_vals {p1 : ℕ × ℕ} (x : K) :
    (e.relHline p1 x).vals = cells e.vals e.next [x, e.vals p1.1 + x, e.vals p1.2] := rfl

theorem relVline_vals {p1 : ℕ × ℕ} (y : K) :
    (e.relVline p1 y).vals = cells e.vals e.next [y, e.vals p1.1, e.vals p1.2 + y] := rfl

theorem adds_hline (h : Built e lab) {p1 : ℕ × ℕ} (hp1 : e.pcp = some p1) (x : K) :
    Adds e (e.hline p1 x) (extend lab e.next (hlineLabels e.next (lab p1.2).place))
    [.link (e.next + 1) e.next,
      .link (e.next + 2) p1.2, .link p1.2 (e.next + 2)]
    (.hline false e.next) [] (e.next + 1, e.next + 2) where
  next := Nat.le_add_right e.next 3
  calls := by simp [Editor.hline, Editor.link, Editor.point, Editor.var]
  path := rfl
  points := rfl
  pcp := rfl
  vals k hk := by
    obtain ⟨hp11, hp12, -, -⟩ := (h.isCurrent hp1).toIsPoint
    rw [hline_vals hp12.2 x]
    exact cells_of_lt hk _
  block := by
    change Block _ _ _ _ (e.next + 3) _
    have h2 := h.next
    obtain ⟨⟨hp11, hp12, -, -⟩, hrole1, hrole2, hplace1, hplace2⟩ := h.isCurrent hp1
    constructor
    · simp [pairs, Call.sources, Call.target]
      omega
    · simp [Call.target, Call.sources, extend_of_lt hp12.2, hrole2]
    · simp [Call.Fits, extend_add, extend_self, extend_of_lt hp12.2,
        hlineLabels, stored, endpointAt, hrole2]
    · simp [Call.target]
      omega
    · simp [Call.target, Call.sources]
      omega
    · refine fun k hk _ => place_extend_lt (by omega) ?_ hk
      simp [hlineLabels, stored, endpointAt]
      omega
  isPoint := by
    change ∀ q ∈ _, IsPoint _ (e.next + 3) q
    have h2 := h.next
    have haxes := (h.isCurrent hp1).axes
    simp only [List.mem_singleton, forall_eq]
    constructor
    · simp
      omega
    · simp
    · simp [extend_add, hlineLabels, endpointAt]
    · simp [extend_add, hlineLabels, endpointAt, haxes]
  endpoint := by simp [extend_add, hlineLabels, endpointAt]
  holds := by
    obtain ⟨hp11, hp12, -, -⟩ := (h.isCurrent hp1).toIsPoint
    rw [hline_vals hp12.2 x]
    simp [Call.Holds, cells_add, cells_self, cells_of_lt hp12.2]
  length s cp := rfl
  evaluates s cp hcp hs := by
    obtain rfl := hcp p1 hp1
    simp only [List.mem_cons, List.not_mem_nil, or_false, forall_eq_or_imp, forall_eq,
      Call.Holds] at hs
    obtain ⟨hlength, hshared, -⟩ := hs
    simp [Command.map, Command.points, origin, valuesAt, hlength, hshared]
  exact s cp hcp heq := by simp

theorem adds_vline (h : Built e lab) {p1 : ℕ × ℕ} (hp1 : e.pcp = some p1) (y : K) :
    Adds e (e.vline p1 y) (extend lab e.next (vlineLabels e.next (lab p1.1).place))
    [.link (e.next + 2) e.next,
      .link (e.next + 1) p1.1, .link p1.1 (e.next + 1)]
    (.vline false e.next) [] (e.next + 1, e.next + 2) where
  next := Nat.le_add_right e.next 3
  calls := by simp [Editor.vline, Editor.link, Editor.point, Editor.var]
  path := rfl
  points := rfl
  pcp := rfl
  vals k hk := by
    obtain ⟨hp11, hp12, -, -⟩ := (h.isCurrent hp1).toIsPoint
    rw [vline_vals hp11.2 y]
    exact cells_of_lt hk _
  block := by
    change Block _ _ _ _ (e.next + 3) _
    have h2 := h.next
    obtain ⟨⟨hp11, hp12, -, -⟩, hrole1, hrole2, hplace1, hplace2⟩ := h.isCurrent hp1
    constructor
    · simp [pairs, Call.sources, Call.target]
      omega
    · simp [Call.target, Call.sources, extend_of_lt hp11.2, hrole1]
    · simp [Call.Fits, extend_add, extend_self, extend_of_lt hp11.2,
        vlineLabels, stored, endpointAt, hrole1]
    · simp [Call.target]
      omega
    · simp [Call.target, Call.sources]
      omega
    · refine fun k hk _ => place_extend_lt (by omega) ?_ hk
      simp [vlineLabels, stored, endpointAt]
      omega
  isPoint := by
    change ∀ q ∈ _, IsPoint _ (e.next + 3) q
    have h2 := h.next
    have haxes := (h.isCurrent hp1).axes
    simp only [List.mem_singleton, forall_eq]
    constructor
    · simp
      omega
    · simp
    · simp [extend_add, vlineLabels, endpointAt]
    · simp [extend_add, vlineLabels, endpointAt, haxes]
  endpoint := by simp [extend_add, vlineLabels, endpointAt]
  holds := by
    obtain ⟨hp11, hp12, -, -⟩ := (h.isCurrent hp1).toIsPoint
    rw [vline_vals hp11.2 y]
    simp [Call.Holds, cells_add, cells_self, cells_of_lt hp11.2]
  length s cp := rfl
  evaluates s cp hcp hs := by
    obtain rfl := hcp p1 hp1
    simp only [List.mem_cons, List.not_mem_nil, or_false, forall_eq_or_imp, forall_eq,
      Call.Holds] at hs
    obtain ⟨hlength, hshared, -⟩ := hs
    simp [Command.map, Command.points, origin, valuesAt, hlength, hshared]
  exact s cp hcp heq := by simp

theorem adds_relHline (h : Built e lab) {p1 : ℕ × ℕ} (hp1 : e.pcp = some p1) (x : K) :
    Adds e (e.relHline p1 x) (extend lab e.next (hlineLabels e.next (lab p1.2).place))
    [.exprSub e.next (e.next + 1) p1.1,
      .link (e.next + 2) p1.2, .link p1.2 (e.next + 2)]
    (.hline true e.next) [] (e.next + 1, e.next + 2) where
  next := Nat.le_add_right e.next 3
  calls := by simp [Editor.relHline, Editor.link, Editor.exprSub, Editor.point, Editor.var]
  path := rfl
  points := rfl
  pcp := rfl
  vals k hk := by
    obtain ⟨hp11, hp12, -, -⟩ := (h.isCurrent hp1).toIsPoint
    rw [relHline_vals x]
    exact cells_of_lt hk _
  block := by
    change Block _ _ _ _ (e.next + 3) _
    have h2 := h.next
    obtain ⟨⟨hp11, hp12, -, -⟩, hrole1, hrole2, hplace1, hplace2⟩ := h.isCurrent hp1
    constructor
    · simp [pairs, Call.sources, Call.target]
      omega
    · simp [Call.target, Call.sources, extend_of_lt hp12.2, hrole2]
    · simp [Call.Fits, extend_add, extend_self, extend_of_lt hp11.2, extend_of_lt hp12.2,
        hlineLabels, stored, endpointAt, hrole1, hrole2, Prod.ext_iff]
      omega
    · simp [Call.target]
      omega
    · simp [Call.target, Call.sources]
      omega
    · refine fun k hk _ => place_extend_lt (by omega) ?_ hk
      simp [hlineLabels, stored, endpointAt]
      omega
  isPoint := by
    change ∀ q ∈ _, IsPoint _ (e.next + 3) q
    have h2 := h.next
    have haxes := (h.isCurrent hp1).axes
    simp only [List.mem_singleton, forall_eq]
    constructor
    · simp
      omega
    · simp
    · simp [extend_add, hlineLabels, endpointAt]
    · simp [extend_add, hlineLabels, endpointAt, haxes]
  endpoint := by simp [extend_add, hlineLabels, endpointAt]
  holds := by
    obtain ⟨hp11, hp12, -, -⟩ := (h.isCurrent hp1).toIsPoint
    rw [relHline_vals x]
    simp [Call.Holds, cells_add, cells_self, cells_of_lt hp11.2, cells_of_lt hp12.2]
  length s cp := rfl
  evaluates s cp hcp hs := by
    obtain rfl := hcp p1 hp1
    simp only [List.mem_cons, List.not_mem_nil, or_false, forall_eq_or_imp, forall_eq,
      Call.Holds] at hs
    obtain ⟨hlength, hshared, -⟩ := hs
    simp [Command.map, Command.points, origin, valuesAt, hlength, hshared]
  exact s cp hcp heq := by
    obtain rfl := hcp p1 hp1
    have heq' : s p1.1 + s e.next = s (e.next + 1) ∧ s p1.2 = s (e.next + 2) := by
      simpa [Command.map, Command.points, origin, valuesAt] using heq
    simp only [List.mem_cons, List.not_mem_nil, or_false, Call.exprSub.injEq, reduceCtorEq]
    rintro c p q ⟨rfl, rfl, rfl⟩
    exact eq_sub_of_add_eq' heq'.1

theorem adds_relVline (h : Built e lab) {p1 : ℕ × ℕ} (hp1 : e.pcp = some p1) (y : K) :
    Adds e (e.relVline p1 y) (extend lab e.next (vlineLabels e.next (lab p1.1).place))
    [.exprSub e.next (e.next + 2) p1.2,
      .link (e.next + 1) p1.1, .link p1.1 (e.next + 1)]
    (.vline true e.next) [] (e.next + 1, e.next + 2) where
  next := Nat.le_add_right e.next 3
  calls := by simp [Editor.relVline, Editor.link, Editor.exprSub, Editor.point, Editor.var]
  path := rfl
  points := rfl
  pcp := rfl
  vals k hk := by
    obtain ⟨hp11, hp12, -, -⟩ := (h.isCurrent hp1).toIsPoint
    rw [relVline_vals y]
    exact cells_of_lt hk _
  block := by
    change Block _ _ _ _ (e.next + 3) _
    have h2 := h.next
    obtain ⟨⟨hp11, hp12, -, -⟩, hrole1, hrole2, hplace1, hplace2⟩ := h.isCurrent hp1
    constructor
    · simp [pairs, Call.sources, Call.target]
      omega
    · simp [Call.target, Call.sources, extend_of_lt hp11.2, hrole1]
    · simp [Call.Fits, extend_add, extend_self, extend_of_lt hp11.2, extend_of_lt hp12.2,
        vlineLabels, stored, endpointAt, hrole1, hrole2, Prod.ext_iff]
      omega
    · simp [Call.target]
      omega
    · simp [Call.target, Call.sources]
      omega
    · refine fun k hk _ => place_extend_lt (by omega) ?_ hk
      simp [vlineLabels, stored, endpointAt]
      omega
  isPoint := by
    change ∀ q ∈ _, IsPoint _ (e.next + 3) q
    have h2 := h.next
    have haxes := (h.isCurrent hp1).axes
    simp only [List.mem_singleton, forall_eq]
    constructor
    · simp
      omega
    · simp
    · simp [extend_add, vlineLabels, endpointAt]
    · simp [extend_add, vlineLabels, endpointAt, haxes]
  endpoint := by simp [extend_add, vlineLabels, endpointAt]
  holds := by
    obtain ⟨hp11, hp12, -, -⟩ := (h.isCurrent hp1).toIsPoint
    rw [relVline_vals y]
    simp [Call.Holds, cells_add, cells_self, cells_of_lt hp11.2, cells_of_lt hp12.2]
  length s cp := rfl
  evaluates s cp hcp hs := by
    obtain rfl := hcp p1 hp1
    simp only [List.mem_cons, List.not_mem_nil, or_false, forall_eq_or_imp, forall_eq,
      Call.Holds] at hs
    obtain ⟨hlength, hshared, -⟩ := hs
    simp [Command.map, Command.points, origin, valuesAt, hlength, hshared]
  exact s cp hcp heq := by
    obtain rfl := hcp p1 hp1
    have heq' : s p1.1 = s (e.next + 1) ∧ s p1.2 + s e.next = s (e.next + 2) := by
      simpa [Command.map, Command.points, origin, valuesAt] using heq
    simp only [List.mem_cons, List.not_mem_nil, or_false, Call.exprSub.injEq, reduceCtorEq]
    rintro c p q ⟨rfl, rfl, rfl⟩
    exact eq_sub_of_add_eq' heq'.2

end Straight

/-! ## Curves -/

section Curves

/-- Calls with targets of their own link different pairs. -/
theorem pairs_nodup {cs : List Call} (ht : (cs.map Call.target).Nodup)
    (hsources : ∀ c ∈ cs, c.sources.Nodup) : (pairs cs).Nodup := by
  refine List.nodup_flatMap.mpr ⟨fun c hc => ?_, ?_⟩
  · exact (hsources c hc).map fun _ _ heq => (Prod.mk.inj heq).1
  · refine (List.pairwise_map.mp ht).imp fun {c c'} hne => ?_
    intro q hq hq'
    obtain ⟨x, -, rfl⟩ := List.mem_map.mp hq
    obtain ⟨x', -, heq⟩ := List.mem_map.mp hq'
    exact hne (Prod.mk.inj heq).2.symm

theorem pairwise_targets {cs : List Call} (ht : (cs.map Call.target).Nodup)
    (P : Call → Prop) : cs.Pairwise fun c c' => c.target = c'.target → P c :=
  (List.pairwise_map.mp ht).imp fun hne heq => absurd heq hne

/-- A control line. -/
def cplineCalls (n : ℕ) (p1 p2 : ℕ × ℕ) : List Call :=
  [.link p1.1 n, .link p1.2 (n + 1), .link p2.1 (n + 2), .link p2.2 (n + 3)]

def cplineLabels : List Label := [stored, stored, stored, stored]

omit [AddCommGroup K] in
theorem cpline_calls (p1 p2 : ℕ × ℕ) :
    (e.cpline p1 p2).calls = e.calls ++ cplineCalls e.next p1 p2 := by
  simp [Editor.cpline, Editor.link, Editor.var, cplineCalls]

omit [AddCommGroup K] in
theorem cpline_vals {p1 p2 : ℕ × ℕ} (hp1 : p1.2 < e.next) (hp2 : p2.1 < e.next)
    (hp2' : p2.2 < e.next) : (e.cpline p1 p2).vals =
      cells e.vals e.next [e.vals p1.1, e.vals p1.2, e.vals p2.1, e.vals p2.2] := by
  have hne : ∀ k < e.next, ∀ i, k ≠ e.next + i := fun k hk i =>
    (hk.trans_le (Nat.le_add_right e.next i)).ne
  simp [Editor.cpline, Editor.link, Editor.var, cells, Nat.add_assoc,
    Function.update_of_ne hp1.ne, Function.update_of_ne hp2.ne, Function.update_of_ne hp2'.ne,
    Function.update_of_ne (hne _ hp2 1), Function.update_of_ne (hne _ hp2' 1),
    Function.update_of_ne (hne _ hp2' 2)]

theorem Built.cpline (h : Built e lab) {p1 p2 : ℕ × ℕ} (hp1 : p1 ∈ e.points)
    (hp2 : p2 ∈ e.points) : Built (e.cpline p1 p2) (extend lab e.next cplineLabels) := by
  have h2 := h.next
  obtain ⟨hp11, hp12, hroles1, -⟩ := h.points p1 hp1
  obtain ⟨hp21, hp22, hroles2, -⟩ := h.points p2 hp2
  have hvals : (e.cpline p1 p2).vals = _ := cpline_vals hp12.2 hp21.2 hp22.2
  have hcalls : (e.cpline p1 p2).calls = _ := cpline_calls p1 p2
  have hlab : ∀ k < e.next, extend lab e.next cplineLabels k = lab k :=
    fun k hk => extend_of_lt hk _
  have htargets : ((cplineCalls e.next p1 p2).map Call.target).Nodup := by
    simp [cplineCalls, Call.target]
  have hblock : Block e.calls (cplineCalls e.next p1 p2) (extend lab e.next cplineLabels)
      e.next (e.next + 4) (HasRelCurve e.path) := by
    constructor
    · exact pairs_nodup htargets (by simp [cplineCalls, Call.sources])
    · simp [cplineCalls, Call.target]
    · simp [cplineCalls, Call.Fits, extend_add, extend_self, extend_of_lt hp11.2,
        extend_of_lt hp12.2, extend_of_lt hp21.2, extend_of_lt hp22.2, cplineLabels, stored,
        hroles1, hroles2]
    · exact pairwise_targets htargets _
    · simp [cplineCalls, Call.target, Call.sources]
      omega
    · exact fun k hk _ => place_extend_lt (by omega) (by simp [cplineLabels, stored]) hk
  constructor
  · rw [hcalls]
    exact h.net.extend (Nat.le_add_right e.next 4) hlab id hblock
  · exact h2.trans (Nat.le_add_right e.next 4)
  · intro q hq
    exact (h.points q hq).extend (Nat.le_add_right e.next 4) hlab
  · intro q hq
    obtain ⟨hmem, hrole1, hrole2⟩ := h.pcp q hq
    have hbounds := h.points q hmem
    rw [hlab _ hbounds.fst.2, hlab _ hbounds.snd.2]
    exact ⟨hmem, hrole1, hrole2⟩
  · rw [hcalls, hvals]
    refine List.forall_mem_append.mpr ⟨fun c hc => ?_, ?_⟩
    · exact (h.holds c hc).congr fun k hk => cells_of_lt (h.net.bounds c hc k hk).2 _
    · simp [cplineCalls, Call.Holds, cells_add, cells_self, cells_of_lt hp11.2,
        cells_of_lt hp12.2, cells_of_lt hp21.2, cells_of_lt hp22.2]
  · rw [hcalls]
    exact fun s hs => h.evaluates s (List.forall_mem_append.mp hs).1
  · rw [hcalls]
    intro s hs c p p1 hc
    refine h.exact s hs c p p1 ((List.mem_append.mp hc).resolve_right ?_)
    simp [cplineCalls]
  · exact h.current

variable (rel : Bool) (p1 : ℕ × ℕ) (x2 y2 x3 y3 x4 y4 : K)

/-- The calls of a curve but for its control lines. -/
def curveCalls (n : ℕ) : List Call :=
  (if rel then
    [.exprSub n (n + 8) p1.1, .exprSub (n + 1) (n + 9) p1.2, .exprSub (n + 2) (n + 10) p1.1,
      .exprSub (n + 3) (n + 11) p1.2, .exprSub (n + 4) (n + 6) p1.1,
      .exprSub (n + 5) (n + 7) p1.2]
  else
    [.link (n + 8) n, .link (n + 9) (n + 1), .link (n + 10) (n + 2), .link (n + 11) (n + 3),
      .link (n + 6) (n + 4), .link (n + 7) (n + 5)]) ++
  [.linkAdd p1.1 (n + 8), .linkAdd p1.2 (n + 9), .linkAdd (n + 6) (n + 10),
    .linkAdd (n + 7) (n + 11)]

def curveLabels (n : ℕ) (place1 place2 : ℕ × Bool) : List Label :=
  [stored, stored, stored, stored, stored, stored, endpointAt (n + 6) false,
    endpointAt (n + 7) true, ⟨.control, place1⟩, ⟨.control, place2⟩,
    ⟨.control, (n + 6, false)⟩, ⟨.control, (n + 7, true)⟩]

/-- An editor with a curve but for its control lines. -/
def Editor.curveLinks (e : Editor K) : Editor K where
  next := e.next + 12
  vals :=
    let o := origin rel (e.vals p1.1, e.vals p1.2)
    cells e.vals e.next
      [x2, y2, x3, y3, x4, y4, o.1 + x4, o.2 + y4, o.1 + x2, o.2 + y2, o.1 + x3, o.2 + y3]
  calls := e.calls ++ curveCalls rel p1 e.next
  path := e.path ++
    [.curve rel e.next (e.next + 1) (e.next + 2) (e.next + 3) (e.next + 4) (e.next + 5)]
  points := e.points ++
    [(e.next + 6, e.next + 7), (e.next + 8, e.next + 9), (e.next + 10, e.next + 11)]
  pcp := some (e.next + 6, e.next + 7)

theorem curve_eq : e.curve rel p1 x2 y2 x3 y3 x4 y4 =
    ((e.curveLinks rel p1 x2 y2 x3 y3 x4 y4).cpline p1 (e.next + 8, e.next + 9)).cpline
      (e.next + 10, e.next + 11) (e.next + 6, e.next + 7) := by
  cases rel with
  | false =>
      simp [Editor.curve, Editor.curveLinks, Editor.point, Editor.var, Editor.link,
        Editor.linkAdd, Editor.cpline, curveCalls, cells]
  | true =>
      simp [Editor.curve, Editor.curveLinks, Editor.point, Editor.var, Editor.link,
        Editor.linkAdd, Editor.exprSub, Editor.cpline, curveCalls, cells]

theorem curveCalls_targets (n : ℕ) : ((curveCalls rel p1 n).map Call.target).Nodup := by
  have htargets : (curveCalls rel p1 n).map Call.target =
      [0, 1, 2, 3, 4, 5, 8, 9, 10, 11].map (n + ·) := by
    cases rel with
    | false => rfl
    | true => rfl
  rw [htargets]
  exact List.Nodup.map (add_right_injective n) (by decide)

theorem adds_curve (h : Built e lab) (hp1 : e.pcp = some p1) :
    Adds e (e.curveLinks rel p1 x2 y2 x3 y3 x4 y4)
      (extend lab e.next (curveLabels e.next (lab p1.1).place (lab p1.2).place))
      (curveCalls rel p1 e.next)
      (.curve rel e.next (e.next + 1) (e.next + 2) (e.next + 3) (e.next + 4) (e.next + 5))
      [(e.next + 8, e.next + 9), (e.next + 10, e.next + 11)] (e.next + 6, e.next + 7) where
  next := Nat.le_add_right e.next 12
  calls := rfl
  path := rfl
  points := rfl
  pcp := rfl
  vals k hk := cells_of_lt hk _
  block := by
    change Block _ _ _ _ (e.next + 12) _
    have h2 := h.next
    obtain ⟨⟨hp11, hp12, -, -⟩, hrole1, hrole2, hplace1, hplace2⟩ := h.isCurrent hp1
    constructor
    · refine pairs_nodup (curveCalls_targets rel p1 e.next) ?_
      cases rel with
      | false => simp [curveCalls, Call.sources]
      | true =>
          simp [curveCalls, Call.sources]
          omega
    · cases rel with
      | false => simp [curveCalls, Call.target]
      | true => simp [curveCalls, Call.target]
    · cases rel with
      | false =>
          simp [curveCalls, Call.Fits, extend_add, extend_self, extend_of_lt hp11.2,
            extend_of_lt hp12.2, curveLabels, stored, endpointAt, hrole1, hrole2]
      | true =>
          have hcurve : HasRelCurve (e.curveLinks true p1 x2 y2 x3 y3 x4 y4).path :=
            ⟨_, _, _, _, _, _, List.mem_append_right _ List.mem_cons_self⟩
          simp [curveCalls, Call.Fits, extend_add, extend_self, extend_of_lt hp11.2,
            extend_of_lt hp12.2, curveLabels, stored, endpointAt, hrole1, hrole2, hcurve,
            Prod.ext_iff]
          omega
    · exact pairwise_targets (curveCalls_targets rel p1 e.next) _
    · cases rel with
      | false =>
          simp [curveCalls, Call.target, Call.sources]
          omega
      | true =>
          simp [curveCalls, Call.target, Call.sources]
          omega
    · refine fun k hk _ => place_extend_lt (by omega) ?_ hk
      simp [curveLabels, stored, endpointAt]
      omega
  isPoint := by
    change ∀ q ∈ _, IsPoint _ (e.next + 12) q
    have h2 := h.next
    have haxes := (h.isCurrent hp1).axes
    simp only [List.mem_cons, List.not_mem_nil, or_false, forall_eq_or_imp, forall_eq]
    refine ⟨?_, ?_, ?_⟩
    · constructor <;> simp [extend_add, curveLabels, endpointAt]
    · constructor <;> simp [extend_add, curveLabels, endpointAt, haxes]
    · constructor <;> simp [extend_add, curveLabels, endpointAt]
  endpoint := by simp [extend_add, curveLabels, endpointAt]
  holds := by
    obtain ⟨hp11, hp12, -, -⟩ := (h.isCurrent hp1).toIsPoint
    cases rel with
    | false =>
        simp [curveCalls, Editor.curveLinks, Call.Holds, cells_add, cells_self, origin]
    | true =>
        simp [curveCalls, Editor.curveLinks, Call.Holds, cells_add, cells_self, origin,
          cells_of_lt hp11.2, cells_of_lt hp12.2]
  length s cp := rfl
  evaluates s cp hcp hs := by
    obtain rfl := hcp p1 hp1
    cases rel with
    | false =>
        simp [curveCalls, Call.Holds] at hs
        simp [Command.map, Command.points, origin, valuesAt, hs]
    | true =>
        simp [curveCalls, Call.Holds] at hs
        simp [Command.map, Command.points, origin, valuesAt, hs]
  exact s cp hcp heq := by
    obtain rfl := hcp p1 hp1
    cases rel with
    | false => simp [curveCalls]
    | true =>
        simp [Command.map, Command.points, origin, valuesAt] at heq
        simp [curveCalls]
        grind

end Curves

end LuaAttic.PathEditor
