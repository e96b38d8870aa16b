import LuaAttic.Layerlib.Solvers

/-!
# When both axes of a layout are solved

Laying out a flex or a grid layer ends with an assertion that both axes were
solved.  It fails for a flex layer whose items flow along the y-axis and are
wrapped: its solver has the function for the x-axis in both places, so it only
ever asks for the widths of columns, which wait for the heights to be known.
Such a layer can be laid out inside another flex or grid layer, which solves
its own axes first.
-/

namespace LuaAttic.Layerlib

/-! ## Loops that may fail -/

theorem foldlM_isSome_iff {α β : Type*} {f : β → α → Option β} {P : α → Prop}
    {l : List α} (h : ∀ a ∈ l, ∀ b, (f b a).isSome ↔ P a) (b : β) :
    (l.foldlM f b).isSome ↔ ∀ a ∈ l, P a := by
  induction l generalizing b with
  | nil => simp
  | cons a l ih =>
      have hhead := h a List.mem_cons_self b
      have htail := ih fun a ha => h a (List.mem_cons_of_mem _ ha)
      rw [List.foldlM_cons, List.forall_mem_cons, ← hhead]
      cases hb : f b a with
      | none => simp
      | some b' => simpa using htail b'

theorem forVisible_isSome_iff {children : List Child}
    {f : Child → Geometry → Option Geometry} {P : Child → Prop}
    (h : ∀ c ∈ children, c.layer.visible → ∀ g, (f c g).isSome ↔ P c)
    (g : Geometry) :
    (forVisible children f g).isSome ↔
      ∀ c ∈ children, c.layer.visible → P c := by
  rw [forVisible, foldlM_isSome_iff (P := P)]
  · simp only [List.mem_filter, and_imp]
  · intro c hc g
    obtain ⟨hmem, hvisible⟩ := List.mem_filter.mp hc
    exact h c hmem hvisible g

theorem forVisible_isSome {children : List Child}
    {f : Child → Geometry → Option Geometry}
    (h : ∀ c ∈ children, c.layer.visible → ∀ g, (f c g).isSome)
    (g : Geometry) : (forVisible children f g).isSome := by
  rw [forVisible_isSome_iff (P := fun _ => True) (by simpa using h)]
  simp

/-! ## Solving both axes -/

/-- What the functions of a solver do: asked before the other axis is solved
they answer with `first`, and afterwards they solve the axis if `below`. -/
structure AxisSolver.Answers (s : AxisSolver) (first : Bool) (below : Prop) :
    Prop where
  min_first : ∀ ax g, (s.syncMin ax false g).isSome
  min_second : below → ∀ ax g, (s.syncMin ax true g).isSome
  sync_first : ∀ ax g, ∃ g', s.syncLayout ax false g = some (g', first)
  sync_second : ∀ ax g, (s.syncLayout ax true g).isSome ↔ below
  solved : ∀ ax g r, s.syncLayout ax true g = some r → r.2 = true

section Phases

variable {self : Layer} {s : AxisSolver} {below : Prop}

variable (self) in
theorem syncPhases_first {first : Bool} (h : s.Answers first below) (n : ℕ)
    (ax : Axis) (g : Geometry) :
    ∃ g', syncPhases self s (n + 1) ax false g =
      syncPhases self s n ax.other first g' := by
  obtain ⟨⟨g1, minSize⟩, hmin⟩ := Option.isSome_iff_exists.mp (h.min_first ax g)
  obtain ⟨g2, hsync⟩ := h.sync_first ax (g1.setSize self.id ax minSize)
  exact ⟨g2, by simp [syncPhases, hmin, hsync]⟩

theorem syncPhases_second (h : s.Answers true below) (n : ℕ) (ax : Axis)
    (g : Geometry) : (syncPhases self s (n + 1) ax true g).isSome ↔ below := by
  rw [syncPhases]
  cases hmin : s.syncMin ax true g with
  | none =>
      refine iff_of_false (by simp) fun hbelow => ?_
      have := h.min_second hbelow ax g
      simp [hmin] at this
  | some r =>
      have hsync := h.sync_second ax (r.1.setSize self.id ax r.2)
      have hsolved := h.solved ax (r.1.setSize self.id ax r.2)
      cases hr : s.syncLayout ax true (r.1.setSize self.id ax r.2) with
      | none => simpa [hr] using hsync
      | some r' =>
          have htrue := hsolved r' hr
          simpa [hr, htrue] using hsync

/-- Both axes are solved if the first one is at once, and the layers below can
be laid out. -/
theorem syncLayoutSeparateAxes_isSome_iff {first : Bool}
    (h : s.Answers first below) (hvisible : self.visible) (g : Geometry) :
    (syncLayoutSeparateAxes self s g).isSome ↔ first = true ∧ below := by
  rw [syncLayoutSeparateAxes, if_pos hvisible]
  obtain ⟨g1, h1⟩ := syncPhases_first self h 2 .x g
  rw [h1]
  cases first with
  | true =>
      rw [syncPhases_second h]
      simp
  | false =>
      obtain ⟨g2, h2⟩ := syncPhases_first self h 1 .y g1
      obtain ⟨g3, h3⟩ := syncPhases_first self h 0 .x g2
      rw [Axis.other, h2, Axis.other, h3]
      simp [syncPhases]

end Phases

/-! ## What each solver answers -/

/-- A flex layout whose items flow along the y-axis and are wrapped. -/
def Layout.wrapsColumn : Layout → Bool
  | .flex f => decide (f.flow = .y) && f.wrap
  | _ => false

section Solvers

variable {tr : AlignEnum} {columns : GridColumns} {self : Layer}
  {children : List Child}

theorem nullSync_isSome_iff {own : Child → Prop} (hvisible : self.visible)
    (h : ∀ c ∈ children, ∀ g, (c.solver.sync g).isSome ↔ own c) (g : Geometry) :
    (nullSync self children g).isSome ↔ ∀ c ∈ children, own c := by
  rw [nullSync, if_pos hvisible]
  exact foldlM_isSome_iff h _

theorem nullLayout_answers {own : Child → Prop} (hvisible : self.visible)
    (h : ∀ c ∈ children, ∀ g, (c.solver.sync g).isSome ↔ own c) :
    (nullLayout self children).Answers true (∀ c ∈ children, own c) where
  min_first ax g := by cases ax <;> rfl
  min_second _ ax g := by cases ax <;> rfl
  sync_first ax g := ⟨g, by cases ax <;> rfl⟩
  sync_second ax g := by
    have hsync : (nullSyncX self children true g).isSome ↔
        ∀ c ∈ children, own c := by
      rw [← nullSync_isSome_iff hvisible h g, nullSyncX]
      cases nullSync self children g <;> simp
    cases ax <;> exact hsync
  solved ax g r hr := by
    have hr : nullSyncX self children true g = some r := by cases ax <;> exact hr
    simp only [nullSyncX, if_true, Option.bind_eq_bind, Option.bind_eq_some_iff] at hr
    obtain ⟨g', -, hg'⟩ := hr
    cases hg'
    rfl

/-- The children of a layer that is laid out one axis after the other. -/
def ChildrenAnswer (children : List Child) (below : Child → Prop) : Prop :=
  ∀ c ∈ children, c.layer.visible →
    ∃ first, c.solver.Answers first (below c)

section Children

variable {below : Child → Prop}

theorem forVisible_syncMin_first (h : ChildrenAnswer children below) (ax : Axis)
    (g : Geometry) :
    (forVisible children
      (fun c g => (c.solver.syncMin ax false g).map Prod.fst) g).isSome := by
  refine forVisible_isSome (fun c hc hv g => ?_) g
  obtain ⟨first, hans⟩ := h c hc hv
  simpa using hans.min_first ax g

theorem forVisible_syncMin_second (h : ChildrenAnswer children below)
    (hbelow : ∀ c ∈ children, c.layer.visible → below c) (ax : Axis)
    (g : Geometry) :
    (forVisible children
      (fun c g => (c.solver.syncMin ax true g).map Prod.fst) g).isSome := by
  refine forVisible_isSome (fun c hc hv g => ?_) g
  obtain ⟨first, hans⟩ := h c hc hv
  simpa using hans.min_second (hbelow c hc hv) ax g

theorem forVisible_syncX_first (h : ChildrenAnswer children below) (g : Geometry) :
    (forVisible children
      (fun c g => (c.solver.syncX false g).map Prod.fst) g).isSome := by
  refine forVisible_isSome (fun c hc hv g => ?_) g
  obtain ⟨first, hans⟩ := h c hc hv
  obtain ⟨g', hg'⟩ := hans.sync_first .x g
  rw [AxisSolver.syncLayout] at hg'
  simp [hg']

theorem forVisible_syncX_second_iff (h : ChildrenAnswer children below)
    (g : Geometry) :
    (forVisible children
      (fun c g => (c.solver.syncX true g).map Prod.fst) g).isSome ↔
      ∀ c ∈ children, c.layer.visible → below c := by
  refine forVisible_isSome_iff (fun c hc hv g => ?_) g
  obtain ⟨first, hans⟩ := h c hc hv
  have hsecond := hans.sync_second .x g
  rw [AxisSolver.syncLayout] at hsecond
  simpa using hsecond

end Children

/-! ### Grid and flex layouts -/

section Axes

variable {below : Child → Prop}

theorem gridAxes_answers (h : ChildrenAnswer children below) :
    (gridAxes columns self children).Answers true
      (∀ c ∈ children, c.layer.visible → below c) := by
  have hmin (ax : Axis) (b : Bool) (g : Geometry) :
      ((gridAxes columns self children).syncMin ax b g).isSome ↔
        (forVisible children
          (fun c g => (c.solver.syncMin ax b g).map Prod.fst) g).isSome := by
    cases ax <;>
      simp only [AxisSolver.syncMin, gridAxes, gridSyncMin] <;>
      generalize forVisible children _ g = r <;> cases r <;> simp
  have hsync (ax : Axis) : (gridAxes columns self children).syncLayout ax =
      gridSyncX columns self children := by cases ax <;> rfl
  constructor
  · intro ax g
    exact (hmin ax false g).mpr (forVisible_syncMin_first h ax g)
  · intro hbelow ax g
    exact (hmin ax true g).mpr (forVisible_syncMin_second h hbelow ax g)
  · intro ax g
    obtain ⟨g', hg'⟩ := Option.isSome_iff_exists.mp
      (forVisible_syncX_first h (columns.place self (children.map Child.layer) .x g))
    exact ⟨g', by simp [hsync, gridSyncX, hg']⟩
  · intro ax g
    rw [hsync, gridSyncX,
      ← forVisible_syncX_second_iff h
        (columns.place self (children.map Child.layer) .x g)]
    generalize forVisible children _ _ = r
    cases r <;> simp
  · intro ax g r hr
    rw [hsync, gridSyncX, Option.bind_eq_bind, Option.bind_eq_some_iff] at hr
    obtain ⟨g', -, hg'⟩ := hr
    cases hg'
    rfl

variable (tr self children) in
/-- `flex_sync_x` goes on to the children unless it waits for the other axis. -/
theorem flexSyncX_eq (flex : FlexLayout) (b : Bool) (g : Geometry) :
    ∃ g', flexSyncX tr self flex children b g =
      if b || !(Layout.flex flex).wrapsColumn then
        (forVisible children
          (fun c g => (c.solver.syncX b g).map Prod.fst) g').map (·, true)
      else some (g', false) := by
  cases hflow : flex.flow with
  | x =>
      refine ⟨g, ?_⟩
      simp [flexSyncX, hflow, FlexLayer.flexSyncX, Layout.wrapsColumn,
        Option.map_eq_bind]
  | y =>
      have hsnd := FlexLayer.flexSyncY_snd tr (flexLayer self flex children) .y g b
      have hwraps : (b || !(Layout.flex flex).wrapsColumn) =
          ((flexLayer self flex children).flexSyncY tr .y g b).2 := by
        rw [hsnd]
        simp [Layout.wrapsColumn, hflow, flexLayer]
      refine ⟨((flexLayer self flex children).flexSyncY tr .y g b).1, ?_⟩
      rw [hwraps]
      simp only [flexSyncX, hflow]
      split_ifs with hsynced <;>
        simp [hsynced, Option.map_eq_bind]

theorem flexSyncMinW_isSome_iff (flex : FlexLayout) (b : Bool) (g : Geometry) :
    (flexSyncMinW self flex children b g).isSome ↔
      (forVisible children
        (fun c g => (c.solver.syncMin .x b g).map Prod.fst) g).isSome := by
  simp only [flexSyncMinW, AxisSolver.syncMin]
  generalize forVisible children _ g = r
  cases r <;> simp

theorem isSome_bind_pure {α β : Type} {x : Option α} {f : α → β} (h : x.isSome) :
    (x >>= fun a => pure (f a)).isSome := by
  obtain ⟨a, rfl⟩ := Option.isSome_iff_exists.mp h
  rfl

theorem flexSyncMinH_isSome {flex : FlexLayout} {b : Bool}
    (h : ∀ c ∈ children, c.layer.visible → ∀ g,
      (c.solver.syncMinH b g).isSome ∧ (c.solver.syncY b g).isSome) (g : Geometry) :
    (flexSyncMinH tr self flex children b g).isSome := by
  rw [flexSyncMinH]
  refine isSome_bind_pure (forVisible_isSome (fun c hc hv g => ?_) g)
  obtain ⟨r, hr⟩ := Option.isSome_iff_exists.mp (h c hc hv g).1
  simp only [hr]
  split_ifs
  · obtain ⟨r', hr'⟩ := Option.isSome_iff_exists.mp
      (h c hc hv (r.1.setSize c.layer.id .y (snapPos r.2 (self.side .y).snap))).2
    simp [hr']
  · rfl

theorem flexAxes_answers (flex : FlexLayout) (h : ChildrenAnswer children below) :
    (flexAxes tr self flex children).Answers (!(Layout.flex flex).wrapsColumn)
      (∀ c ∈ children, c.layer.visible → below c) := by
  have hsync (ax : Axis) : (flexAxes tr self flex children).syncLayout ax =
      flexSyncX tr self flex children := by cases ax <;> rfl
  constructor
  · intro ax g
    cases ax with
    | x =>
        exact (flexSyncMinW_isSome_iff flex false g).mpr
          (forVisible_syncMin_first h .x g)
    | y =>
        refine flexSyncMinH_isSome (fun c hc hv g => ?_) g
        obtain ⟨first, hans⟩ := h c hc hv
        obtain ⟨g', hg'⟩ := hans.sync_first .y g
        exact ⟨hans.min_first .y g, Option.isSome_of_eq_some hg'⟩
  · intro hbelow ax g
    cases ax with
    | x =>
        exact (flexSyncMinW_isSome_iff flex true g).mpr
          (forVisible_syncMin_second h hbelow .x g)
    | y =>
        refine flexSyncMinH_isSome (fun c hc hv g => ?_) g
        obtain ⟨first, hans⟩ := h c hc hv
        exact ⟨hans.min_second (hbelow c hc hv) .y g,
          (hans.sync_second .y g).mpr (hbelow c hc hv)⟩
  · intro ax g
    rw [hsync]
    obtain ⟨g', hg'⟩ := flexSyncX_eq tr self children flex false g
    rw [hg', Bool.false_or]
    cases (Layout.flex flex).wrapsColumn with
    | true => exact ⟨g', rfl⟩
    | false =>
        obtain ⟨g2, hg2⟩ := Option.isSome_iff_exists.mp (forVisible_syncX_first h g')
        exact ⟨g2, by simp [hg2]⟩
  · intro ax g
    rw [hsync]
    obtain ⟨g', hg'⟩ := flexSyncX_eq tr self children flex true g
    rw [hg', Bool.true_or, if_pos rfl, Option.isSome_map,
      forVisible_syncX_second_iff h g']
  · intro ax g r hr
    rw [hsync] at hr
    obtain ⟨g', hg'⟩ := flexSyncX_eq tr self children flex true g
    rw [hg', Bool.true_or, if_pos rfl, Option.map_eq_some_iff] at hr
    obtain ⟨g2, -, rfl⟩ := hr
    rfl

end Axes

end Solvers

/-! ## The layers that are laid out on their own -/

mutual

/-- Laying out a layer calls `sync_layout` on the other layer. -/
inductive Synced : LayerTree → LayerTree → Prop
  | top (t : LayerTree) : Synced t t
  | inner {t n : LayerTree} : t.layer.visible → SyncedBelow t n → Synced t n

/-- Laying out the children of a layer, on their own in a null layout and one
axis after the other else, calls `sync_layout` on the other layer. -/
inductive SyncedBelow : LayerTree → LayerTree → Prop
  | null {layer : Layer} {children : List LayerTree} {c n : LayerTree} :
      c ∈ children → Synced c n → SyncedBelow (.node layer .null children) n
  | axes {layer : Layer} {layout : Layout} {children : List LayerTree}
      {c n : LayerTree} :
      layout ≠ .null → c ∈ children → c.layer.visible → SyncedBelow c n →
      SyncedBelow (.node layer layout children) n

end

/-- A visible layer whose solver never solves its axes. -/
def LayerTree.WrapsColumn (t : LayerTree) : Prop :=
  t.layer.visible ∧ t.layout.wrapsColumn

/-- No layer that is laid out on its own wraps columns. -/
def LayerTree.Solvable (t : LayerTree) : Prop :=
  ∀ n, Synced t n → ¬ n.WrapsColumn

def LayerTree.SolvableBelow (t : LayerTree) : Prop :=
  ∀ n, SyncedBelow t n → ¬ n.WrapsColumn

theorem solvable_iff (t : LayerTree) : t.Solvable ↔
    ¬ t.WrapsColumn ∧ (t.layer.visible → t.SolvableBelow) := by
  constructor
  · intro h
    exact ⟨h t (Synced.top t), fun hv n hn => h n (Synced.inner hv hn)⟩
  · rintro ⟨hself, hbelow⟩ n hn
    cases hn with
    | top => exact hself
    | inner hv hn => exact hbelow hv n hn

theorem solvableBelow_null_iff (layer : Layer) (children : List LayerTree) :
    LayerTree.SolvableBelow (.node layer .null children) ↔
      ∀ c ∈ children, c.Solvable := by
  constructor
  · intro h c hc n hn
    exact h n (SyncedBelow.null hc hn)
  · intro h n hn
    cases hn with
    | null hc hn => exact h _ hc n hn
    | axes hne => exact absurd rfl hne

theorem solvableBelow_axes_iff {layer : Layer} {layout : Layout}
    (hne : layout ≠ .null) (children : List LayerTree) :
    LayerTree.SolvableBelow (.node layer layout children) ↔
      ∀ c ∈ children, c.layer.visible → c.SolvableBelow := by
  constructor
  · intro h c hc hv n hn
    exact h n (SyncedBelow.axes hne hc hv hn)
  · intro h n hn
    cases hn with
    | null => exact absurd rfl hne
    | axes _ hc hv hn => exact h _ hc hv n hn

/-! ## Laying out a tree -/

section Tree

variable (tr : AlignEnum) (columns : GridColumns)

theorem mem_solvers_iff {ts : List LayerTree} {c : Child} :
    c ∈ solvers tr columns ts ↔ ∃ t ∈ ts, c = ⟨t.layer, t.solver tr columns⟩ := by
  induction ts with
  | nil => simp [solvers]
  | cons t ts ih => simp [solvers, ih]

/-- What holds of the solver of a tree. -/
structure LayerTree.Solves (t : LayerTree) : Prop where
  sync_iff : ∀ g, (t.syncLayout tr columns g).isSome ↔ t.Solvable
  answers : t.layer.visible →
    ∃ first, (t.solver tr columns).Answers first t.SolvableBelow

/-- Every geometry of a child can be laid out. -/
def Child.Own (c : Child) : Prop := ∀ g, (c.solver.sync g).isSome

/-- The axes of a child can be solved for every geometry. -/
def Child.Below (c : Child) : Prop := ∀ g, (c.solver.syncLayout .x true g).isSome

theorem AxisSolver.Answers.below_iff {s : AxisSolver} {first : Bool}
    {below : Prop} (h : s.Answers first below) :
    (∀ g, (s.syncLayout .x true g).isSome) ↔ below :=
  ⟨fun hall => (h.sync_second .x fun _ _ => ⟨0, 0, 0⟩).mp (hall _),
    fun hbelow g => (h.sync_second .x g).mpr hbelow⟩

theorem AxisSolver.Answers.congr {s : AxisSolver} {first : Bool}
    {below below' : Prop} (h : s.Answers first below) (hiff : below ↔ below') :
    s.Answers first below' :=
  propext hiff ▸ h

section Node

variable {layer : Layer} {children : List LayerTree}
  (ih : ∀ c ∈ children, c.Solves tr columns)

include ih

theorem own_iff : (∀ c ∈ solvers tr columns children, c.Own) ↔
    ∀ c ∈ children, c.Solvable := by
  have hown (c : LayerTree) (hc : c ∈ children) :
      Child.Own ⟨c.layer, c.solver tr columns⟩ ↔ c.Solvable :=
    ⟨fun h => ((ih c hc).sync_iff fun _ _ => ⟨0, 0, 0⟩).mp (h _),
      fun h g => ((ih c hc).sync_iff g).mpr h⟩
  constructor
  · intro h c hc
    exact (hown c hc).mp (h _ ((mem_solvers_iff tr columns).mpr ⟨c, hc, rfl⟩))
  · intro h c hc
    obtain ⟨t, ht, rfl⟩ := (mem_solvers_iff tr columns).mp hc
    exact (hown t ht).mpr (h t ht)

theorem below_iff : (∀ c ∈ solvers tr columns children, c.layer.visible → c.Below) ↔
    ∀ c ∈ children, c.layer.visible → c.SolvableBelow := by
  have hbelow (c : LayerTree) (hc : c ∈ children) (hv : c.layer.visible) :
      Child.Below ⟨c.layer, c.solver tr columns⟩ ↔ c.SolvableBelow := by
    obtain ⟨first, hans⟩ := (ih c hc).answers hv
    exact hans.below_iff
  constructor
  · intro h c hc hv
    exact (hbelow c hc hv).mp
      (h _ ((mem_solvers_iff tr columns).mpr ⟨c, hc, rfl⟩) hv)
  · intro h c hc hv
    obtain ⟨t, ht, rfl⟩ := (mem_solvers_iff tr columns).mp hc
    exact (hbelow t ht hv).mpr (h t ht hv)

theorem sync_isSome_iff_own :
    ∀ c ∈ solvers tr columns children, ∀ g, (c.solver.sync g).isSome ↔ c.Own := by
  intro c hc g
  obtain ⟨t, ht, rfl⟩ := (mem_solvers_iff tr columns).mp hc
  have hsync := (ih t ht).sync_iff
  exact ⟨fun h g' => (hsync g').mpr ((hsync g).mp h), fun h => h g⟩

theorem childrenAnswer :
    ChildrenAnswer (solvers tr columns children) Child.Below := by
  intro c hc hv
  obtain ⟨t, ht, rfl⟩ := (mem_solvers_iff tr columns).mp hc
  obtain ⟨first, hans⟩ := (ih t ht).answers hv
  exact ⟨first, hans.congr hans.below_iff.symm⟩

/-- The axis solver of a layer answers, in time unless it wraps columns. -/
theorem layoutSolver_answers (layout : Layout) (hv : layer.visible) :
    (layoutSolver tr columns layer layout
        (solvers tr columns children)).Answers (!layout.wrapsColumn)
      (LayerTree.SolvableBelow (.node layer layout children)) := by
  cases layout with
  | null =>
      refine (nullLayout_answers hv (sync_isSome_iff_own tr columns ih)).congr ?_
      rw [own_iff tr columns ih, solvableBelow_null_iff]
  | flex flex =>
      refine (flexAxes_answers flex (childrenAnswer tr columns ih)).congr ?_
      rw [below_iff tr columns ih, solvableBelow_axes_iff (by simp)]
  | grid =>
      refine (gridAxes_answers (childrenAnswer tr columns ih)).congr ?_
      rw [below_iff tr columns ih, solvableBelow_axes_iff (by simp)]

theorem layoutSolver_sync_iff (layout : Layout) (g : Geometry) :
    ((layoutSolver tr columns layer layout
        (solvers tr columns children)).sync g).isSome ↔
      LayerTree.Solvable (.node layer layout children) := by
  rw [solvable_iff, LayerTree.WrapsColumn, LayerTree.layer, LayerTree.layout]
  cases hv : layer.visible with
  | false =>
      cases layout <;>
        simp [layoutSolver, nullLayout, nullSync, flexLayout, gridLayout,
          syncLayoutSeparateAxes, hv]
  | true =>
      have hans := layoutSolver_answers tr columns ih layout hv
      cases layout with
      | null =>
          rw [layoutSolver, nullLayout,
            nullSync_isSome_iff hv (sync_isSome_iff_own tr columns ih),
            own_iff tr columns ih, solvableBelow_null_iff]
          simp [Layout.wrapsColumn]
      | flex flex =>
          refine (syncLayoutSeparateAxes_isSome_iff hans hv g).trans ?_
          simp
      | grid =>
          refine (syncLayoutSeparateAxes_isSome_iff hans hv g).trans ?_
          simp

end Node

theorem LayerTree.solves (t : LayerTree) : t.Solves tr columns := by
  induction t using LayerTree.induction with
  | h layer layout children ih =>
      constructor
      · intro g
        rw [LayerTree.syncLayout, LayerTree.solver]
        exact layoutSolver_sync_iff tr columns ih layout g
      · intro hv
        rw [LayerTree.solver]
        exact ⟨_, layoutSolver_answers tr columns ih layout hv⟩

end Tree

/-- A flex layer with columns that are wrapped. -/
def wrappedColumns : LayerTree :=
  .node ⟨0, true, fun _ => ⟨0, 0, 0, false⟩, false, false, none⟩
    (.flex ⟨.y, true, fun _ => 0, fun _ => 0⟩) []

end LuaAttic.Layerlib
