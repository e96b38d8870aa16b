import LuaAttic.Layerlib.MinSizes

/-!
# Which trees are laid out symmetrically

Laying out a transposed tree gives the transposed geometry, whatever geometry
there was before, exactly for the trees without visible items in the lines of
flex layers.  In any other tree take a lowest flex layer that has such an item.
Its size across the flow is computed from minimum sizes left from before in one
of the two trees, and from ones that do not depend on them in the other one.
-/

namespace LuaAttic.Layerlib

open LuaAttic.Support LuaAttic.Terra

/-! ## Sizes of plain trees -/

/-- Computing sizes on one axis leaves the other one alone. -/
theorem minPass_frame (t : LayerTree) {ax a : Axis} (ha : a ≠ ax)
    (g : Geometry) (i : ℕ) : t.minPass ax g i a = g i a := by
  induction t using LayerTree.induction generalizing g with
  | h layer layout children ih =>
      cases layout with
      | null =>
          rw [minPass_null]
          exact Geometry.modify_of_axis_ne ha _ _ _
      | grid => rfl
      | flex flex =>
          rw [minPass_flex, Geometry.modify_of_axis_ne ha, minPassAll_eq]
          refine List.foldlRecOn
            (motive := fun g' : Geometry => g' i a = g i a) _ _ rfl ?_
          intro g' hg' c hc
          rw [ih c (mem_of_mem_visibleOnes hc).1, hg']

theorem minPassAll_frame (ts : List LayerTree) {ax a : Axis} (ha : a ≠ ax)
    (g : Geometry) (i : ℕ) : minPassAll ax ts g i a = g i a := by
  rw [minPassAll_eq]
  refine List.foldlRecOn (motive := fun g' : Geometry => g' i a = g i a) _ _ rfl ?_
  intro g' hg' c _
  rw [minPass_frame c ha, hg']

section Flex

variable {tr : AlignEnum} {layer : Layer} {flex : FlexLayout}
  {children : List LayerTree}

/-- The minimum size of a flex layer. -/
theorem minSizes_minPass_self (ax : Axis) (g : Geometry) :
    minSizes ((LayerTree.node layer (.flex flex) children).minPass ax g)
        layer.id ax =
      max ((flexOf layer flex children).contentMin ax (minPassAll ax children g))
          (layer.side ax).minContent +
        (layer.side ax).padding := by
  rw [minPass_flex, minSizes, Geometry.modify_self]

/-- The minimum size of a child after the loop over the children. -/
theorem minSizes_minPassAll (hsep : Separate layer children)
    (hd : ∀ c ∈ children, c.Direct tr) {c : LayerTree} (hc : c ∈ children)
    (hv : c.layer.visible) (ax : Axis) (g : Geometry) :
    minSizes (minPassAll ax children g) c.layer.id =
      minSizes (c.minPass ax g) c.layer.id := by
  rw [minPassAll_eq]
  exact visibleOnes_eqOn hsep (fun c hc => minPass_local (hd c hc) ax) hc hv g
    (self_mem_idSet c)

theorem sameItems_minPassAll (hsep : Separate layer children)
    (hd : ∀ c ∈ children, c.Direct tr) {g g' : Geometry}
    (h : ∀ c ∈ children, c.layer.visible →
      minSizes (c.minPass flex.flow g) c.layer.id flex.flow =
        minSizes (c.minPass flex.flow g') c.layer.id flex.flow) :
    (flexOf layer flex children).SameItems (minPassAll flex.flow children g)
      (minPassAll flex.flow children g') := by
  intro item hitem hv
  obtain ⟨c, hc, rfl⟩ := List.mem_map.mp hitem
  have hg := congrFun (minSizes_minPassAll hsep hd hc hv flex.flow g) flex.flow
  have hg' := congrFun (minSizes_minPassAll hsep hd hc hv flex.flow g') flex.flow
  exact hg.trans ((h c hc hv).trans hg'.symm)

end Flex

/-- The minimum sizes of a plain tree do not depend on the geometry. -/
theorem minSizes_plain {tr : AlignEnum} {t : LayerTree} (hd : t.Direct tr)
    (hn : t.ids.Nodup) (h : t.Plain) (hv : t.layer.visible) (ax : Axis)
    (g g' : Geometry) :
    minSizes (t.minPass ax g) t.layer.id ax =
      minSizes (t.minPass ax g') t.layer.id ax := by
  induction t using LayerTree.induction with
  | h layer layout children ih =>
      have hv : layer.visible := hv
      obtain ⟨hlayout, hchildren⟩ := Layout.Direct.of_children hd
      obtain ⟨hlined, hplain⟩ := (plain_iff hv).mp h
      have hsep := separate_of_nodup hn
      cases layout with
      | null => simp [minPass_null, minSizes, LayerTree.layer]
      | grid => exact absurd hlayout id
      | flex flex =>
          have hcontent : (flexOf layer flex children).contentMin ax
                (minPassAll ax children g) =
              (flexOf layer flex children).contentMin ax
                (minPassAll ax children g') := by
            rw [(bare_flexOf hlined).contentMin_eq, (bare_flexOf hlined).contentMin_eq]
            split_ifs with hflow
            · have hflow : flex.flow = ax := hflow
              subst hflow
              have hitems : (flexOf layer flex children).SameItems
                  (minPassAll flex.flow children g)
                  (minPassAll flex.flow children g') :=
                sameItems_minPassAll hsep hchildren fun c hc hcv =>
                  ih c hc (hchildren c hc) (hsep.nodup c hc) (hplain c hc) hcv
              exact congrArg Prod.fst (FlexLayer.itemsSum_congr hitems _ _)
            · rfl
          rw [LayerTree.layer, minSizes_minPass_self, minSizes_minPass_self, hcontent]

/-! ## Sizes across the flow -/

namespace FlexLayer

variable {self : FlexLayer} {ax : Axis} {g : Geometry}

variable (self ax g) in
theorem itemsMax_bounds (i j : Int) :
    0 ≤ (self.itemsMax ax g i j).1 ∧
      ∀ item ∈ self.slice i j,
        (g item.id ax).minSize ≤ (self.itemsMax ax g i j).1 := by
  have hfold (l : List Layer) (r : ℚ × Int) :
      r.1 ≤ (l.foldl (fun r item =>
          (max r.1 (g item.id ax).minSize, r.2 + 1)) r).1 ∧
        ∀ item ∈ l, (g item.id ax).minSize ≤
          (l.foldl (fun r item =>
            (max r.1 (g item.id ax).minSize, r.2 + 1)) r).1 := by
    induction l generalizing r with
    | nil => exact ⟨le_rfl, fun _ h => absurd h List.not_mem_nil⟩
    | cons item l ih =>
        obtain ⟨hle, hall⟩ := ih (max r.1 (g item.id ax).minSize, r.2 + 1)
        refine ⟨(le_max_left _ _).trans hle, ?_⟩
        intro item' hmem
        obtain rfl | hmem := List.mem_cons.mp hmem
        · exact (le_max_right _ _).trans hle
        · exact hall item' hmem
  exact hfold _ _

theorem le_linesMin {p : Int × Int} (hp : p ∈ self.linewrap g ax) :
    (self.itemsMax ax g p.1 p.2).1 ≤ self.linesMin ax g := by
  have hfold (l : List (Int × Int)) (q : ℚ) (hq : 0 ≤ q) :
      q ≤ l.foldl (fun linesH p => linesH + (self.itemsMax ax g p.1 p.2).1) q ∧
        ∀ p ∈ l, (self.itemsMax ax g p.1 p.2).1 ≤
          l.foldl (fun linesH p => linesH + (self.itemsMax ax g p.1 p.2).1) q := by
    induction l generalizing q with
    | nil => exact ⟨le_rfl, fun _ h => absurd h List.not_mem_nil⟩
    | cons p l ih =>
        have hpos := (self.itemsMax_bounds ax g p.1 p.2).1
        obtain ⟨hle, hall⟩ := ih (q + (self.itemsMax ax g p.1 p.2).1) (by linarith)
        refine ⟨le_trans (by linarith) hle, ?_⟩
        intro p' hmem
        obtain rfl | hmem := List.mem_cons.mp hmem
        · exact le_trans (by linarith) hle
        · exact hall p' hmem
  exact (hfold _ 0 le_rfl).2 p hp

variable (ax g) in
/-- Without wrapping the first line holds all items but the first and last. -/
theorem mem_first_line {item : Layer} (hitem : item ∈ self.items.tail.dropLast)
    (hv : item.visible) (hwrap : self.flex.wrap = false) :
    (1, self.childCount - 1) ∈ self.linewrap g ax ∧
      item ∈ self.slice 1 (self.childCount - 1) := by
  obtain ⟨k, hk, hget⟩ := List.mem_iff_getElem.mp hitem
  rw [List.length_dropLast, List.length_tail] at hk
  rw [List.getElem_dropLast, List.getElem_tail] at hget
  have hcount : (k : Int) + 2 < self.childCount := by
    rw [childCount]
    omega
  constructor
  · rw [linewrap_eq]
    refine List.mem_append_left _ (List.mem_map.mpr ⟨1, ?_, ?_⟩)
    · exact mem_forRange.mpr ⟨le_rfl, by omega⟩
    · have hle : ¬ self.childCount ≤ 1 := by omega
      simp [line, linewrapNext, hwrap, hle]
  · refine List.mem_filter.mpr ⟨List.mem_filterMap.mpr ⟨k + 1, ?_, ?_⟩, hv⟩
    · exact mem_forRange.mpr ⟨by omega, by omega⟩
    · have hk1 : ((k : Int) + 1).toNat = k + 1 := by omega
      rw [child, if_pos (by omega), hk1, ← hget]
      exact List.getElem?_eq_getElem _

/-- An item in a line is no larger along the flow than the layer's content
across. -/
theorem le_contentMin {item : Layer} (hitem : item ∈ self.items.tail.dropLast)
    (hv : item.visible) (hwrap : self.flex.wrap = false)
    (hflow : self.flex.flow ≠ ax) :
    (g item.id ax.other).minSize ≤ self.contentMin ax g := by
  obtain ⟨hline, hslice⟩ := mem_first_line ax.other g hitem hv hwrap
  have hmax :=
    (self.itemsMax_bounds ax.other g 1 (self.childCount - 1)).2 item hslice
  have hlines := le_linesMin hline
  rw [contentMin, if_neg hflow]
  exact hmax.trans hlines

end FlexLayer

section Cross

variable {tr : AlignEnum} {layer : Layer} {flex : FlexLayout}
  {children : List LayerTree}

theorem mem_inner_items {c : LayerTree} (hc : c ∈ children.tail.dropLast) :
    c.layer ∈ (flexOf layer flex children).items.tail.dropLast := by
  rw [flexOf, ← List.map_tail, ← List.map_dropLast]
  exact List.mem_map.mpr ⟨c, hc, rfl⟩

/-- The width of a layer does not change with the heights. -/
theorem sizesOf_x (n : LayerTree) (g : Geometry) :
    sizesOf n g .x = minSizes (n.minPass .x g) n.layer.id .x := by
  rw [sizesOf, minSizes, minPass_frame n (by decide), minSizes]

/-- The height left from before goes into the width of a layer that flows along
the y-axis. -/
theorem le_sizesOf_column
    (hd : LayerTree.Direct tr (.node layer (.flex flex) children))
    (hflow : flex.flow = .y)
    (hlined : LayerTree.Lined (.node layer (.flex flex) children)) {m : ℚ}
    {g : Geometry} (hg : ∀ id, (g id .y).minSize = m) :
    m + (layer.side .x).padding ≤
      sizesOf (.node layer (.flex flex) children) g .x := by
  obtain ⟨-, c, hc, hv⟩ := hlined
  have hwrap : flex.wrap = false := (Layout.Direct.of_children hd).1.1
  have hne : flex.flow ≠ .x := by simp [hflow]
  have hitem : (minPassAll .x children g c.layer.id .y).minSize ≤
      (flexOf layer flex children).contentMin .x (minPassAll .x children g) :=
    FlexLayer.le_contentMin (mem_inner_items hc) hv hwrap hne
  rw [minPassAll_frame children (by decide), hg] at hitem
  rw [sizesOf_x]
  refine le_of_le_of_eq ?_ (minSizes_minPass_self .x g).symm
  have hmax := hitem.trans (le_max_left _ (layer.side .x).minContent)
  linarith

/-- The height of a layer that flows along the x-axis does not depend on the
geometry before. -/
theorem sizesOf_row
    (hd : LayerTree.Direct tr (.node layer (.flex flex) children))
    (hn : (LayerTree.node layer (.flex flex) children).ids.Nodup)
    (hflow : flex.flow = .x) (hplain : ∀ c ∈ children, c.Plain) (g g' : Geometry) :
    sizesOf (.node layer (.flex flex) children) g .y =
      sizesOf (.node layer (.flex flex) children) g' .y := by
  obtain ⟨hlayout, hchildren⟩ := Layout.Direct.of_children hd
  have hsep := separate_of_nodup hn
  -- the widths of the items, that the height is computed from
  have hitem (g : Geometry) {c : LayerTree} (hc : c ∈ children)
      (hv : c.layer.visible) :
      minSizes (minPassAll .y children
          ((LayerTree.node layer (.flex flex) children).minPass .x g)) c.layer.id .x =
        minSizes (c.minPass .x g) c.layer.id .x := by
    have hne : c.layer.id ≠ layer.id :=
      fun heq => hsep.notMem c hc (heq ▸ self_mem_idSet c)
    rw [minSizes, minPassAll_frame children (by decide), minPass_flex,
      Geometry.modify_of_id_ne hne]
    exact congrFun (minSizes_minPassAll hsep hchildren hc hv .x g) .x
  have hsame (g g' : Geometry) : (flexOf layer flex children).SameItems
      (minPassAll .y children
        ((LayerTree.node layer (.flex flex) children).minPass .x g))
      (minPassAll .y children
        ((LayerTree.node layer (.flex flex) children).minPass .x g')) := by
    intro item hmem hv
    obtain ⟨c, hc, rfl⟩ := List.mem_map.mp hmem
    have hconst := minSizes_plain (hchildren c hc) (hsep.nodup c hc) (hplain c hc)
      hv .x g g'
    have hflow : (flexOf layer flex children).flex.flow = .x := hflow
    rw [hflow]
    exact (hitem g hc hv).trans (hconst.trans (hitem g' hc hv).symm)
  refine (minSizes_minPass_self .y _).trans
    (Eq.trans ?_ (minSizes_minPass_self .y _).symm)
  rw [FlexLayer.contentMin_congr hlayout.1 (hsame g g')]

end Cross

/-! ## Transposed trees -/

section Transposed

variable (t : LayerTree)

theorem Layer.transpose_transpose (layer : Layer) :
    layer.transpose.transpose = layer := by
  simp [Layer.transpose]

theorem Layout.transpose_transpose (layout : Layout) :
    layout.transpose.transpose = layout := by
  cases layout <;> simp [Layout.transpose, FlexLayout.transpose]

theorem Geometry.transpose_transpose (g : Geometry) :
    g.transpose.transpose = g := by
  funext i ax
  simp [Geometry.transpose]

theorem transpose_transpose : t.transpose.transpose = t := by
  induction t using LayerTree.induction with
  | h layer layout children ih =>
      rw [LayerTree.transpose, LayerTree.transpose, transposeAll_eq, transposeAll_eq,
        List.map_map, Layer.transpose_transpose, Layout.transpose_transpose]
      congr 1
      exact (List.map_congr_left ih).trans (List.map_id children)

theorem nodes_transpose :
    t.transpose.nodes = t.nodes.map LayerTree.transpose := by
  induction t using LayerTree.induction with
  | h layer layout children ih =>
      simp only [LayerTree.transpose, LayerTree.nodes, LayerTree.nodesAll_eq,
        transposeAll_eq, List.map_cons, List.flatMap_map, List.map_flatMap,
        List.flatMap_congr ih]

theorem ids_transpose : t.transpose.ids = t.ids := by
  rw [LayerTree.ids, nodes_transpose, List.map_map, LayerTree.ids]
  refine List.map_congr_left fun n _ => ?_
  simp [Layer.transpose]

theorem layout_transpose : t.transpose.layout = t.layout.transpose := by
  cases t
  rfl

variable {t}

theorem layout_transpose_of_flex {flex : FlexLayout} (h : t.layout = .flex flex) :
    t.transpose.layout = .flex flex.transpose := by
  rw [layout_transpose, h, Layout.transpose]

theorem plain_children_transpose (h : ∀ c ∈ t.children, c.Plain) :
    ∀ c ∈ t.transpose.children, c.Plain := by
  cases t with
  | node layer layout children =>
      intro c hc
      rw [LayerTree.transpose, LayerTree.children, transposeAll_eq] at hc
      obtain ⟨c, hmem, rfl⟩ := List.mem_map.mp hc
      exact (h c hmem).transpose

theorem LayerTree.Direct.transpose {tr : AlignEnum} (hd : t.Direct tr) :
    t.transpose.Direct tr := by
  intro n hn
  rw [nodes_transpose] at hn
  obtain ⟨n, hmem, rfl⟩ := List.mem_map.mp hn
  have hlayout := hd n hmem
  rw [layout_transpose]
  cases hn : n.layout with
  | null => trivial
  | grid => simp [hn, Layout.Direct] at hlayout
  | flex flex =>
      rw [hn] at hlayout
      exact ⟨hlayout.1, fun ax => hlayout.2 ax.other⟩

theorem nodup_of_mem_nodes {n : LayerTree} (hn : t.ids.Nodup)
    (hmem : n ∈ t.nodes) : n.ids.Nodup := by
  induction t using LayerTree.induction with
  | h layer layout children ih =>
      obtain rfl | ⟨c, hc, hmem⟩ := LayerTree.mem_nodes_iff.mp hmem
      · exact hn
      · exact ih c hc ((separate_of_nodup hn).nodup c hc) hmem

end Transposed

/-! ## Symmetric trees -/

/-- Laying out the transposed tree gives the transposed minimum sizes of all
layers, and the transposed positions of items across the flow. -/
def SymmetricFrom (tr : AlignEnum) (columns : GridColumns) (t : LayerTree)
    (g : Geometry) : Prop :=
  ∃ g' g'', t.syncLayout tr columns g = some g' ∧
    t.transpose.syncLayout tr columns g.transpose = some g'' ∧
    (∀ n ∈ t.nodes, ∀ ax,
      (g'' n.layer.id ax.other).minSize = (g' n.layer.id ax).minSize) ∧
    ∀ n ∈ t.nodes, ∀ f, n.layout = .flex f → ∀ c ∈ n.children,
      (g'' c.layer.id f.flow).pos = (g' c.layer.id f.flow.other).pos

section Symmetric

variable (tr : AlignEnum) (columns : GridColumns) {t : LayerTree}

theorem syncLayout_eq (hd : t.Direct tr) (g : Geometry) :
    t.syncLayout tr columns g = some (t.layPass tr g) :=
  (LayerTree.runs tr columns hd).sync g

theorem symmetric_of_plain (hd : t.Direct tr) (h : t.Plain) (g : Geometry) :
    SymmetricFrom tr columns t g := by
  have hlay := (laysTransposed_of_plain tr h).lay g
  refine ⟨_, _, syncLayout_eq tr columns hd g,
    syncLayout_eq tr columns hd.transpose g.transpose, ?_, ?_⟩
  · intro n _ ax
    rw [hlay, Geometry.transpose, Axis.other_other]
  · intro n _ f _ c _
    rw [hlay, Geometry.transpose]

/-- A tree that is not plain has a lowest layer that is not. -/
theorem exists_lowest (h : ¬ t.Plain) :
    ∃ n ∈ t.shown, n.Lined ∧ ∀ c ∈ n.children, c.Plain := by
  induction t using LayerTree.induction with
  | h layer layout children ih =>
      have hv : layer.visible := by
        by_contra hv
        exact h (plain_of_not_visible (Bool.eq_false_iff.mpr hv))
      by_cases hchildren : ∀ c ∈ children, c.Plain
      · refine ⟨_, (mem_shown_node_iff hv).mpr (Or.inl rfl), ?_, hchildren⟩
        by_contra hlined
        exact h ((plain_iff hv).mpr ⟨hlined, hchildren⟩)
      · push Not at hchildren
        obtain ⟨c, hc, hplain⟩ := hchildren
        obtain ⟨n, hmem, hn⟩ := ih c hc hplain
        exact ⟨n, (mem_shown_node_iff hv).mpr (Or.inr ⟨c, hc, hmem⟩), hn⟩

/-- The sizes of a lowest layer along the y-axis, with the items as high as it
takes before. -/
theorem sizesOf_column_ne {n : LayerTree} {flex : FlexLayout} (hd : n.Direct tr)
    (hn : n.ids.Nodup) (hflex : n.layout = .flex flex) (hflow : flex.flow = .y)
    (hlined : n.Lined) (hplain : ∀ c ∈ n.children, c.Plain) :
    ∃ g : Geometry, sizesOf n g .x ≠ sizesOf n.transpose g.transpose .y := by
  cases n with
  | node layer layout children =>
      obtain rfl : layout = .flex flex := hflex
      have hdt := hd.transpose
      rw [← ids_transpose] at hn
      have hflowt : flex.transpose.flow = .x := by
        rw [FlexLayout.transpose, hflow]
        rfl
      -- what the transposed layer has with any geometry
      let h₀ := sizesOf (LayerTree.node layer (.flex flex) children).transpose
        (fun _ _ => ⟨0, 0, 0⟩) .y
      let g : Geometry := fun _ _ => ⟨0, 0, h₀ + 1 - (layer.side .x).padding⟩
      refine ⟨g, ?_⟩
      have hlarge : h₀ + 1 - (layer.side .x).padding + (layer.side .x).padding ≤
          sizesOf (LayerTree.node layer (.flex flex) children) g .x :=
        le_sizesOf_column hd hflow hlined fun _ => rfl
      have hrow : sizesOf (LayerTree.node layer (.flex flex) children).transpose
          g.transpose .y = h₀ :=
        sizesOf_row hdt hn hflowt (plain_children_transpose hplain) _ _
      rw [hrow]
      intro heq
      linarith

/-- A symmetric tree has symmetric sizes in all flex layers that are shown. -/
theorem sizesOf_transpose (hd : t.Direct tr) (hn : t.ids.Nodup) {g : Geometry}
    (h : SymmetricFrom tr columns t g) {n : LayerTree} (hshown : n ∈ t.shown)
    (hflex : n.IsFlex) (ax : Axis) :
    sizesOf n.transpose g.transpose ax.other = sizesOf n g ax := by
  obtain ⟨g', g'', hg', hg'', hmin, -⟩ := h
  rw [syncLayout_eq tr columns hd] at hg'
  rw [syncLayout_eq tr columns hd.transpose] at hg''
  cases hg'
  cases hg''
  have hshownt : n.transpose ∈ t.transpose.shown := by
    rw [shown_transpose]
    exact List.mem_map.mpr ⟨n, hshown, rfl⟩
  have hflext : n.transpose.IsFlex := by
    obtain ⟨flex, hflex⟩ := hflex
    exact ⟨flex.transpose, layout_transpose_of_flex hflex⟩
  have hnt : t.transpose.ids.Nodup := by rwa [ids_transpose]
  have hself := (computes hd hn).shown n hshown hflex g
  have hother := (computes hd.transpose hnt).shown n.transpose hshownt hflext
    g.transpose
  rw [← hself, ← hother, layer_transpose]
  exact hmin n (mem_nodes_of_mem_shown hshown) ax

theorem plain_of_symmetric (hd : t.Direct tr) (hn : t.ids.Nodup)
    (h : ∀ g, SymmetricFrom tr columns t g) : t.Plain := by
  by_contra hplain
  obtain ⟨n, hshown, hlined, hchildren⟩ := exists_lowest hplain
  have hmem := mem_nodes_of_mem_shown hshown
  have hnd := direct_of_mem_nodes hd hmem
  have hnn := nodup_of_mem_nodes hn hmem
  obtain ⟨flex, hflex⟩ := hlined.1
  have hsizes (g : Geometry) (ax : Axis) :=
    sizesOf_transpose tr columns hd hn (h g) hshown ⟨flex, hflex⟩ ax
  cases hflow : flex.flow with
  | y =>
      obtain ⟨g, hg⟩ := sizesOf_column_ne tr hnd hnn hflex hflow hlined hchildren
      exact hg (hsizes g .x).symm
  | x =>
      -- the transposed layer flows along the y-axis
      have hflowt : flex.transpose.flow = .y := by
        rw [FlexLayout.transpose, hflow]
        rfl
      obtain ⟨g, hg⟩ := sizesOf_column_ne tr hnd.transpose
        (by rwa [ids_transpose]) (layout_transpose_of_flex hflex) hflowt
        ((lined_transpose_iff n).mpr hlined) (plain_children_transpose hchildren)
      rw [transpose_transpose] at hg
      have hsame := hsizes g.transpose .y
      rw [Geometry.transpose_transpose] at hsame
      exact hg hsame

/-- A tree is laid out symmetrically from every geometry exactly if no line of a
flex layer that is shown holds a visible item. -/
theorem symmetric_iff_plain (hd : t.Direct tr) (hn : t.ids.Nodup) :
    (∀ g, SymmetricFrom tr columns t g) ↔ t.Plain :=
  ⟨plain_of_symmetric tr columns hd hn, fun h => symmetric_of_plain tr columns hd h⟩

end Symmetric

/-! ## A column of three items -/

/-- An item that needs ten units on the y-axis. -/
def tallItem (id : ℕ) (visible : Bool) : LayerTree :=
  .node ⟨id, visible, fun ax => ⟨0, if ax = .y then 10 else 0, 0, false⟩, false,
    false, none⟩ .null []

/-- A layer that flows along the y-axis, the second of its three items visible
or not. -/
def column (visible : Bool) : LayerTree :=
  .node ⟨0, true, fun _ => ⟨0, 0, 0, false⟩, false, false, none⟩
    (.flex ⟨.y, false, fun _ => 0, fun _ => 0⟩)
    [tallItem 1 true, tallItem 2 visible, tallItem 3 true]

theorem column_direct (visible : Bool) : (column visible).Direct alignEnum := by
  simp [column, tallItem, LayerTree.Direct, LayerTree.nodes, LayerTree.nodesAll,
    LayerTree.layout, Layout.Direct, AlignEnum.baseline]

theorem column_nodup (visible : Bool) : (column visible).ids.Nodup := by
  cases visible <;> decide

/-- With the second item invisible the column is symmetric. -/
theorem column_symmetric :
    (column false).Plain ∧
      ∀ g, SymmetricFrom alignEnum noColumns (column false) g := by
  have hplain : (column false).Plain := by
    simp [column, tallItem, LayerTree.Plain, LayerTree.shown, shownAll,
      LayerTree.Lined, LayerTree.inner, LayerTree.children, LayerTree.layout,
      LayerTree.layer]
  exact ⟨hplain, (symmetric_iff_plain alignEnum noColumns (column_direct false)
    (column_nodup false)).mpr hplain⟩

/-- The column needs no width, and the same items in a row need a height. -/
theorem column_not_symmetric :
    ((column true).syncLayout alignEnum noColumns fun _ _ => ⟨0, 0, 0⟩).map
        (fun g => (g 0 .x).minSize) = some 0 ∧
      ((column true).transpose.syncLayout alignEnum noColumns
        fun _ _ => ⟨0, 0, 0⟩).map (fun g => (g 0 .y).minSize) = some 10 ∧
      ¬ SymmetricFrom alignEnum noColumns (column true) fun _ _ => ⟨0, 0, 0⟩ := by
  have hcolumn : ((column true).syncLayout alignEnum noColumns
      fun _ _ => ⟨0, 0, 0⟩).map (fun g => (g 0 .x).minSize) = some 0 := by
    decide +kernel
  have hrow : ((column true).transpose.syncLayout alignEnum noColumns
      fun _ _ => ⟨0, 0, 0⟩).map (fun g => (g 0 .y).minSize) = some 10 := by
    decide +kernel
  refine ⟨hcolumn, hrow, ?_⟩
  rintro ⟨g', g'', hg', hg'', hmin, -⟩
  have hg'' : (column true).transpose.syncLayout alignEnum noColumns
      (fun _ _ => ⟨0, 0, 0⟩) = some g'' := hg''
  have hself := hmin _ (column true).self_mem_nodes .x
  rw [hg', Option.map_some, Option.some_inj] at hcolumn
  rw [hg'', Option.map_some, Option.some_inj] at hrow
  have heq : (g'' 0 .y).minSize = (g' 0 .x).minSize := hself
  rw [hcolumn, hrow] at heq
  exact absurd heq (by norm_num)

end LuaAttic.Layerlib
