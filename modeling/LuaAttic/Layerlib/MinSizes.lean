import LuaAttic.Layerlib.Transpose
import LuaAttic.Support.Local

/-!
# What the minimum sizes depend on

The minimum width of a flex layer that flows along the y-axis is computed from
the minimum heights of the items in its lines, before these are computed; that
of a flex layer that flows along the x-axis from the minimum widths, after they
are.  So a layer with a visible item in its lines takes whatever minimum heights
are left from before, and transposing the tree gives something else.
-/

namespace LuaAttic.Layerlib

open LuaAttic.Support LuaAttic.Terra

/-! ## Layers with different ids -/

/-- The ids of a tree as a set. -/
def LayerTree.idSet (t : LayerTree) : Set ℕ := {i | i ∈ t.ids}

theorem mem_idSet {t : LayerTree} {i : ℕ} : i ∈ t.idSet ↔ i ∈ t.ids := Iff.rfl

/-- The layers of the children are different ones, and not the layer itself. -/
structure Separate (layer : Layer) (children : List LayerTree) : Prop where
  notMem : ∀ c ∈ children, layer.id ∉ c.idSet
  apart : children.Pairwise fun c d => Disjoint c.idSet d.idSet
  nodup : ∀ c ∈ children, c.ids.Nodup

section Ids

variable {layer : Layer} {layout : Layout} {children : List LayerTree}

theorem ids_node : (LayerTree.node layer layout children).ids =
    layer.id :: children.flatMap LayerTree.ids := by
  rw [LayerTree.ids, LayerTree.nodes, LayerTree.nodesAll_eq, List.map_cons,
    List.map_flatMap]
  rfl

theorem separate_of_nodup
    (h : (LayerTree.node layer layout children).ids.Nodup) :
    Separate layer children := by
  rw [ids_node, List.nodup_cons, List.nodup_flatMap] at h
  obtain ⟨hself, hnodup, hapart⟩ := h
  refine ⟨fun c hc hmem => hself (List.mem_flatMap.mpr ⟨c, hc, hmem⟩), ?_, hnodup⟩
  exact hapart.imp fun hdisj => Set.disjoint_left.mpr fun _ hi hi' => hdisj hi hi'

theorem self_mem_idSet (t : LayerTree) : t.layer.id ∈ t.idSet :=
  List.mem_map.mpr ⟨t, t.self_mem_nodes, rfl⟩

theorem child_idSet_subset {c : LayerTree} (hc : c ∈ children) :
    c.idSet ⊆ (LayerTree.node layer layout children).idSet := by
  intro i hi
  rw [mem_idSet, ids_node]
  exact List.mem_cons_of_mem _ (List.mem_flatMap.mpr ⟨c, hc, hi⟩)

theorem mem_of_mem_visibleOnes {c : LayerTree} (hc : c ∈ visibleOnes children) :
    c ∈ children ∧ c.layer.visible :=
  List.mem_filter.mp hc

theorem Separate.apart_visibleOnes (h : Separate layer children) :
    (visibleOnes children).Pairwise fun c d => Disjoint c.idSet d.idSet :=
  h.apart.sublist List.filter_sublist

end Ids

/-! ## What the size of the content is computed from -/

namespace FlexLayer

variable {self : FlexLayer} {g g' : Geometry}

theorem mem_items_of_mem_slice {item : Layer} {i j : Int}
    (h : item ∈ self.slice i j) : item ∈ self.items ∧ item.visible := by
  obtain ⟨hmem, hv⟩ := List.mem_filter.mp h
  obtain ⟨k, -, hk⟩ := List.mem_filterMap.mp hmem
  rw [child] at hk
  split_ifs at hk
  exact ⟨List.mem_of_getElem? hk, hv⟩

theorem linewrap_congr (hwrap : self.flex.wrap = false) (ax ax' : Axis) :
    self.linewrap g ax = self.linewrap g' ax' := by
  have hline (i : Int) : self.line g ax i = self.line g' ax' i := by
    simp only [line, linewrapNext, hwrap, if_true]
  rw [linewrap_eq, linewrap_eq, funext hline]

/-- The minimum sizes of the visible items along the flow are the same. -/
def SameItems (self : FlexLayer) (g g' : Geometry) : Prop :=
  ∀ item ∈ self.items, item.visible →
    (g item.id self.flex.flow).minSize = (g' item.id self.flex.flow).minSize

theorem itemsSum_congr (h : self.SameItems g g') (i j : Int) :
    self.itemsSum self.flex.flow g i j = self.itemsSum self.flex.flow g' i j := by
  refine List.foldl_ext _ _ _ fun r item hitem => ?_
  obtain ⟨hmem, hv⟩ := mem_items_of_mem_slice hitem
  rw [h item hmem hv]

theorem itemsMax_congr (h : self.SameItems g g') (i j : Int) :
    self.itemsMax self.flex.flow g i j = self.itemsMax self.flex.flow g' i j := by
  refine List.foldl_ext _ _ _ fun r item hitem => ?_
  obtain ⟨hmem, hv⟩ := mem_items_of_mem_slice hitem
  rw [h item hmem hv]

/-- On either axis, only the minimum sizes along the flow count. -/
theorem contentMin_congr (hwrap : self.flex.wrap = false)
    (h : self.SameItems g g') (ax : Axis) :
    self.contentMin ax g = self.contentMin ax g' := by
  rw [contentMin, contentMin]
  split_ifs with hflow
  · subst hflow
    rw [itemsSum_congr h]
  · have hother : ax.other = self.flex.flow := by
      revert hflow
      cases self.flex.flow <;> cases ax <;> simp [Axis.other]
    rw [linesMin, linesMin, hother,
      linewrap_congr hwrap self.flex.flow self.flex.flow]
    refine List.foldl_ext _ _ _ fun q p _ => ?_
    simp only [itemsMax_congr h]

end FlexLayer

/-! ## Passes are local -/

/-- The minimum sizes of the layers. -/
def minSizes (g : Geometry) (id : ℕ) (ax : Axis) : ℚ := (g id ax).minSize

theorem local_modify {S : Set ℕ} {id : ℕ} (hid : id ∈ S) (ax : Axis)
    {v : Geometry → ℚ}
    (hv : ∀ g g', Set.EqOn (minSizes g) (minSizes g') S → v g = v g') :
    LocalTo minSizes S fun g => g.modify id ax fun e => { e with minSize := v g } where
  frame g i hi := by
    have hne : i ≠ id := fun heq => hi (heq ▸ hid)
    funext a
    rw [minSizes, Geometry.modify_of_id_ne hne, minSizes]
  reads g g' h i hi := by
    funext a
    have hsame := congrFun (h hi) a
    simp only [minSizes, Geometry.modify] at hsame ⊢
    split_ifs
    · exact hv g g' h
    · exact hsame

section Local

variable {tr : AlignEnum} {layer : Layer} {children : List LayerTree}

theorem Layout.Direct.of_children {layout : Layout}
    (hd : LayerTree.Direct tr (.node layer layout children)) :
    layout.Direct tr ∧ ∀ c ∈ children, c.Direct tr :=
  LayerTree.forall_nodes_iff.mp hd

/-- A loop over the visible children is local to the layer's tree. -/
theorem visibleOnes_local {layout : Layout} {F : LayerTree → Geometry → Geometry}
    (h : ∀ c ∈ children, LocalTo minSizes c.idSet (F c)) :
    LocalTo minSizes (LayerTree.node layer layout children).idSet fun g =>
      (visibleOnes children).foldl (fun g c => F c g) g :=
  LocalTo.foldl fun c hc =>
    (h c (mem_of_mem_visibleOnes hc).1).mono
      (child_idSet_subset (mem_of_mem_visibleOnes hc).1)

theorem sameItems_of_eqOn {flex : FlexLayout} {layout : Layout} {g g' : Geometry}
    (h : Set.EqOn (minSizes g) (minSizes g')
      (LayerTree.node layer layout children).idSet) :
    (flexOf layer flex children).SameItems g g' := by
  intro item hitem _
  obtain ⟨c, hc, rfl⟩ := List.mem_map.mp hitem
  exact congrFun (h (child_idSet_subset hc (self_mem_idSet c))) _

theorem minPass_local {t : LayerTree} (hd : t.Direct tr) (ax : Axis) :
    LocalTo minSizes t.idSet (t.minPass ax) := by
  induction t using LayerTree.induction with
  | h layer layout children ih =>
      obtain ⟨hlayout, hchildren⟩ := Layout.Direct.of_children hd
      have hself := self_mem_idSet (LayerTree.node layer layout children)
      cases layout with
      | null =>
          rw [funext (minPass_null layer children ax)]
          exact local_modify hself ax fun _ _ _ => rfl
      | grid => exact LocalTo.of_view_eq fun _ => rfl
      | flex flex =>
          have hitems :
              LocalTo minSizes (LayerTree.node layer (.flex flex) children).idSet
                fun g => (visibleOnes children).foldl (fun g c => c.minPass ax g) g :=
            visibleOnes_local fun c hc => ih c hc (hchildren c hc)
          have hstore := local_modify hself ax
            (v := fun g => max ((flexOf layer flex children).contentMin ax g)
                (layer.side ax).minContent + (layer.side ax).padding)
            fun g g' hg => by
              rw [FlexLayer.contentMin_congr hlayout.1 (sameItems_of_eqOn hg)]
          rw [funext (minPass_flex layer flex children ax),
            funext (minPassAll_eq ax children)]
          exact hstore.comp hitems

theorem minSizes_alignItemsY (items : FlexLayer) (ax : Axis) (g : Geometry)
    (i j : Int) (lineY lineH lineBaseline : ℚ) :
    minSizes (items.alignItemsY tr ax g i j lineY lineH lineBaseline) =
      minSizes g := by
  refine List.foldlRecOn (motive := fun g' => minSizes g' = minSizes g) _ _ rfl ?_
  intro g' hg' item _
  rw [← hg']
  funext k a
  exact Geometry.minSize_setPos g' item.id _ _ k a

theorem minSizes_flexPlace (layer : Layer) (flex : FlexLayout)
    (children : List LayerTree) (b : Bool) (g : Geometry) :
    minSizes (flexPlace tr layer flex children b g) = minSizes g := by
  rw [flexPlace]
  cases flex.flow with
  | x => rfl
  | y =>
      simp only [FlexLayer.flexSyncY]
      split_ifs
      · rfl
      · refine List.foldlRecOn
          (motive := fun r : Geometry × ℚ => minSizes r.1 = minSizes g) _ _ rfl ?_
        rintro ⟨g', y⟩ hg' p _
        rw [← hg']
        exact minSizes_alignItemsY _ _ _ _ _ _ _ _

theorem minSizes_snapExtent (layer : Layer) (ax : Axis) (g : Geometry) :
    minSizes (snapExtent layer ax g) = minSizes g := by
  funext i a
  simp [snapExtent, minSizes]

theorem minSizes_snapBoth (layer : Layer) (g : Geometry) :
    minSizes (snapBoth layer g) = minSizes g := by
  rw [snapBoth, minSizes_snapExtent, minSizes_snapExtent]

theorem minSizes_useMinSize (layer : Layer) (ax : Axis) (g : Geometry) :
    minSizes (useMinSize layer ax g) = minSizes g := by
  funext i a
  exact Geometry.minSize_setSize g layer.id ax _ i a

theorem lay_local {t : LayerTree} (hd : t.Direct tr) :
    (∀ b, LocalTo minSizes t.idSet (t.axisPass tr b)) ∧
      LocalTo minSizes t.idSet (t.layPass tr) := by
  induction t using LayerTree.induction with
  | h layer layout children ih =>
      obtain ⟨hlayout, hchildren⟩ := Layout.Direct.of_children hd
      have hnone : LocalTo minSizes (LayerTree.node layer layout children).idSet
          fun g => g :=
        LocalTo.of_view_eq fun _ => rfl
      cases layout with
      | grid => exact absurd hlayout id
      | null =>
          have hall : LocalTo minSizes (LayerTree.node layer .null children).idSet
              fun g => layPassAll tr children (snapBoth layer g) := by
            rw [funext (layPassAll_eq tr children)]
            exact (LocalTo.foldl fun c hc =>
              ((ih c hc (hchildren c hc)).2).mono (child_idSet_subset hc)).comp
                (LocalTo.of_view_eq (minSizes_snapBoth layer))
          have hcases (p : Prop) [Decidable p] :
              LocalTo minSizes (LayerTree.node layer .null children).idSet fun g =>
                if p then layPassAll tr children (snapBoth layer g) else g := by
            split_ifs
            · exact hall
            · exact hnone
          exact ⟨fun b => hcases (b ∧ layer.visible), hcases layer.visible⟩
      | flex flex =>
          have haxis (b : Bool) :
              LocalTo minSizes (LayerTree.node layer (.flex flex) children).idSet
                fun g => axisPassAll tr b children
                  (flexPlace tr layer flex children b g) := by
            rw [funext (axisPassAll_eq tr b children)]
            exact (visibleOnes_local fun c hc =>
              (ih c hc (hchildren c hc)).1 b).comp
                (LocalTo.of_view_eq (minSizes_flexPlace layer flex children b))
          have hsize (ax : Axis) :
              LocalTo minSizes (LayerTree.node layer (.flex flex) children).idSet
                (sizePass (.node layer (.flex flex) children) ax) :=
            (LocalTo.of_view_eq (minSizes_useMinSize layer ax)).comp
              (minPass_local hd ax)
          refine ⟨haxis, ?_⟩
          have hall := (haxis true).comp ((hsize .y).comp
            ((haxis false).comp (hsize .x)))
          by_cases hv : layer.visible
          · rw [funext fun g => show (LayerTree.node layer (.flex flex)
              children).layPass tr g = _ from if_pos hv]
            exact hall
          · rw [funext fun g => show (LayerTree.node layer (.flex flex)
              children).layPass tr g = _ from if_neg hv]
            exact hnone

end Local

/-! ## Which pass computes the size of a layer -/

/-- The minimum sizes of a layer are computed with those of the other one. -/
inductive SizedWith : LayerTree → LayerTree → Prop
  | self (t : LayerTree) : SizedWith t t
  | item {layer : Layer} {flex : FlexLayout} {children : List LayerTree}
      {c n : LayerTree} :
      c ∈ children → c.layer.visible → SizedWith c n →
      SizedWith (.node layer (.flex flex) children) n

/-- The layer is laid out when the null layers that are sized with the other one
lay out themselves. -/
inductive LaidBelow : LayerTree → LayerTree → Prop
  | null {layer : Layer} {children : List LayerTree} {c n : LayerTree} :
      c ∈ children → n ∈ c.shown → LaidBelow (.node layer .null children) n
  | item {layer : Layer} {flex : FlexLayout} {children : List LayerTree}
      {c n : LayerTree} :
      c ∈ children → c.layer.visible → LaidBelow c n →
      LaidBelow (.node layer (.flex flex) children) n

theorem visible_of_mem_shown {t n : LayerTree} (h : n ∈ t.shown) :
    t.layer.visible := by
  cases t with
  | node layer layout children =>
      rw [LayerTree.shown] at h
      split_ifs at h with hv
      · exact hv
      · exact absurd h List.not_mem_nil

theorem mem_shown_node_iff {layer : Layer} {layout : Layout}
    {children : List LayerTree} {n : LayerTree} (hv : layer.visible) :
    n ∈ (LayerTree.node layer layout children).shown ↔
      n = .node layer layout children ∨ ∃ c ∈ children, n ∈ c.shown := by
  rw [LayerTree.shown, if_pos hv, List.mem_cons, shownAll_eq, List.mem_flatMap]

theorem mem_nodes_of_mem_shown {t n : LayerTree} (h : n ∈ t.shown) :
    n ∈ t.nodes := by
  induction t using LayerTree.induction with
  | h layer layout children ih =>
      rw [LayerTree.mem_nodes_iff]
      exact ((mem_shown_node_iff (visible_of_mem_shown h)).mp h).imp id
        fun ⟨c, hc, hn⟩ => ⟨c, hc, ih c hc hn⟩

theorem sizedWith_or_laidBelow {tr : AlignEnum} {t n : LayerTree}
    (hd : t.Direct tr) (h : n ∈ t.shown) : SizedWith t n ∨ LaidBelow t n := by
  induction t using LayerTree.induction with
  | h layer layout children ih =>
      obtain ⟨hlayout, hchildren⟩ := Layout.Direct.of_children hd
      obtain rfl | ⟨c, hc, hn⟩ :=
        (mem_shown_node_iff (visible_of_mem_shown h)).mp h
      · exact Or.inl (SizedWith.self _)
      · cases layout with
        | null => exact Or.inr (LaidBelow.null hc hn)
        | flex flex =>
            have hcv := visible_of_mem_shown hn
            exact (ih c hc (hchildren c hc) hn).imp
              (SizedWith.item hc hcv) (LaidBelow.item hc hcv)
        | grid => exact absurd hlayout id

theorem idSet_subset_of_mem_nodes {t n : LayerTree} (h : n ∈ t.nodes) :
    n.idSet ⊆ t.idSet := by
  induction t using LayerTree.induction with
  | h layer layout children ih =>
      obtain rfl | ⟨c, hc, hn⟩ := LayerTree.mem_nodes_iff.mp h
      · exact subset_rfl
      · exact (ih c hc hn).trans (child_idSet_subset hc)

theorem SizedWith.idSet_subset {t n : LayerTree} (h : SizedWith t n) :
    n.idSet ⊆ t.idSet := by
  induction h with
  | self => exact subset_rfl
  | item hc _ _ ih => exact ih.trans (child_idSet_subset hc)

theorem LaidBelow.idSet_subset {t n : LayerTree} (h : LaidBelow t n) :
    n.idSet ⊆ t.idSet := by
  induction h with
  | null hc hn =>
      exact (idSet_subset_of_mem_nodes (mem_nodes_of_mem_shown hn)).trans
        (child_idSet_subset hc)
  | item hc _ _ ih => exact ih.trans (child_idSet_subset hc)

section Passes

variable {tr : AlignEnum}

/-- A loop over the visible children does to the tree of each of them what it
does to the child. -/
theorem visibleOnes_eqOn {layer : Layer} {children : List LayerTree}
    {F : LayerTree → Geometry → Geometry} (hsep : Separate layer children)
    (h : ∀ c ∈ children, LocalTo minSizes c.idSet (F c)) {c : LayerTree}
    (hc : c ∈ children) (hv : c.layer.visible) (g : Geometry) :
    Set.EqOn (minSizes ((visibleOnes children).foldl (fun g c => F c g) g))
      (minSizes (F c g)) c.idSet :=
  LocalTo.foldl_eqOn (S := LayerTree.idSet)
    (fun d hd => h d (mem_of_mem_visibleOnes hd).1) hsep.apart_visibleOnes
    (List.mem_filter.mpr ⟨hc, hv⟩) g

/-- Storing the minimum size of a layer leaves those of the layers below. -/
theorem minPass_flex_eqOn {layer : Layer} {flex : FlexLayout}
    {children : List LayerTree} {S : Set ℕ} (hS : layer.id ∉ S) (ax : Axis)
    (g : Geometry) :
    Set.EqOn (minSizes ((LayerTree.node layer (.flex flex) children).minPass ax g))
      (minSizes ((visibleOnes children).foldl (fun g c => c.minPass ax g) g)) S := by
  intro i hi
  have hne : i ≠ layer.id := fun heq => hS (heq ▸ hi)
  funext a
  rw [minPass_flex, minSizes, Geometry.modify_of_id_ne hne, minPassAll_eq, minSizes]

/-- Computing the sizes of a flex layer computes those of its visible children. -/
theorem minPass_item_eqOn {layer : Layer} {flex : FlexLayout}
    {children : List LayerTree}
    (hd : LayerTree.Direct tr (.node layer (.flex flex) children))
    (hn : (LayerTree.node layer (.flex flex) children).ids.Nodup) {c : LayerTree}
    (hc : c ∈ children) (hv : c.layer.visible) (ax : Axis) (g : Geometry) :
    Set.EqOn (minSizes ((LayerTree.node layer (.flex flex) children).minPass ax g))
      (minSizes (c.minPass ax g)) c.idSet := by
  have hsep := separate_of_nodup hn
  have hchildren := (Layout.Direct.of_children hd).2
  exact (minPass_flex_eqOn (hsep.notMem c hc) ax g).trans
    (visibleOnes_eqOn hsep (fun c hc => minPass_local (hchildren c hc) ax) hc hv g)

theorem SizedWith.minPass_eqOn {t n : LayerTree} (h : SizedWith t n)
    (hd : t.Direct tr) (hn : t.ids.Nodup) (ax : Axis) (g : Geometry) :
    Set.EqOn (minSizes (t.minPass ax g)) (minSizes (n.minPass ax g)) n.idSet := by
  induction h with
  | self => exact Set.eqOn_refl _ _
  | item hc hv hsub ih =>
      refine ((minPass_item_eqOn hd hn hc hv ax g).mono hsub.idSet_subset).trans ?_
      exact ih ((Layout.Direct.of_children hd).2 _ hc)
        ((separate_of_nodup hn).nodup _ hc)

theorem LaidBelow.minPass_eqOn {t n : LayerTree} (h : LaidBelow t n)
    (hd : t.Direct tr) (hn : t.ids.Nodup) (ax : Axis) (g : Geometry) :
    Set.EqOn (minSizes (t.minPass ax g)) (minSizes g) n.idSet := by
  induction h with
  | @null layer children c n hc hmem =>
      have hsep := separate_of_nodup hn
      intro i hi
      have hne : i ≠ layer.id := fun heq => hsep.notMem c hc
        (idSet_subset_of_mem_nodes (mem_nodes_of_mem_shown hmem) (heq ▸ hi))
      funext a
      rw [minPass_null, minSizes, Geometry.modify_of_id_ne hne, minSizes]
  | item hc hv hsub ih =>
      refine ((minPass_item_eqOn hd hn hc hv ax g).mono hsub.idSet_subset).trans ?_
      exact ih ((Layout.Direct.of_children hd).2 _ hc)
        ((separate_of_nodup hn).nodup _ hc)

/-- A loop over children leaves the layer itself alone. -/
theorem foldl_self_eq {layer : Layer} {children ts : List LayerTree}
    {F : LayerTree → Geometry → Geometry} (hsep : Separate layer children)
    (hts : ∀ c ∈ ts, c ∈ children)
    (h : ∀ c ∈ children, LocalTo minSizes c.idSet (F c)) (g : Geometry) :
    minSizes (ts.foldl (fun g c => F c g) g) layer.id = minSizes g layer.id :=
  LocalTo.foldl_frame (S := LayerTree.idSet) (T := {layer.id})
    (fun c hc => h c (hts c hc))
    (fun c hc => Set.disjoint_singleton_right.mpr (hsep.notMem c (hts c hc))) g rfl

/-- Solving an axis leaves the sizes of the layers that are sized together. -/
theorem SizedWith.axisPass_eq {t n : LayerTree} (h : SizedWith t n)
    (hd : t.Direct tr) (hn : t.ids.Nodup) (b : Bool) (g : Geometry) :
    minSizes (t.axisPass tr b g) n.layer.id = minSizes g n.layer.id := by
  induction h generalizing g with
  | self t =>
      cases t with
      | node layer layout children =>
          have hsep := separate_of_nodup hn
          have hchildren := (Layout.Direct.of_children hd).2
          cases layout with
          | null =>
              have hall := foldl_self_eq hsep (fun _ hc => hc)
                (fun c hc => (lay_local (hchildren c hc)).2) (snapBoth layer g)
              rw [← layPassAll_eq, minSizes_snapBoth] at hall
              rw [LayerTree.axisPass, LayerTree.layer]
              split_ifs
              · exact hall
              · rfl
          | flex flex =>
              rw [LayerTree.axisPass, axisPassAll_eq, LayerTree.layer,
                foldl_self_eq hsep (fun c hc => (mem_of_mem_visibleOnes hc).1)
                  (fun c hc => (lay_local (hchildren c hc)).1 b),
                minSizes_flexPlace]
          | grid => rfl
  | item hc hv hsub ih =>
      have hsep := separate_of_nodup hn
      have hchildren := (Layout.Direct.of_children hd).2
      rw [LayerTree.axisPass, axisPassAll_eq,
        visibleOnes_eqOn hsep (fun c hc => (lay_local (hchildren c hc)).1 b) hc hv _
          (hsub.idSet_subset (self_mem_idSet _)),
        ih (hchildren _ hc) (hsep.nodup _ hc), minSizes_flexPlace]

/-- Before the other axis is known no size is computed. -/
theorem minSizes_axisPass_false (t : LayerTree) (g : Geometry) :
    minSizes (t.axisPass tr false g) = minSizes g := by
  induction t using LayerTree.induction generalizing g with
  | h layer layout children ih =>
      cases layout with
      | null => simp [LayerTree.axisPass]
      | grid => rfl
      | flex flex =>
          rw [LayerTree.axisPass, axisPassAll_eq, ← @minSizes_flexPlace tr
            layer flex children false g]
          refine List.foldlRecOn (motive := fun g' => minSizes g' = minSizes _)
            _ _ rfl ?_
          intro g' hg' c hc
          rw [← hg', ih c (mem_of_mem_visibleOnes hc).1]

/-! ## The sizes after laying out -/

/-- The minimum sizes of a layer, computed on one axis and then the other. -/
def sizesOf (n : LayerTree) (g : Geometry) : Axis → ℚ :=
  minSizes (n.minPass .y (n.minPass .x g)) n.layer.id

theorem minPass_both_eqOn {n : LayerTree} (hd : n.Direct tr) {g g' : Geometry}
    (h : Set.EqOn (minSizes g) (minSizes g') n.idSet) :
    Set.EqOn (minSizes (n.minPass .y (n.minPass .x g)))
      (minSizes (n.minPass .y (n.minPass .x g'))) n.idSet :=
  (minPass_local hd .y).reads _ _ ((minPass_local hd .x).reads _ _ h)

theorem sizesOf_congr {n : LayerTree} (hd : n.Direct tr) {g g' : Geometry}
    (h : Set.EqOn (minSizes g) (minSizes g') n.idSet) :
    sizesOf n g = sizesOf n g' :=
  minPass_both_eqOn hd h (self_mem_idSet n)

def LayerTree.IsFlex (t : LayerTree) : Prop := ∃ f, t.layout = .flex f

/-- Laying out computes the minimum sizes of every flex layer that is shown,
from the ones that were there before. -/
structure Computes (tr : AlignEnum) (t : LayerTree) : Prop where
  below : t.layer.visible → ∀ n, LaidBelow t n → n.IsFlex → ∀ g,
    minSizes (t.axisPass tr true g) n.layer.id = sizesOf n g
  shown : ∀ n ∈ t.shown, n.IsFlex → ∀ g,
    minSizes (t.layPass tr g) n.layer.id = sizesOf n g

theorem direct_of_mem_nodes {t n : LayerTree} (hd : t.Direct tr)
    (hn : n ∈ t.nodes) : n.Direct tr := by
  induction t using LayerTree.induction with
  | h layer layout children ih =>
      obtain rfl | ⟨c, hc, hn⟩ := LayerTree.mem_nodes_iff.mp hn
      · exact hd
      · exact ih c hc ((Layout.Direct.of_children hd).2 c hc) hn

theorem LaidBelow.mem_nodes {t n : LayerTree} (h : LaidBelow t n) :
    n ∈ t.nodes := by
  induction h with
  | null hc hn =>
      exact LayerTree.mem_nodes_iff.mpr (Or.inr ⟨_, hc, mem_nodes_of_mem_shown hn⟩)
  | item hc _ _ ih => exact LayerTree.mem_nodes_iff.mpr (Or.inr ⟨_, hc, ih⟩)

section Computes

variable {layer : Layer} {children : List LayerTree}

/-- The null layout lays out the children one after the other. -/
theorem layPassAll_computes {c n : LayerTree} (hsep : Separate layer children)
    (hd : ∀ c ∈ children, c.Direct tr) (ih : ∀ c ∈ children, Computes tr c)
    (hc : c ∈ children) (hn : n ∈ c.shown) (hflex : n.IsFlex) (g : Geometry) :
    minSizes (layPassAll tr children (snapBoth layer g)) n.layer.id =
      sizesOf n g := by
  have hnodes := mem_nodes_of_mem_shown hn
  have hall := LocalTo.foldl_eqOn (S := LayerTree.idSet)
    (fun c hc => (lay_local (hd c hc)).2) hsep.apart hc (snapBoth layer g)
  rw [layPassAll_eq, hall (idSet_subset_of_mem_nodes hnodes (self_mem_idSet n)),
    (ih c hc).shown n hn hflex]
  refine sizesOf_congr (direct_of_mem_nodes (hd c hc) hnodes) ?_
  rw [minSizes_snapBoth]
  exact Set.eqOn_refl _ _

/-- The minimum sizes when a flex layer asks its children for the second axis. -/
theorem sizePasses_eq (t : LayerTree) {s : Geometry → Geometry}
    (hs : ∀ g, minSizes (s g) = minSizes g) (hd : t.Direct tr) (g : Geometry) :
    Set.EqOn (minSizes (sizePass t .y (s (sizePass t .x g))))
      (minSizes (t.minPass .y (t.minPass .x g))) t.idSet := by
  rw [sizePass, minSizes_useMinSize]
  refine (minPass_local hd .y).reads _ _ ?_
  rw [hs, sizePass, minSizes_useMinSize]
  exact Set.eqOn_refl _ _

theorem flex_computes {flex : FlexLayout}
    (hd : LayerTree.Direct tr (.node layer (.flex flex) children))
    (hn : (LayerTree.node layer (.flex flex) children).ids.Nodup)
    (ih : ∀ c ∈ children, Computes tr c) :
    Computes tr (.node layer (.flex flex) children) := by
  have hsep := separate_of_nodup hn
  have hchildren := (Layout.Direct.of_children hd).2
  have hbelow (n : LayerTree) (h : LaidBelow (.node layer (.flex flex) children) n)
      (hflex : n.IsFlex) (g : Geometry) :
      minSizes ((LayerTree.node layer (.flex flex) children).axisPass tr true g)
        n.layer.id = sizesOf n g := by
    cases h with
    | item hc hv hsub =>
        rw [LayerTree.axisPass, axisPassAll_eq,
          visibleOnes_eqOn hsep (fun c hc => (lay_local (hchildren c hc)).1 true)
            hc hv _ (hsub.idSet_subset (self_mem_idSet n)),
          (ih _ hc).below hv n hsub hflex]
        refine sizesOf_congr
          (direct_of_mem_nodes (hchildren _ hc) hsub.mem_nodes) ?_
        rw [minSizes_flexPlace]
        exact Set.eqOn_refl _ _
  refine ⟨fun _ => hbelow, ?_⟩
  intro n hmem hflex g
  have hv : layer.visible := visible_of_mem_shown hmem
  have hnode := sizePasses_eq (.node layer (.flex flex) children)
    (@minSizes_axisPass_false tr (.node layer (.flex flex) children)) hd g
  rw [layPass_flex tr flex children hv]
  obtain h | h := sizedWith_or_laidBelow hd hmem
  · have hx := h.minPass_eqOn hd hn .x g
    have hy := h.minPass_eqOn hd hn .y
      ((LayerTree.node layer (.flex flex) children).minPass .x g)
    have hnd := direct_of_mem_nodes hd (mem_nodes_of_mem_shown hmem)
    rw [h.axisPass_eq hd hn, hnode (h.idSet_subset (self_mem_idSet n)),
      hy (self_mem_idSet n), sizesOf]
    exact (minPass_local hnd .y).reads _ _ hx (self_mem_idSet n)
  · rw [hbelow n h hflex]
    refine sizesOf_congr (direct_of_mem_nodes hd h.mem_nodes) ?_
    exact (hnode.mono h.idSet_subset).trans
      ((h.minPass_eqOn hd hn .y _).trans (h.minPass_eqOn hd hn .x g))

end Computes

theorem computes {t : LayerTree} (hd : t.Direct tr) (hn : t.ids.Nodup) :
    Computes tr t := by
  induction t using LayerTree.induction with
  | h layer layout children ih =>
      obtain ⟨hlayout, hchildren⟩ := Layout.Direct.of_children hd
      have hsep := separate_of_nodup hn
      have ih := fun c hc => ih c hc (hchildren c hc) (hsep.nodup c hc)
      cases layout with
      | grid => exact absurd hlayout id
      | flex flex => exact flex_computes hd hn ih
      | null =>
          constructor
          · intro hv n h hflex g
            have hv : layer.visible := hv
            cases h with
            | null hc hmem =>
                simp only [LayerTree.axisPass, hv, and_self, if_true]
                exact layPassAll_computes hsep hchildren ih hc hmem hflex g
          · intro n hmem hflex g
            have hv : layer.visible := visible_of_mem_shown hmem
            obtain rfl | ⟨c, hc, hmem⟩ := (mem_shown_node_iff hv).mp hmem
            · obtain ⟨f, hf⟩ := hflex
              cases hf
            · simp only [LayerTree.layPass, hv, if_true]
              exact layPassAll_computes hsep hchildren ih hc hmem hflex g

end Passes

end LuaAttic.Layerlib
