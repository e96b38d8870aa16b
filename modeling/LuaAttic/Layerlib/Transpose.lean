import LuaAttic.Layerlib.Passes

/-!
# Exchanging the axes of a tree of layers

The methods of flex layouts are generated for both axes from one template, and
the null layout has the same functions for both, so laying out a tree with its
axes exchanged should give the geometry with its axes exchanged.  This is so
for trees in which no line of a flex layout holds a visible item: in a visible
flex layer all children but the first and the last one are invisible.
-/

namespace LuaAttic.Layerlib

/-! ## Transposing -/

def Layer.transpose (layer : Layer) : Layer :=
  { layer with side := fun ax => layer.side ax.other }

def FlexLayout.transpose (flex : FlexLayout) : FlexLayout where
  flow := flex.flow.other
  wrap := flex.wrap
  alignItems ax := flex.alignItems ax.other
  itemAlign ax := flex.itemAlign ax.other

def Layout.transpose : Layout → Layout
  | .null => .null
  | .flex f => .flex f.transpose
  | .grid => .grid

mutual

def LayerTree.transpose : LayerTree → LayerTree
  | .node layer layout children =>
      .node layer.transpose layout.transpose (transposeAll children)

def transposeAll : List LayerTree → List LayerTree
  | [] => []
  | t :: ts => t.transpose :: transposeAll ts

end

def Geometry.transpose (g : Geometry) : Geometry := fun id ax => g id ax.other

theorem transposeAll_eq (ts : List LayerTree) :
    transposeAll ts = ts.map LayerTree.transpose := by
  induction ts with
  | nil => rfl
  | cons t ts ih => rw [transposeAll, ih, List.map_cons]

@[simp] theorem layer_transpose (t : LayerTree) :
    t.transpose.layer = t.layer.transpose := by
  cases t
  rfl

theorem visibleOnes_transposeAll (ts : List LayerTree) :
    visibleOnes (transposeAll ts) = (visibleOnes ts).map LayerTree.transpose := by
  rw [transposeAll_eq, visibleOnes, visibleOnes, List.filter_map]
  congr 2
  funext t
  simp [Layer.transpose]

theorem modify_transpose (g : Geometry) (id : ℕ) (ax : Axis)
    (f : Extent → Extent) :
    g.transpose.modify id ax f = (g.modify id ax.other f).transpose := by
  funext i a
  have haxis : a = ax ↔ a.other = ax.other := by cases a <;> cases ax <;> decide
  simp only [Geometry.modify, Geometry.transpose, haxis]

/-! ## Layers that are shown -/

mutual

/-- The layers of a tree that are visible with all that they are in. -/
def LayerTree.shown : LayerTree → List LayerTree
  | .node layer layout children =>
      if layer.visible then .node layer layout children :: shownAll children else []

def shownAll : List LayerTree → List LayerTree
  | [] => []
  | t :: ts => t.shown ++ shownAll ts

end

/-- The children of a layer but the first and the last one. -/
def LayerTree.inner (t : LayerTree) : List LayerTree := t.children.tail.dropLast

/-- The lines of a flex layer hold a visible item. -/
def LayerTree.Lined (t : LayerTree) : Prop :=
  (∃ f, t.layout = .flex f) ∧ ∃ c ∈ t.inner, c.layer.visible

/-- No line of a flex layer that is shown holds a visible item. -/
def LayerTree.Plain (t : LayerTree) : Prop := ∀ n ∈ t.shown, ¬ n.Lined

theorem shownAll_eq (ts : List LayerTree) :
    shownAll ts = ts.flatMap LayerTree.shown := by
  induction ts with
  | nil => rfl
  | cons t ts ih => rw [shownAll, ih, List.flatMap_cons]

theorem plain_iff {layer : Layer} {layout : Layout} {children : List LayerTree}
    (hv : layer.visible) :
    LayerTree.Plain (.node layer layout children) ↔
      ¬ LayerTree.Lined (.node layer layout children) ∧
        ∀ c ∈ children, c.Plain := by
  simp only [LayerTree.Plain, LayerTree.shown, if_pos hv, List.forall_mem_cons,
    shownAll_eq, List.forall_mem_flatMap]

theorem plain_of_not_visible {t : LayerTree} (hv : t.layer.visible = false) :
    t.Plain := by
  cases t with
  | node layer layout children =>
      rw [LayerTree.layer] at hv
      simp [LayerTree.Plain, LayerTree.shown, hv]

/-! ## Lines without visible items -/

namespace FlexLayer

variable {self : FlexLayer}

/-- All items but the first and the last one are invisible. -/
def Bare (self : FlexLayer) : Prop :=
  ∀ item ∈ self.items.tail.dropLast, item.visible = false

theorem Bare.slice_eq_nil (h : self.Bare) {i j : Int} (hi : 1 ≤ i)
    (hj : j < self.childCount) : self.slice i j = [] := by
  rw [slice, visibleAt, List.filter_eq_nil_iff]
  intro item hitem
  obtain ⟨k, hk, hchild⟩ := List.mem_filterMap.mp hitem
  obtain ⟨hik, hkj⟩ := Terra.mem_forRange.mp hk
  rw [child, if_pos (by omega)] at hchild
  obtain ⟨hlt, hget⟩ := List.getElem?_eq_some_iff.mp hchild
  rw [childCount] at hj
  have hmem : item ∈ self.items.tail.dropLast := by
    refine List.mem_iff_getElem.mpr ⟨k.toNat - 1, ?_, ?_⟩
    · simp only [List.length_dropLast, List.length_tail]
      omega
    · have hk1 : k.toNat - 1 + 1 = k.toNat := by omega
      simp only [List.getElem_dropLast, List.getElem_tail, hk1, hget]
  simp [h item hmem]

/-- No line holds a visible item. -/
theorem Bare.slice_of_mem_linewrap (h : self.Bare) {g : Geometry} {ax : Axis}
    {p : Int × Int} (hp : p ∈ self.linewrap g ax) : self.slice p.1 p.2 = [] := by
  rw [linewrap_eq, List.mem_append, List.mem_singleton] at hp
  obtain hp | rfl := hp
  · obtain ⟨i, hi, rfl⟩ := List.mem_map.mp hp
    obtain ⟨hle, hlt⟩ := Terra.mem_forRange.mp hi
    have hnext := self.linewrapNext_of_lt g ax (i := i - 1) (by omega) (by omega)
    exact h.slice_eq_nil hle hnext.2.2
  · rfl

theorem Bare.linesMin_eq (h : self.Bare) (ax : Axis) (g : Geometry) :
    self.linesMin ax g = 0 := by
  refine List.foldlRecOn (motive := fun linesH => linesH = 0) _ _ rfl ?_
  rintro linesH rfl p hp
  simp only [itemsMax, h.slice_of_mem_linewrap hp, List.foldl_nil, add_zero]

theorem Bare.flexSyncY_eq (h : self.Bare) (tr : AlignEnum) (ax : Axis)
    (g : Geometry) (b : Bool) : (self.flexSyncY tr ax g b).1 = g := by
  rw [flexSyncY]
  split_ifs
  · rfl
  · refine List.foldlRecOn (motive := fun r : Geometry × ℚ => r.1 = g) _ _ rfl ?_
    rintro ⟨g', y⟩ rfl p hp
    simp only [alignItemsY, h.slice_of_mem_linewrap hp, List.foldl_nil]

end FlexLayer

section Plain

variable {layer : Layer} {flex : FlexLayout} {children : List LayerTree}

theorem bare_flexOf (h : ¬ LayerTree.Lined (.node layer (.flex flex) children)) :
    (flexOf layer flex children).Bare := by
  intro item hitem
  have hmap : (children.map LayerTree.layer).tail.dropLast =
      children.tail.dropLast.map LayerTree.layer := by
    rw [← List.map_tail, ← List.map_dropLast]
  rw [flexOf, hmap, List.mem_map] at hitem
  obtain ⟨c, hc, rfl⟩ := hitem
  by_contra hv
  exact h ⟨⟨flex, rfl⟩, c, hc, by simpa using hv⟩

theorem flexPlace_eq (h : ¬ LayerTree.Lined (.node layer (.flex flex) children))
    (tr : AlignEnum) (b : Bool) (g : Geometry) :
    flexPlace tr layer flex children b g = g := by
  rw [flexPlace]
  cases flex.flow with
  | x => rfl
  | y => exact (bare_flexOf h).flexSyncY_eq tr .y g b

end Plain

/-! ## Operations on one axis -/

/-- An operation that changes, and depends on, what is computed on one axis. -/
structure OnlyAxis (ax : Axis) (F : Geometry → Geometry) : Prop where
  frame : ∀ g id a, a ≠ ax → F g id a = g id a
  reads : ∀ g g', (∀ id, g id ax = g' id ax) → ∀ id, F g id ax = F g' id ax

namespace OnlyAxis

variable {ax : Axis} {F G : Geometry → Geometry}

theorem comp (hF : OnlyAxis ax F) (hG : OnlyAxis ax G) :
    OnlyAxis ax fun g => F (G g) where
  frame g id a ha := (hF.frame (G g) id a ha).trans (hG.frame g id a ha)
  reads g g' h := hF.reads _ _ (hG.reads g g' h)

theorem foldl {α : Type*} {F : α → Geometry → Geometry} {l : List α}
    (h : ∀ a ∈ l, OnlyAxis ax (F a)) :
    OnlyAxis ax fun g => l.foldl (fun g a => F a g) g := by
  induction l with
  | nil => exact ⟨fun _ _ _ _ => rfl, fun _ _ h => h⟩
  | cons a l ih =>
      have htail := ih fun a ha => h a (List.mem_cons_of_mem _ ha)
      exact htail.comp (h a List.mem_cons_self)

/-- Changing one extent by what is computed on its axis. -/
theorem modify {f : Geometry → Extent → Extent} (id : ℕ)
    (hf : ∀ g g', (∀ id, g id ax = g' id ax) → f g = f g') :
    OnlyAxis ax fun g => g.modify id ax (f g) where
  frame g i a ha := Geometry.modify_of_axis_ne ha id i (f g)
  reads g g' h i := by
    simp only [Geometry.modify, hf g g' h, h i]

/-- Operations on different axes can be exchanged. -/
theorem comm {ax' : Axis} (hF : OnlyAxis ax F) (hG : OnlyAxis ax' G)
    (hne : ax ≠ ax') (g : Geometry) : F (G g) = G (F g) := by
  funext id a
  by_cases ha : a = ax
  · subst ha
    rw [hG.frame (F g) id a hne]
    exact hF.reads _ _ (fun i => hG.frame g i a hne) id
  · rw [hF.frame (G g) id a ha]
    by_cases ha' : a = ax'
    · subst ha'
      exact (hG.reads _ _ (fun i => hF.frame g i a ha) id).symm
    · rw [hG.frame g id a ha', hG.frame (F g) id a ha', hF.frame g id a ha]

end OnlyAxis

theorem useMinSize_eq (layer : Layer) (ax : Axis) (g : Geometry) :
    useMinSize layer ax g =
      g.modify layer.id ax fun e => { e with size := e.minSize } := by
  funext i a
  simp only [useMinSize, Geometry.setSize, Geometry.modify]
  split_ifs with h
  · rw [h.1, h.2]
  · rfl

theorem snapExtent_eq (layer : Layer) (ax : Axis) (g : Geometry) :
    snapExtent layer ax g =
      g.modify layer.id ax fun e =>
        { e with
          pos := (snapSpan e.pos e.size (layer.side ax).snap).1
          size := (snapSpan e.pos e.size (layer.side ax).snap).2 } := by
  funext i a
  simp only [snapExtent, Geometry.setSize, Geometry.setPos, Geometry.modify]
  split_ifs with h
  · rw [h.1, h.2]
  · rfl

theorem useMinSize_onlyAxis (layer : Layer) (ax : Axis) :
    OnlyAxis ax (useMinSize layer ax) := by
  rw [funext (useMinSize_eq layer ax)]
  exact OnlyAxis.modify layer.id fun _ _ _ => rfl

theorem snapExtent_onlyAxis (layer : Layer) (ax : Axis) :
    OnlyAxis ax (snapExtent layer ax) := by
  rw [funext (snapExtent_eq layer ax)]
  exact OnlyAxis.modify layer.id fun _ _ _ => rfl

theorem useMinSize_transpose (layer : Layer) (ax : Axis) (g : Geometry) :
    useMinSize layer.transpose ax g.transpose =
      (useMinSize layer ax.other g).transpose := by
  rw [useMinSize_eq, useMinSize_eq, modify_transpose]
  rfl

theorem snapExtent_transpose (layer : Layer) (ax : Axis) (g : Geometry) :
    snapExtent layer.transpose ax g.transpose =
      (snapExtent layer ax.other g).transpose := by
  rw [snapExtent_eq, snapExtent_eq, modify_transpose]
  rfl

/-! ## The minimum sizes -/

namespace FlexLayer

variable (self : FlexLayer)

def transpose : FlexLayer :=
  ⟨self.layer.transpose, self.flex.transpose, self.items.map Layer.transpose⟩

theorem slice_transpose (i j : Int) :
    self.transpose.slice i j = (self.slice i j).map Layer.transpose := by
  have hchild : self.transpose.child = fun k => (self.child k).map Layer.transpose := by
    funext k
    simp only [child, transpose, List.getElem?_map]
    split_ifs <;> rfl
  rw [slice, slice, visibleAt, visibleAt, hchild, ← List.map_filterMap,
    List.filter_map]
  rfl

theorem itemsSum_transpose (ax : Axis) (g : Geometry) (i j : Int) :
    self.transpose.itemsSum ax g.transpose i j = self.itemsSum ax.other g i j := by
  rw [itemsSum, itemsSum, slice_transpose, List.foldl_map]
  rfl

theorem Bare.transpose {self : FlexLayer} (h : self.Bare) :
    self.transpose.Bare := by
  intro item hitem
  rw [FlexLayer.transpose, ← List.map_tail, ← List.map_dropLast,
    List.mem_map] at hitem
  obtain ⟨item, hmem, rfl⟩ := hitem
  exact h item hmem

/-- Without visible items in the lines, only the items along the flow count. -/
theorem Bare.contentMin_eq {self : FlexLayer} (h : self.Bare) (ax : Axis)
    (g : Geometry) :
    self.contentMin ax g =
      if self.flex.flow = ax then (self.itemsSum ax g 0 self.childCount).1 else 0 := by
  rw [contentMin, h.linesMin_eq]

theorem Bare.contentMin_transpose {self : FlexLayer} (h : self.Bare) (ax : Axis)
    (g : Geometry) :
    self.transpose.contentMin ax g.transpose = self.contentMin ax.other g := by
  have hflow : self.transpose.flex.flow = ax ↔ self.flex.flow = ax.other := by
    change self.flex.flow.other = ax ↔ _
    cases self.flex.flow <;> cases ax <;> decide
  have hcount : self.transpose.childCount = self.childCount := by
    simp [childCount, FlexLayer.transpose]
  rw [h.contentMin_eq, h.transpose.contentMin_eq, itemsSum_transpose, hcount]
  simp only [hflow]

end FlexLayer

theorem flexOf_transpose (layer : Layer) (flex : FlexLayout)
    (children : List LayerTree) :
    flexOf layer.transpose flex.transpose (transposeAll children) =
      (flexOf layer flex children).transpose := by
  rw [flexOf, flexOf, FlexLayer.transpose, transposeAll_eq, List.map_map,
    List.map_map]
  congr 2
  funext t
  exact layer_transpose t

theorem OnlyAxis.refl (ax : Axis) : OnlyAxis ax fun g => g :=
  ⟨fun _ _ _ _ => rfl, fun _ _ h => h⟩

/-- Without visible items in the lines the minimum sizes on an axis depend on
nothing that is computed on the other one. -/
theorem minPass_onlyAxis {t : LayerTree} (h : t.Plain) (hv : t.layer.visible)
    (ax : Axis) : OnlyAxis ax (t.minPass ax) := by
  induction t using LayerTree.induction with
  | h layer layout children ih =>
      have hv : layer.visible := hv
      obtain ⟨hlined, hchildren⟩ := (plain_iff hv).mp h
      cases layout with
      | null =>
          rw [funext (minPass_null layer children ax)]
          exact OnlyAxis.modify layer.id fun _ _ _ => rfl
      | grid => exact OnlyAxis.refl ax
      | flex flex =>
          have hitems : OnlyAxis ax (minPassAll ax children) := by
            rw [funext (minPassAll_eq ax children)]
            refine OnlyAxis.foldl fun c hc => ?_
            obtain ⟨hmem, hcv⟩ := List.mem_filter.mp hc
            exact ih c hmem (hchildren c hmem) hcv
          have hstore : OnlyAxis ax fun g =>
              g.modify layer.id ax fun e =>
                { e with
                  minSize :=
                    max ((flexOf layer flex children).contentMin ax g)
                        (layer.side ax).minContent +
                      (layer.side ax).padding } := by
            refine OnlyAxis.modify layer.id fun g g' hg => ?_
            simp only [(bare_flexOf hlined).contentMin_eq, FlexLayer.itemsSum, hg]
          rw [funext (minPass_flex layer flex children ax)]
          exact hstore.comp hitems

/-! ## Passes over a transposed tree -/

theorem foldl_transpose (F F' : LayerTree → Geometry → Geometry)
    {ts : List LayerTree}
    (h : ∀ t ∈ ts, ∀ g, F' t.transpose g.transpose = (F t g).transpose)
    (g : Geometry) :
    (ts.map LayerTree.transpose).foldl (fun g t => F' t g) g.transpose =
      (ts.foldl (fun g t => F t g) g).transpose := by
  induction ts generalizing g with
  | nil => rfl
  | cons t ts ih =>
      rw [List.map_cons, List.foldl_cons, List.foldl_cons,
        h t List.mem_cons_self, ih fun t ht => h t (List.mem_cons_of_mem _ ht)]

theorem minPass_transpose {t : LayerTree} (h : t.Plain) (hv : t.layer.visible)
    (ax : Axis) (g : Geometry) :
    t.transpose.minPass ax g.transpose = (t.minPass ax.other g).transpose := by
  induction t using LayerTree.induction generalizing g with
  | h layer layout children ih =>
      have hv : layer.visible := hv
      obtain ⟨hlined, hchildren⟩ := (plain_iff hv).mp h
      cases layout with
      | null =>
          rw [LayerTree.transpose, Layout.transpose, minPass_null, minPass_null]
          exact modify_transpose g layer.id ax _
      | grid => rfl
      | flex flex =>
          have hitems (g : Geometry) :
              minPassAll ax (transposeAll children) g.transpose =
                (minPassAll ax.other children g).transpose := by
            rw [minPassAll_eq, minPassAll_eq, visibleOnes_transposeAll]
            refine foldl_transpose (LayerTree.minPass ax.other)
              (LayerTree.minPass ax) (fun c hc g => ?_) g
            obtain ⟨hmem, hcv⟩ := List.mem_filter.mp hc
            exact ih c hmem (hchildren c hmem) hcv g
          rw [LayerTree.transpose, Layout.transpose, minPass_flex, minPass_flex,
            hitems, flexOf_transpose, (bare_flexOf hlined).contentMin_transpose]
          exact modify_transpose _ layer.id ax _

/-- Before the other axis is known nothing is written. -/
theorem axisPass_false {t : LayerTree} (tr : AlignEnum) (h : t.Plain)
    (hv : t.layer.visible) (g : Geometry) : t.axisPass tr false g = g := by
  induction t using LayerTree.induction generalizing g with
  | h layer layout children ih =>
      have hv : layer.visible := hv
      obtain ⟨hlined, hchildren⟩ := (plain_iff hv).mp h
      cases layout with
      | null => simp [LayerTree.axisPass]
      | grid => rfl
      | flex flex =>
          rw [LayerTree.axisPass, flexPlace_eq hlined, axisPassAll_eq]
          refine List.foldlRecOn (motive := fun g' => g' = g) _ _ rfl ?_
          rintro g' rfl c hc
          obtain ⟨hmem, hcv⟩ := List.mem_filter.mp hc
          exact ih c hmem (hchildren c hmem) hcv g'

/-! ### Transposed trees are plain -/

theorem shown_transpose (t : LayerTree) :
    t.transpose.shown = t.shown.map LayerTree.transpose := by
  induction t using LayerTree.induction with
  | h layer layout children ih =>
      have hall : (children.map LayerTree.transpose).flatMap LayerTree.shown =
          (children.flatMap LayerTree.shown).map LayerTree.transpose := by
        rw [List.flatMap_map, List.map_flatMap]
        exact List.flatMap_congr ih
      simp only [LayerTree.transpose, LayerTree.shown, shownAll_eq,
        transposeAll_eq, hall]
      change (if layer.visible then _ else _) = _
      split_ifs
      · rw [List.map_cons, LayerTree.transpose, transposeAll_eq]
      · rfl

theorem lined_transpose_iff (t : LayerTree) : t.transpose.Lined ↔ t.Lined := by
  cases t with
  | node layer layout children =>
      have hinner : (LayerTree.node layer layout children).transpose.inner =
          (LayerTree.node layer layout children).inner.map LayerTree.transpose := by
        rw [LayerTree.inner, LayerTree.inner, LayerTree.transpose,
          LayerTree.children, LayerTree.children, transposeAll_eq,
          ← List.map_tail, ← List.map_dropLast]
      rw [LayerTree.Lined, LayerTree.Lined, hinner]
      refine and_congr ?_ ?_
      · cases layout <;>
          simp [LayerTree.transpose, LayerTree.layout, Layout.transpose]
      · simp [Layer.transpose]

theorem LayerTree.Plain.transpose {t : LayerTree} (h : t.Plain) :
    t.transpose.Plain := by
  intro n hn
  rw [shown_transpose, List.mem_map] at hn
  obtain ⟨n, hmem, rfl⟩ := hn
  rw [lined_transpose_iff]
  exact h n hmem

/-! ### Laying out -/

section Lay

variable (tr : AlignEnum)

/-- Snapping on both axes. -/
def snapBoth (layer : Layer) (g : Geometry) : Geometry :=
  snapExtent layer .y (snapExtent layer .x g)

theorem snapBoth_transpose (layer : Layer) (g : Geometry) :
    snapBoth layer.transpose g.transpose = (snapBoth layer g).transpose := by
  rw [snapBoth, snapExtent_transpose, snapExtent_transpose, Axis.other, Axis.other,
    (snapExtent_onlyAxis layer .x).comm (snapExtent_onlyAxis layer .y) (by decide)]
  rfl

/-- Compute the minimum size on an axis and take it for the size. -/
def sizePass (t : LayerTree) (ax : Axis) (g : Geometry) : Geometry :=
  useMinSize t.layer ax (t.minPass ax g)

section Size

variable {t : LayerTree} (h : t.Plain) (hv : t.layer.visible)

include h hv

theorem sizePass_onlyAxis (ax : Axis) : OnlyAxis ax (sizePass t ax) :=
  (useMinSize_onlyAxis t.layer ax).comp (minPass_onlyAxis h hv ax)

theorem sizePass_transpose (ax : Axis) (g : Geometry) :
    sizePass t.transpose ax g.transpose = (sizePass t ax.other g).transpose := by
  rw [sizePass, layer_transpose, minPass_transpose h hv, useMinSize_transpose]
  rfl

/-- The sizes of a transposed tree, computed on one axis after the other. -/
theorem sizePass_both_transpose (g : Geometry) :
    sizePass t.transpose .y (sizePass t.transpose .x g.transpose) =
      (sizePass t .y (sizePass t .x g)).transpose := by
  rw [sizePass_transpose h hv, sizePass_transpose h hv, Axis.other, Axis.other,
    (sizePass_onlyAxis h hv .x).comm (sizePass_onlyAxis h hv .y) (by decide)]

end Size

/-- A flex layer computes its sizes and solves its axes, one after the other. -/
theorem layPass_flex {layer : Layer} (flex : FlexLayout)
    (children : List LayerTree) (hv : layer.visible) (g : Geometry) :
    (LayerTree.node layer (.flex flex) children).layPass tr g =
      (LayerTree.node layer (.flex flex) children).axisPass tr true
        (sizePass (.node layer (.flex flex) children) .y
          ((LayerTree.node layer (.flex flex) children).axisPass tr false
            (sizePass (.node layer (.flex flex) children) .x g))) :=
  if_pos hv

/-- Laying out the transposed tree, as a whole or for the second axis, gives the
transposed geometry. -/
structure LaysTransposed (t : LayerTree) : Prop where
  axis : t.layer.visible → ∀ g, t.transpose.axisPass tr true g.transpose =
    (t.axisPass tr true g).transpose
  lay : ∀ g, t.transpose.layPass tr g.transpose = (t.layPass tr g).transpose

section Node

variable {layer : Layer} {children : List LayerTree}

theorem layPassAll_transpose (h : ∀ c ∈ children, LaysTransposed tr c)
    (g : Geometry) :
    layPassAll tr (transposeAll children) g.transpose =
      (layPassAll tr children g).transpose := by
  rw [layPassAll_eq, layPassAll_eq, transposeAll_eq]
  exact foldl_transpose (LayerTree.layPass tr) (LayerTree.layPass tr)
    (fun c hc => (h c hc).lay) g

theorem axisPassAll_transpose (h : ∀ c ∈ children, LaysTransposed tr c)
    (g : Geometry) :
    axisPassAll tr true (transposeAll children) g.transpose =
      (axisPassAll tr true children g).transpose := by
  rw [axisPassAll_eq, axisPassAll_eq, visibleOnes_transposeAll]
  refine foldl_transpose (LayerTree.axisPass tr true)
    (LayerTree.axisPass tr true) (fun c hc g => ?_) g
  obtain ⟨hmem, hcv⟩ := List.mem_filter.mp hc
  exact (h c hmem).axis hcv g

theorem null_laysTransposed (hv : layer.visible)
    (h : ∀ c ∈ children, LaysTransposed tr c) :
    LaysTransposed tr (.node layer .null children) := by
  have hvt : layer.transpose.visible := hv
  have hnull (g : Geometry) :
      layPassAll tr (transposeAll children)
          (snapBoth layer.transpose g.transpose) =
        (layPassAll tr children (snapBoth layer g)).transpose := by
    rw [snapBoth_transpose, layPassAll_transpose tr h]
  constructor
  · intro _ g
    simp only [LayerTree.transpose, Layout.transpose, LayerTree.axisPass, hv, hvt,
      and_self, if_true]
    exact hnull g
  · intro g
    simp only [LayerTree.transpose, Layout.transpose, LayerTree.layPass, hv, hvt,
      if_true]
    exact hnull g

theorem flex_laysTransposed {flex : FlexLayout} (hv : layer.visible)
    (hplain : LayerTree.Plain (.node layer (.flex flex) children))
    (h : ∀ c ∈ children, LaysTransposed tr c) :
    LaysTransposed tr (.node layer (.flex flex) children) := by
  have hlined := ((plain_iff hv).mp hplain).1
  have hlinedt : ¬ LayerTree.Lined (.node layer.transpose
      (.flex flex.transpose) (transposeAll children)) :=
    fun hl => hlined ((lined_transpose_iff _).mp hl)
  have hvt : layer.transpose.visible := hv
  have hself (g : Geometry) :
      (LayerTree.node layer (.flex flex) children).transpose.axisPass tr true
          g.transpose =
        ((LayerTree.node layer (.flex flex) children).axisPass tr true
          g).transpose := by
    simp only [LayerTree.transpose, Layout.transpose, LayerTree.axisPass,
      flexPlace_eq hlined, flexPlace_eq hlinedt, axisPassAll_transpose tr h]
  refine ⟨fun _ => hself, ?_⟩
  intro g
  have hsize := sizePass_both_transpose hplain hv g
  have hfalse (g : Geometry) :
      (LayerTree.node layer.transpose (.flex flex.transpose)
        (transposeAll children)).axisPass tr false g = g :=
    axisPass_false tr hplain.transpose hvt g
  rw [layPass_flex tr flex children hv, axisPass_false tr hplain hv, ← hself,
    ← hsize]
  refine (layPass_flex tr flex.transpose (transposeAll children) hvt
    g.transpose).trans ?_
  rw [hfalse]
  rfl

end Node

theorem laysTransposed_of_plain {t : LayerTree} (h : t.Plain) :
    LaysTransposed tr t := by
  induction t using LayerTree.induction with
  | h layer layout children ih =>
      by_cases hv : layer.visible
      · have hchildren := fun c hc => ih c hc (((plain_iff hv).mp h).2 c hc)
        cases layout with
        | null => exact null_laysTransposed tr hv hchildren
        | flex flex => exact flex_laysTransposed tr hv h hchildren
        | grid => exact ⟨fun _ _ => rfl, fun _ => rfl⟩
      · refine ⟨fun hvisible => absurd hvisible hv, fun g => ?_⟩
        have hvt : ¬ layer.transpose.visible := hv
        cases layout <;>
          simp [LayerTree.transpose, Layout.transpose, LayerTree.layPass, hv, hvt]

end Lay

end LuaAttic.Layerlib
