import Mathlib.Algebra.BigOperators.Ring.Finset
import Mathlib.Algebra.Order.BigOperators.Group.List
import Mathlib.Tactic.FieldSimp
import Mathlib.Tactic.Linarith
import LuaAttic.Layerlib.Layers
import LuaAttic.Support.Extended

/-!
# Stretching items on the main axis (`layerlib_layout.t`)

The functions are generated for the children of a flex layer and for the columns
of a grid.  Every item has a share of the total width, by its `fr`.  An item that
overflows its share keeps its minimum width, and the others give up a part of
their free space for that.  The boxes that come out are not stored anywhere yet:
setting them is left to do in the source.

The three totals are declared with the integer zero, and so each of them is an
integer to which every item adds the whole part of what it has.
-/

namespace LuaAttic.Layerlib

open LuaAttic.Terra LuaAttic.Support LuaAttic.Support.Extended

/-! ## Sums in an integer variable -/

theorem toInt_of_nonneg {q : ℚ} (hq : 0 ≤ q) : toInt q = ⌊q⌋ := if_pos hq

theorem toInt_intCast_add (n : Int) {q : ℚ} (hn : 0 ≤ n) (hq : 0 ≤ q) :
    toInt (n + q) = n + ⌊q⌋ := by
  have hsum : (0 : ℚ) ≤ n + q := by positivity
  rw [toInt_of_nonneg hsum, Int.floor_intCast_add]

/-- Accumulating in an integer variable drops every fraction. -/
theorem foldl_toInt {α : Type*} (f : α → ℚ) (l : List α)
    (hf : ∀ a ∈ l, 0 ≤ f a) (n : Int) (hn : 0 ≤ n) :
    l.foldl (fun (sum : Int) a => toInt (sum + f a)) n =
      n + (l.map fun a => ⌊f a⌋).sum := by
  induction l generalizing n with
  | nil => simp
  | cons a l ih =>
      have ha : 0 ≤ f a := hf a List.mem_cons_self
      have hfloor : 0 ≤ ⌊f a⌋ := Int.floor_nonneg.mpr ha
      rw [List.foldl_cons, toInt_intCast_add n hn ha,
        ih (fun b hb => hf b (List.mem_cons_of_mem a hb)) _ (by omega),
        List.map_cons, List.sum_cons, add_assoc]

theorem foldl_toInt_eq_sum {α : Type*} {f g : α → ℚ} {l : List α}
    (hfg : ∀ a ∈ l, f a = g a) (hg : ∀ a ∈ l, 0 ≤ g a) :
    l.foldl (fun (sum : Int) a => toInt (sum + f a)) 0 =
      (l.map fun a => ⌊g a⌋).sum := by
  have hf : ∀ a ∈ l, 0 ≤ f a := by
    intro a ha
    rw [hfg a ha]
    exact hg a ha
  rw [foldl_toInt f l hf 0 le_rfl, zero_add]
  refine congrArg List.sum (List.map_congr_left ?_)
  intro a ha
  rw [hfg a ha]

namespace Stretch

/-- What the functions read of an item, on their axis. -/
structure Item where
  inlayout : Bool
  fr : ℚ
  minW : ℚ
  /-- `align_x`, `align_y`; zero for the default -/
  align : ℕ

/-- An item's stretched segment, `sx` and `sw`, and its box in that, `x` and
`w`. -/
structure Box where
  sx : Extended ℚ
  sw : Extended ℚ
  x : Extended ℚ
  w : Extended ℚ
  deriving DecidableEq

structure Totals where
  overflowW : Int
  freeW : Int

section Model

variable (tr : AlignEnum)

/-- `stretched_item_widths` -/
def stretchedItemWidths (item : Item)
    (totalW totalFr totalOverflowW totalFreeW : ℚ) (align : ℕ) :
    Extended ℚ × Extended ℚ :=
  let minW := num item.minW
  let flexW := num totalW * num item.fr / num totalFr
  let sw :=
    if flexW < minW then minW
    else
      let freeW := flexW - minW
      let freeP := freeW / num totalFreeW
      let shrinkW := num totalOverflowW * freeP
      -- `shrink_w ~= shrink_w`
      flexW - if shrinkW = nan then num 0 else shrinkW
  (sw, if align = tr.stretch then sw else minW)

/-- The fraction that stands for the total width. -/
def totalFr (items : List Item) : Int :=
  let sum := items.foldl
    (fun (sum : Int) item => toInt (sum + max 0 item.fr)) 0
  toInt (max 1 (sum : ℚ))

/-- The total overflow width and the total free width. -/
def stretchTotals (totalW : ℚ) (totalFr : Int) (items : List Item) :
    Totals :=
  items.foldl
    (fun t item =>
      -- the fraction is at least one
      let flexW := totalW * max 0 item.fr / totalFr
      let overflowW := max 0 (item.minW - flexW)
      let freeW := max 0 (flexW - item.minW)
      { overflowW := toInt (t.overflowW + overflowW)
        freeW := toInt (t.freeW + freeW) })
    { overflowW := 0, freeW := 0 }

/-- `x` in the stretched segment. -/
def alignInSegment (align : ℕ) (sx sw w : Extended ℚ) : Extended ℚ :=
  if align = tr.atEnd ∨ align = tr.right then sx + sw - w
  else if align = tr.center then sx + (sw - w) / num 2
  else sx

/-- The last loop, from `sx` on. -/
def placeStretched (totalW : ℚ) (totalFr : Int) (totals : Totals)
    (itemAlign : ℕ) : Extended ℚ → List Item → List Box
  | _, [] => []
  | sx, item :: items =>
      let align := if item.align ≠ 0 then item.align else itemAlign
      let widths := stretchedItemWidths tr item totalW totalFr totals.overflowW
        totals.freeW align
      { sx := sx
        sw := widths.1
        x := alignInSegment tr align sx widths.1 widths.2
        w := widths.2 } ::
        placeStretched totalW totalFr totals itemAlign (sx + widths.1) items

/-- The items of `for i = i, j` that are in the layout. -/
def inlayoutItems (item : Int → Item) (i j : Int) : List Item :=
  ((forRange i j).map item).filter (·.inlayout)

/-- `stretch_items_main_axis`: the boxes of the items in the layout. -/
def stretchItemsMainAxis (item : Int → Item) (i j : Int) (totalW : ℚ)
    (itemAlign : ℕ) : List Box :=
  let items := inlayoutItems item i j
  let fr := totalFr items
  placeStretched tr totalW fr (stretchTotals totalW fr items) itemAlign (num 0)
    items

end Model

/-! ## The totals -/

section Shares

variable (totalW : ℚ) (items : List Item)

/-- The sum of the whole parts of the `fr`, at least one. -/
def wholeFr : Int := max 1 (items.map fun item => ⌊item.fr⌋).sum

/-- The share of an item in the total width. -/
def share (item : Item) : ℚ := totalW * item.fr / wholeFr items

def overflow (item : Item) : ℚ := max 0 (item.minW - share totalW items item)

def free (item : Item) : ℚ := max 0 (share totalW items item - item.minW)

def wholeOverflow : Int := (items.map fun item => ⌊overflow totalW items item⌋).sum

def wholeFree : Int := (items.map fun item => ⌊free totalW items item⌋).sum

/-- The part of its free space that an item gives up; none if there is no whole
unit of free space. -/
def givenUp : ℚ := wholeOverflow totalW items / wholeFree totalW items

/-- The free space that is not given up is what the minimum widths leave. -/
def Balanced : Prop :=
  (items.map (free totalW items)).sum * (1 - givenUp totalW items) =
    totalW - (items.map (·.minW)).sum

end Shares

section

variable {totalW : ℚ} {items : List Item}

theorem wholeFr_pos : 0 < wholeFr items :=
  lt_of_lt_of_le one_pos (le_max_left _ _)

theorem overflow_nonneg (totalW : ℚ) (items : List Item) (item : Item) :
    0 ≤ overflow totalW items item :=
  le_max_left _ _

theorem free_nonneg (totalW : ℚ) (items : List Item) (item : Item) :
    0 ≤ free totalW items item :=
  le_max_left _ _

/-- The share is the minimum width and the free space, less the overflow. -/
theorem free_sub_overflow (totalW : ℚ) (items : List Item) (item : Item) :
    free totalW items item - overflow totalW items item =
      share totalW items item - item.minW := by
  rw [free, overflow]
  rcases le_total (share totalW items item) item.minW with h | h
  · rw [max_eq_left (by linarith), max_eq_right (by linarith)]
    ring
  · rw [max_eq_right (by linarith), max_eq_left (by linarith)]
    ring

theorem totalFr_eq (hfr : ∀ item ∈ items, 0 ≤ item.fr) :
    totalFr items = wholeFr items := by
  have hsum : items.foldl (fun (sum : Int) item => toInt (sum + max 0 item.fr)) 0 =
      (items.map fun item => ⌊item.fr⌋).sum :=
    foldl_toInt_eq_sum (fun item hitem => max_eq_right (hfr item hitem)) hfr
  have hcast : max (1 : ℚ) ((items.map fun item => ⌊item.fr⌋).sum : ℤ) =
      (wholeFr items : ℚ) := by
    rw [wholeFr, Int.cast_max, Int.cast_one]
  have hpos : (0 : ℚ) ≤ wholeFr items := by exact_mod_cast wholeFr_pos.le
  rw [totalFr, hsum, hcast, toInt_of_nonneg hpos, Int.floor_intCast]

theorem stretchTotals_eq (totalW : ℚ) {items : List Item}
    (hfr : ∀ item ∈ items, 0 ≤ item.fr) :
    (stretchTotals totalW (wholeFr items) items).overflowW =
        wholeOverflow totalW items ∧
      (stretchTotals totalW (wholeFr items) items).freeW =
        wholeFree totalW items := by
  have hshare : ∀ item ∈ items,
      totalW * max 0 item.fr / wholeFr items = share totalW items item := by
    intro item hitem
    rw [share, max_eq_right (hfr item hitem)]
  constructor
  · refine (List.foldl_hom Totals.overflowW fun t item => rfl).symm.trans
      (foldl_toInt_eq_sum ?_ fun item _ => overflow_nonneg totalW items item)
    intro item hitem
    rw [hshare item hitem, overflow]
  · refine (List.foldl_hom Totals.freeW fun t item => rfl).symm.trans
      (foldl_toInt_eq_sum ?_ fun item _ => free_nonneg totalW items item)
    intro item hitem
    rw [hshare item hitem, free]

/-- With a sum of at least one, the whole parts do not make up more. -/
theorem wholeFr_le (hfr : 1 ≤ (items.map (·.fr)).sum) :
    (wholeFr items : ℚ) ≤ (items.map (·.fr)).sum := by
  rw [wholeFr, Int.cast_max, Int.cast_one, Int.cast_list_sum, List.map_map]
  apply max_le hfr
  apply List.sum_le_sum
  intro item _
  exact Int.floor_le item.fr

theorem sum_share : (items.map (share totalW items)).sum =
    totalW * ((items.map (·.fr)).sum / wholeFr items) := by
  have hshare : share totalW items =
      fun item => item.fr * (totalW / wholeFr items) := by
    funext item
    rw [share]
    ring
  rw [hshare, List.sum_map_mul_right]
  ring

theorem sum_free_sub_sum_overflow (totalW : ℚ) (items : List Item) :
    (items.map (free totalW items)).sum - (items.map (overflow totalW items)).sum =
      (items.map (share totalW items)).sum - (items.map (·.minW)).sum := by
  have hsum : (items.map fun item => free totalW items item + item.minW).sum =
      (items.map fun item =>
        share totalW items item + overflow totalW items item).sum := by
    refine congrArg List.sum (List.map_congr_left ?_)
    intro item _
    have hitem := free_sub_overflow totalW items item
    linarith
  rw [List.sum_map_add, List.sum_map_add] at hsum
  linarith

theorem wholeOverflow_nonneg : 0 ≤ wholeOverflow totalW items := by
  apply List.sum_nonneg
  intro n hn
  obtain ⟨item, -, rfl⟩ := List.mem_map.mp hn
  exact Int.floor_nonneg.mpr (overflow_nonneg totalW items item)

theorem wholeOverflow_le (totalW : ℚ) (items : List Item) :
    (wholeOverflow totalW items : ℚ) ≤ (items.map (overflow totalW items)).sum := by
  rw [wholeOverflow, Int.cast_list_sum, List.map_map]
  apply List.sum_le_sum
  intro item _
  exact Int.floor_le (overflow totalW items item)

/-- Without a whole unit of free space, nothing overflows by a whole unit
either. -/
theorem wholeOverflow_eq_zero (hW : 0 ≤ totalW)
    (hone : 1 ≤ (items.map (·.fr)).sum) (hbal : Balanced totalW items)
    (hfree : wholeFree totalW items = 0) : wholeOverflow totalW items = 0 := by
  have hF : (0 : ℚ) < wholeFr items := by exact_mod_cast wholeFr_pos
  have hratio : 1 ≤ (items.map (·.fr)).sum / wholeFr items := by
    rw [le_div_iff₀ hF, one_mul]
    exact wholeFr_le hone
  have hshare : totalW ≤ (items.map (share totalW items)).sum := by
    rw [sum_share]
    exact le_mul_of_one_le_right hW hratio
  have hsum := sum_free_sub_sum_overflow totalW items
  have hkept : (items.map (free totalW items)).sum =
      totalW - (items.map (·.minW)).sum := by
    rw [Balanced, givenUp, hfree, Int.cast_zero, div_zero, sub_zero, mul_one] at hbal
    exact hbal
  have hle : (wholeOverflow totalW items : ℚ) ≤ 0 := by
    have hover := wholeOverflow_le totalW items
    linarith
  exact le_antisymm (by exact_mod_cast hle) wholeOverflow_nonneg

end

/-! ## Widths -/

section Widths

variable (tr : AlignEnum) {totalW : ℚ} {items : List Item}

/-- The width that an item gets is its minimum width and what it keeps of its
free space. -/
def keptWidth (totalW : ℚ) (items : List Item) (item : Item) : ℚ :=
  item.minW + free totalW items item * (1 - givenUp totalW items)

theorem flexW_eq (item : Item) :
    num totalW * num item.fr / num (wholeFr items : ℚ) =
      num (share totalW items item) := by
  have hF : (wholeFr items : ℚ) ≠ 0 := by exact_mod_cast wholeFr_pos.ne'
  rw [num_mul_num, num_div_num _ hF, share]

/-- The part of the overflow that an item with free space takes. -/
theorem shrink_eq {O F e : ℚ} (he : 0 ≤ e) (h : F = 0 → O = 0 ∨ e = 0) :
    (if num O * (num e / num F) = nan then num 0 else num O * (num e / num F)) =
      num (e * (O / F)) := by
  by_cases hF : F = 0
  · subst hF
    rcases he.eq_or_lt with rfl | hpos
    · simp
    · have hO : O = 0 := (h rfl).resolve_right hpos.ne'
      simp [hO, num_div_zero hpos]
  · rw [num_div_num _ hF, num_mul_num, if_neg (num_ne_nan _)]
    congr 1
    ring

theorem stretchedItemWidths_fst (item : Item) (align : ℕ)
    (h : wholeFree totalW items = 0 →
      wholeOverflow totalW items = 0 ∨ share totalW items item ≤ item.minW) :
    (stretchedItemWidths tr item totalW (wholeFr items) (wholeOverflow totalW items)
        (wholeFree totalW items) align).1 = num (keptWidth totalW items item) := by
  simp only [stretchedItemWidths, flexW_eq, num_lt_num, keptWidth, free]
  by_cases hlt : share totalW items item < item.minW
  · rw [if_pos hlt, max_eq_left (by linarith), zero_mul, add_zero]
  · have he : 0 ≤ share totalW items item - item.minW := by linarith
    rw [if_neg hlt, num_sub_num, shrink_eq he, num_sub_num, max_eq_right he, givenUp]
    · congr 1
      ring
    · intro hF
      rcases h (by exact_mod_cast hF) with hO | hle
      · exact Or.inl (by exact_mod_cast hO)
      · exact Or.inr (by linarith)

/-- Otherwise the width is minus infinity. -/
theorem stretchedItemWidths_fst_negInf (item : Item) (align : ℕ)
    (hF : wholeFree totalW items = 0) (hO : wholeOverflow totalW items ≠ 0)
    (hlt : item.minW < share totalW items item) :
    (stretchedItemWidths tr item totalW (wholeFr items) (wholeOverflow totalW items)
        (wholeFree totalW items) align).1 = negInf := by
  have hpos : (0 : ℚ) < wholeOverflow totalW items := by
    exact_mod_cast lt_of_le_of_ne wholeOverflow_nonneg hO.symm
  have hinf : num (wholeOverflow totalW items : ℚ) *
      (num (share totalW items item - item.minW) / num 0) = posInf := by
    rw [num_div_zero (by linarith), num_mul_posInf hpos]
  simp only [stretchedItemWidths, flexW_eq, num_lt_num, if_neg hlt.not_gt,
    num_sub_num, hF, Int.cast_zero, hinf]
  simp

end Widths

/-! ## Boxes -/

/-- What stretching is for: every item gets its minimum width, together they
fill the total width, and the boxes lie in their segments, one after the
other. -/
structure Stretched (items : List Item) (totalW : ℚ)
    (boxes : List Box) : Prop where
  wide : List.Forall₂ (fun item box => num item.minW ≤ box.sw) items boxes
  fill : total (boxes.map (·.sw)) = num totalW
  inside : ∀ box ∈ boxes, box.sx ≤ box.x ∧ box.x + box.w ≤ box.sx + box.sw
  apart : boxes.Pairwise fun a b => a.x + a.w ≤ b.x

section Boxes

variable (tr : AlignEnum)

theorem alignInSegment_bounds (align : ℕ) (sx : ℚ) {sw w : ℚ} (hw : w ≤ sw) :
    num sx ≤ alignInSegment tr align (num sx) (num sw) (num w) ∧
      alignInSegment tr align (num sx) (num sw) (num w) + num w ≤
        num sx + num sw := by
  rw [alignInSegment]
  split_ifs
  · simp only [num_add_num, num_sub_num, num_le_num]
    constructor <;> linarith
  · rw [num_sub_num, num_div_num _ two_ne_zero]
    simp only [num_add_num, num_le_num]
    constructor <;> linarith
  · simp only [num_add_num, num_le_num]
    constructor <;> linarith

/-- The alignment of an item. -/
def itemAlignment (itemAlign : ℕ) (item : Item) : ℕ :=
  if item.align ≠ 0 then item.align else itemAlign

variable (totalW : ℚ) (fr : Int) (totals : Totals) (itemAlign : ℕ)

/-- The widths that an item gets in the last loop. -/
def itemWidths (item : Item) : Extended ℚ × Extended ℚ :=
  stretchedItemWidths tr item totalW fr totals.overflowW totals.freeW
    (itemAlignment itemAlign item)

theorem itemWidths_snd {item : Item} {sw : ℚ}
    (hsw : (itemWidths tr totalW fr totals itemAlign item).1 = num sw)
    (hmin : item.minW ≤ sw) :
    ∃ w ≤ sw, (itemWidths tr totalW fr totals itemAlign item).2 = num w := by
  have hsnd : (itemWidths tr totalW fr totals itemAlign item).2 =
      if itemAlignment itemAlign item = tr.stretch then
        (itemWidths tr totalW fr totals itemAlign item).1
      else num item.minW := rfl
  rw [hsnd, hsw]
  split_ifs
  · exact ⟨sw, le_rfl, rfl⟩
  · exact ⟨item.minW, hmin, rfl⟩

theorem forall₂_placeStretched {R : Item → Extended ℚ → Prop}
    (sx : Extended ℚ) (items : List Item) :
    List.Forall₂ (fun item box => R item box.sw) items
        (placeStretched tr totalW fr totals itemAlign sx items) ↔
      ∀ item ∈ items, R item (itemWidths tr totalW fr totals itemAlign item).1 := by
  induction items generalizing sx with
  | nil => simp [placeStretched]
  | cons item items ih =>
      rw [placeStretched, List.forall₂_cons, ih, List.forall_mem_cons]
      exact Iff.rfl

theorem map_sw_placeStretched (sx : Extended ℚ) (items : List Item) :
    (placeStretched tr totalW fr totals itemAlign sx items).map (·.sw) =
      items.map fun item => (itemWidths tr totalW fr totals itemAlign item).1 := by
  induction items generalizing sx with
  | nil => rfl
  | cons item items ih =>
      rw [placeStretched, List.map_cons, ih, List.map_cons]
      rfl

theorem placeStretched_inside {items : List Item} (width : Item → ℚ)
    (hwidth : ∀ item ∈ items,
      (itemWidths tr totalW fr totals itemAlign item).1 = num (width item))
    (hmin : ∀ item ∈ items, 0 ≤ width item ∧ item.minW ≤ width item) (sx : ℚ) :
    (∀ box ∈ placeStretched tr totalW fr totals itemAlign (num sx) items,
        num sx ≤ box.sx ∧ box.sx ≤ box.x ∧ box.x + box.w ≤ box.sx + box.sw) ∧
      (placeStretched tr totalW fr totals itemAlign (num sx) items).Pairwise
        fun a b => a.x + a.w ≤ b.x := by
  induction items generalizing sx with
  | nil => simp [placeStretched]
  | cons item items ih =>
      rw [List.forall_mem_cons] at hwidth hmin
      obtain ⟨hsw, hwidths⟩ := hwidth
      obtain ⟨⟨hpos, hle⟩, hmins⟩ := hmin
      obtain ⟨w, hw, hw2⟩ := itemWidths_snd tr totalW fr totals itemAlign hsw hle
      obtain ⟨hrest, happart⟩ := ih hwidths hmins (sx + width item)
      have hplace : placeStretched tr totalW fr totals itemAlign (num sx) (item :: items) =
          { sx := num sx
            sw := num (width item)
            x := alignInSegment tr (itemAlignment itemAlign item) (num sx)
              (num (width item)) (num w)
            w := num w } ::
            placeStretched tr totalW fr totals itemAlign (num (sx + width item))
              items := by
        rw [← hw2, ← num_add_num, ← hsw]
        rfl
      have hbox := alignInSegment_bounds tr (itemAlignment itemAlign item) sx hw
      have hsx : num sx ≤ num (sx + width item) := by
        rw [num_le_num]
        linarith
      rw [hplace]
      constructor
      · rw [List.forall_mem_cons]
        refine ⟨⟨(num_le_num sx sx).mpr le_rfl, hbox⟩, ?_⟩
        intro box hmem
        exact ⟨Extended.le_trans hsx (hrest box hmem).1, (hrest box hmem).2⟩
      · rw [List.pairwise_cons]
        refine ⟨?_, happart⟩
        intro box hmem
        obtain ⟨hfrom, hinside, -⟩ := hrest box hmem
        exact Extended.le_trans hbox.2 (Extended.le_trans hfrom hinside)

end Boxes

/-! ## When stretching works -/

section

variable (tr : AlignEnum) {totalW : ℚ} {items : List Item}

theorem sum_keptWidth : (items.map (keptWidth totalW items)).sum =
    (items.map (·.minW)).sum +
      (items.map (free totalW items)).sum * (1 - givenUp totalW items) := by
  rw [← List.sum_map_mul_right, ← List.sum_map_add]
  rfl

theorem balanced_iff : Balanced totalW items ↔
    (items.map (keptWidth totalW items)).sum = totalW := by
  rw [Balanced, sum_keptWidth]
  constructor <;> intro h <;> linarith

theorem Balanced.minW_le_keptWidth (hbal : Balanced totalW items)
    (hfit : (items.map (·.minW)).sum ≤ totalW) {item : Item}
    (hitem : item ∈ items) : item.minW ≤ keptWidth totalW items item := by
  have hle : free totalW items item ≤ (items.map (free totalW items)).sum := by
    refine List.single_le_sum ?_ _ (List.mem_map_of_mem hitem)
    intro e he
    obtain ⟨other, -, rfl⟩ := List.mem_map.mp he
    exact free_nonneg totalW items other
  have hkept : 0 ≤ free totalW items item * (1 - givenUp totalW items) := by
    rcases (free_nonneg totalW items item).eq_or_lt with h | h
    · rw [← h, zero_mul]
    · have hleft : 0 ≤ 1 - givenUp totalW items := by
        rw [Balanced] at hbal
        have hsum : 0 ≤ (items.map (free totalW items)).sum *
            (1 - givenUp totalW items) := by linarith
        exact nonneg_of_mul_nonneg_right hsum (lt_of_lt_of_le h hle)
      exact mul_nonneg h.le hleft
  rw [keptWidth]
  linarith

/-- Where no fraction of an `fr`, of an overflow or of a free space gets lost,
stretching works. -/
theorem balanced_of_whole (hfit : (items.map (·.minW)).sum ≤ totalW)
    (hfr : (wholeFr items : ℚ) = (items.map (·.fr)).sum)
    (hover : (wholeOverflow totalW items : ℚ) = (items.map (overflow totalW items)).sum)
    (hfree : (wholeFree totalW items : ℚ) = (items.map (free totalW items)).sum) :
    Balanced totalW items := by
  have hF : (wholeFr items : ℚ) ≠ 0 := by exact_mod_cast wholeFr_pos.ne'
  have hsum := sum_free_sub_sum_overflow totalW items
  rw [sum_share, ← hfr, div_self hF, mul_one, ← hover, ← hfree] at hsum
  rw [Balanced, givenUp, ← hfree, ← hsum]
  by_cases hzero : (wholeFree totalW items : ℚ) = 0
  · have hnone : (0 : ℚ) ≤ wholeOverflow totalW items := by
      exact_mod_cast wholeOverflow_nonneg
    rw [hzero, zero_mul]
    linarith
  · field_simp

/-- No width is infinite where the widths are as they should be. -/
def FiniteWidths (totalW : ℚ) (items : List Item) : Prop :=
  wholeFree totalW items = 0 →
    wholeOverflow totalW items = 0 ∨
      ∀ item ∈ items, share totalW items item ≤ item.minW

theorem FiniteWidths.itemWidths_fst (hfinite : FiniteWidths totalW items)
    {totals : Totals} (hover : totals.overflowW = wholeOverflow totalW items)
    (hfree : totals.freeW = wholeFree totalW items) (itemAlign : ℕ)
    {item : Item} (hitem : item ∈ items) :
    (itemWidths tr totalW (wholeFr items) totals itemAlign item).1 =
      num (keptWidth totalW items item) := by
  rw [itemWidths, hover, hfree]
  apply stretchedItemWidths_fst
  intro hzero
  exact (hfinite hzero).imp_right fun h => h item hitem

theorem finite_of_wide {totals : Totals}
    (hover : totals.overflowW = wholeOverflow totalW items)
    (hfree : totals.freeW = wholeFree totalW items) (itemAlign : ℕ)
    (hwide : ∀ item ∈ items, num item.minW ≤
      (itemWidths tr totalW (wholeFr items) totals itemAlign item).1) :
    FiniteWidths totalW items := by
  intro hzero
  by_contra hcontra
  push Not at hcontra
  obtain ⟨hO, item, hitem, hlt⟩ := hcontra
  have hinf := hwide item hitem
  rw [itemWidths, hover, hfree,
    stretchedItemWidths_fst_negInf tr item _ hzero hO hlt] at hinf
  exact not_num_le_negInf _ hinf

/-- Stretching does what it is for exactly if the free space that the whole
parts leave is the one that the minimum widths leave. -/
theorem stretchItemsMainAxis_iff (item : Int → Item) (i j : Int)
    (totalW : ℚ) (itemAlign : ℕ)
    (hfr : ∀ it ∈ inlayoutItems item i j, 0 ≤ it.fr)
    (hmin : ∀ it ∈ inlayoutItems item i j, 0 ≤ it.minW)
    (hfit : ((inlayoutItems item i j).map (·.minW)).sum ≤ totalW)
    (hone : 1 ≤ ((inlayoutItems item i j).map (·.fr)).sum) :
    Stretched (inlayoutItems item i j) totalW
        (stretchItemsMainAxis tr item i j totalW itemAlign) ↔
      Balanced totalW (inlayoutItems item i j) := by
  rw [stretchItemsMainAxis]
  generalize inlayoutItems item i j = items at hfr hmin hfit hone ⊢
  rw [totalFr_eq hfr]
  obtain ⟨hover, hfree⟩ := stretchTotals_eq totalW hfr
  generalize stretchTotals totalW (wholeFr items) items = totals at hover hfree ⊢
  have hW : 0 ≤ totalW := by
    refine le_trans (List.sum_nonneg ?_) hfit
    intro m hm
    obtain ⟨it, hit, rfl⟩ := List.mem_map.mp hm
    exact hmin it hit
  constructor
  · intro h
    have hwide := (forall₂_placeStretched tr totalW (wholeFr items) totals itemAlign
      (num 0) items).mp h.wide
    have hfinite := finite_of_wide tr hover hfree itemAlign hwide
    have hfill := h.fill
    rw [map_sw_placeStretched, List.map_congr_left fun it hit =>
      hfinite.itemWidths_fst tr hover hfree itemAlign hit, total_map_num] at hfill
    exact balanced_iff.mpr (by injection hfill)
  · intro hbal
    have hfinite : FiniteWidths totalW items :=
      fun hzero => Or.inl (wholeOverflow_eq_zero hW hone hbal hzero)
    have hwidths : ∀ it ∈ items,
        (itemWidths tr totalW (wholeFr items) totals itemAlign it).1 =
          num (keptWidth totalW items it) :=
      fun it hit => hfinite.itemWidths_fst tr hover hfree itemAlign hit
    have hle : ∀ it ∈ items, it.minW ≤ keptWidth totalW items it :=
      fun it hit => hbal.minW_le_keptWidth hfit hit
    have hplace := placeStretched_inside tr totalW (wholeFr items) totals itemAlign
      (keptWidth totalW items) hwidths
      (fun it hit => ⟨(hmin it hit).trans (hle it hit), hle it hit⟩) 0
    constructor
    · apply (forall₂_placeStretched tr totalW (wholeFr items) totals itemAlign
        (num 0) items).mpr
      intro it hit
      rw [hwidths it hit, num_le_num]
      exact hle it hit
    · rw [map_sw_placeStretched, List.map_congr_left hwidths, total_map_num,
        balanced_iff.mp hbal]
    · intro box hbox
      exact (hplace.1 box hbox).2
    · exact hplace.2

/-- In 100, the minimum widths 60 and 20 get 60 and 40. -/
theorem stretchItemsMainAxis_iff_two :
    Stretched
        (inlayoutItems
          (fun k => { inlayout := true, fr := 1, minW := if k = 0 then 60 else 20, align := 0 })
          0 2)
        100
        (stretchItemsMainAxis { left := 1, right := 2, center := 3, max := 6 }
          (fun k => { inlayout := true, fr := 1, minW := if k = 0 then 60 else 20, align := 0 })
          0 2 100 0) ↔
      Balanced 100
        (inlayoutItems
          (fun k => { inlayout := true, fr := 1, minW := if k = 0 then 60 else 20, align := 0 })
          0 2) := by
  apply stretchItemsMainAxis_iff
  · decide +kernel
  · decide +kernel
  · decide +kernel
  · decide +kernel

/-- Of three items in 100 one has a minimum width of 40 and overflows its share by
six and two thirds.  The others give up six parts in 66 of their free space, and
the widths add up to more than 100. -/
theorem stretched_overfull :
    ¬ ∀ (tr : AlignEnum) (item : Int → Item) (i j : Int) (totalW : ℚ) (itemAlign : ℕ),
      (∀ it ∈ inlayoutItems item i j, 0 ≤ it.fr) →
      (∀ it ∈ inlayoutItems item i j, 0 ≤ it.minW) →
      ((inlayoutItems item i j).map (·.minW)).sum ≤ totalW →
      1 ≤ ((inlayoutItems item i j).map (·.fr)).sum →
      Stretched (inlayoutItems item i j) totalW
        (stretchItemsMainAxis tr item i j totalW itemAlign) := by
  intro h
  have hstretched := h { left := 1, right := 2, center := 3, max := 6 }
    (fun k => { inlayout := true, fr := 1, minW := if k = 0 then 40 else 0, align := 0 })
    0 3 100 0 (by decide +kernel) (by decide +kernel) (by decide +kernel)
    (by decide +kernel)
  exact absurd hstretched.fill (by decide +kernel)

end

end Stretch

end LuaAttic.Layerlib
