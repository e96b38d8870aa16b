import Mathlib.Data.Rat.Defs
import Mathlib.Algebra.Order.Field.Rat
import Mathlib.Tactic.Linarith
import Mathlib.Tactic.Positivity
import Mathlib.Tactic.Ring
import LuaAttic.Support.Extended

/-!
# The geometry of borders (`layerlib_border.t`)

The edges of a border, the rect at an offset in its width, and the radii of the
round corners there.  Edges and radii that do not fit are scaled down by the
smaller of two quotients, where a division by zero gives an infinity.

The linear interpolation and the offset of a box come from libraries that are
not part of the repository.
-/

namespace LuaAttic.Layerlib

open LuaAttic.Support LuaAttic.Support.Extended

/-! ## Model -/

structure Border where
  left : ℚ
  right : ℚ
  top : ℚ
  bottom : ℚ
  /-- `corner_radius_top_left` -/
  radiusTopLeft : ℚ
  radiusTopRight : ℚ
  radiusBottomLeft : ℚ
  radiusBottomRight : ℚ
  /-- `corner_radius_kappa` -/
  kappa : ℚ
  offset : ℚ

/-- What the geometry depends on in a layer. -/
structure BorderedLayer where
  w : ℚ
  h : ℚ
  border : Border

structure EdgeWidths where
  w1 : Extended ℚ
  h1 : Extended ℚ
  w2 : Extended ℚ
  h2 : Extended ℚ

structure Rect where
  x : Extended ℚ
  y : Extended ℚ
  w : Extended ℚ
  h : Extended ℚ

/-- The radii of a corner on the two axes. -/
structure Corner where
  rx : Extended ℚ
  ry : Extended ℚ

/-- A rect with its corners, clockwise from the top left one. -/
structure RoundRect where
  rect : Rect
  r1 : Corner
  r2 : Corner
  r3 : Corner
  r4 : Corner
  k : ℚ

section Model

variable (lerp : ℚ → ℚ → ℚ → ℚ → ℚ → ℚ) (box2dOffset : ℚ → Rect → Rect)

/-- `Border:edge_widths` -/
def Border.edgeWidths (self : Border) (offset maxW maxH : ℚ) : EdgeWidths :=
  let o := self.offset + offset + 1
  let w1 := lerp o (-1) 1 self.left 0
  let h1 := lerp o (-1) 1 self.top 0
  let w2 := lerp o (-1) 1 self.right 0
  let h2 := lerp o (-1) 1 self.bottom 0
  if maxW < w1 + w2 ∨ maxH < h1 + h2 then
    let scale := min (num maxW / num (w1 + w2)) (num maxH / num (h1 + h2))
    { w1 := num w1 * scale
      h1 := num h1 * scale
      w2 := num w2 * scale
      h2 := num h2 * scale }
  else { w1 := num w1, h1 := num h1, w2 := num w2, h2 := num h2 }

namespace BorderedLayer

variable (self : BorderedLayer)

/-- `Layer:border_rect` -/
def borderRect (offset sizeOffset : ℚ) : Rect :=
  let e := self.border.edgeWidths lerp offset self.w self.h
  let w := num self.w - e.w2 - e.w1
  let h := num self.h - e.h2 - e.h1
  box2dOffset sizeOffset { x := e.w1, y := e.h1, w, h }

/-- `offset_radius` -/
def offsetRadius (r : ℚ) (o : Extended ℚ) : Extended ℚ :=
  if 0 < r then max (num 0) (num r + o) else num 0

/-- A corner without a degenerate arc. -/
def corner (r : ℚ) (ox oy : Extended ℚ) : Corner :=
  let rx := offsetRadius r ox
  let ry := offsetRadius r oy
  if rx = num 0 ∨ ry = num 0 then { rx := num 0, ry := num 0 } else { rx, ry }

def Corner.scale (r : Corner) (scale : Extended ℚ) : Corner :=
  { rx := r.rx * scale, ry := r.ry * scale }

/-- `Layer:border_round_rect` -/
def borderRoundRect (offset sizeOffset : ℚ) : RoundRect :=
  -- at the center of the stroke
  let c := self.borderRect lerp box2dOffset 0 0
  -- at the offset
  let R := self.borderRect lerp box2dOffset offset sizeOffset
  let x2 := c.x + c.w
  let y2 := c.y + c.h
  let X2 := R.x + R.w
  let Y2 := R.y + R.h
  let r1 := corner self.border.radiusTopLeft (c.x - R.x) (c.y - R.y)
  let r2 := corner self.border.radiusTopRight (X2 - x2) (c.y - R.y)
  let r3 := corner self.border.radiusBottomRight (X2 - x2) (Y2 - y2)
  let r4 := corner self.border.radiusBottomLeft (c.x - R.x) (Y2 - y2)
  let maxx := max (r1.rx + r2.rx) (r3.rx + r4.rx)
  let maxy := max (r1.ry + r4.ry) (r2.ry + r3.ry)
  if R.w < maxx ∨ R.h < maxy then
    let scale := min (R.w / maxx) (R.h / maxy)
    { rect := R
      r1 := Corner.scale r1 scale
      r2 := Corner.scale r2 scale
      r3 := Corner.scale r3 scale
      r4 := Corner.scale r4 scale
      k := self.border.kappa }
  else { rect := R, r1, r2, r3, r4, k := self.border.kappa }

end BorderedLayer

end Model

/-! ## Assumptions -/

/-- What `lerp` computes. -/
def Interpolates (lerp : ℚ → ℚ → ℚ → ℚ → ℚ → ℚ) : Prop :=
  ∀ x x0 x1 y0 y1, x0 ≠ x1 →
    lerp x x0 x1 y0 y1 = y0 + (x - x0) * ((y1 - y0) / (x1 - x0))

/-- What `box2d_offset` computes. -/
def OffsetsBox (box2dOffset : ℚ → Rect → Rect) : Prop :=
  ∀ d x y w h : ℚ,
    box2dOffset d { x := num x, y := num y, w := num w, h := num h } =
      { x := num (x - d), y := num (y - d), w := num (w + 2 * d),
        h := num (h + 2 * d) }

/-- Linear interpolation. -/
def interpolate (x x0 x1 y0 y1 : ℚ) : ℚ := y0 + (x - x0) * ((y1 - y0) / (x1 - x0))

/-- A box that is larger by `d` on each side. -/
def offsetBox (d : ℚ) (r : Rect) : Rect :=
  { x := r.x - num d, y := r.y - num d, w := r.w + num (2 * d), h := r.h + num (2 * d) }

theorem interpolate_interpolates : Interpolates interpolate :=
  fun _ _ _ _ _ _ => rfl

theorem offsetBox_offsetsBox : OffsetsBox offsetBox := by
  intro d x y w h
  simp only [offsetBox, num_add_num, num_sub_num]

/-- No edge has a negative width. -/
structure Border.NonnegEdges (b : Border) : Prop where
  left : 0 ≤ b.left
  right : 0 ≤ b.right
  top : 0 ≤ b.top
  bottom : 0 ≤ b.bottom

/-! ## Edges -/

section Edges

variable {lerp : ℚ → ℚ → ℚ → ℚ → ℚ → ℚ} {box2dOffset : ℚ → Rect → Rect}

theorem Interpolates.edge (hlerp : Interpolates lerp) (o y : ℚ) :
    lerp o (-1) 1 y 0 = y * ((1 - o) / 2) := by
  rw [hlerp o (-1) 1 y 0 (by norm_num)]
  ring

/-- The widths of the edges are those of the border times a common factor. -/
theorem Border.edgeWidths_eq (hlerp : Interpolates lerp) {b : Border}
    (hb : b.NonnegEdges) (offset : ℚ) {maxW maxH : ℚ} (hW : 0 < maxW)
    (hH : 0 < maxH) :
    ∃ t : ℚ, b.edgeWidths lerp offset maxW maxH =
        { w1 := num (b.left * t), h1 := num (b.top * t), w2 := num (b.right * t),
          h2 := num (b.bottom * t) } ∧
      b.left * t + b.right * t ≤ maxW ∧ b.top * t + b.bottom * t ≤ maxH := by
  obtain ⟨hleft, hright, htop, hbottom⟩ := hb
  simp only [Border.edgeWidths, hlerp.edge]
  generalize (1 - (b.offset + offset + 1)) / 2 = c
  split_ifs with hover
  · -- an edge can only be too wide inside the box
    have hc : 0 ≤ c := by
      by_contra hneg
      have hw : (b.left + b.right) * c ≤ 0 :=
        mul_nonpos_of_nonneg_of_nonpos (by positivity) (not_le.mp hneg).le
      have hh : (b.top + b.bottom) * c ≤ 0 :=
        mul_nonpos_of_nonneg_of_nonpos (by positivity) (not_le.mp hneg).le
      rcases hover with h | h <;> linarith
    obtain ⟨s, -, hmin, hsw, hsh⟩ := exists_scale hW hH
      (show 0 ≤ b.left * c + b.right * c by positivity)
      (show 0 ≤ b.top * c + b.bottom * c by positivity) hover
    refine ⟨c * s, ?_, ?_, ?_⟩
    · rw [hmin]
      simp only [num_mul_num, mul_assoc]
    · linarith
    · linarith
  · push Not at hover
    exact ⟨c, rfl, hover⟩

/-- The edges of a border fit in the box. -/
theorem Border.edgeWidths_le (hlerp : Interpolates lerp) {b : Border} (hb : b.NonnegEdges)
    (offset : ℚ) {maxW maxH : ℚ} (hW : 0 < maxW) (hH : 0 < maxH) :
    (b.edgeWidths lerp offset maxW maxH).w1 + (b.edgeWidths lerp offset maxW maxH).w2 ≤
        num maxW ∧
      (b.edgeWidths lerp offset maxW maxH).h1 +
          (b.edgeWidths lerp offset maxW maxH).h2 ≤ num maxH := by
  obtain ⟨t, heq, hw, hh⟩ := Border.edgeWidths_eq hlerp hb offset hW hH
  simp only [heq, num_add_num, num_le_num]
  exact ⟨hw, hh⟩

namespace BorderedLayer

variable {self : BorderedLayer}

/-- The rect of the border, with a size that is not negative. -/
theorem borderRect_eq (hlerp : Interpolates lerp) (hbox : OffsetsBox box2dOffset)
    (hb : self.border.NonnegEdges) (hw : 0 < self.w) (hh : 0 < self.h) (offset : ℚ) :
    ∃ x y w h : ℚ, self.borderRect lerp box2dOffset offset 0 =
        { x := num x, y := num y, w := num w, h := num h } ∧ 0 ≤ w ∧ 0 ≤ h := by
  obtain ⟨t, heq, hwt, hht⟩ := Border.edgeWidths_eq hlerp hb offset hw hh
  refine ⟨self.border.left * t, self.border.top * t,
    self.w - self.border.right * t - self.border.left * t,
    self.h - self.border.bottom * t - self.border.top * t, ?_, ?_, ?_⟩
  · simp only [borderRect, heq, num_sub_num]
    rw [hbox]
    simp only [sub_zero, mul_zero, add_zero]
  · linarith
  · linarith

end BorderedLayer

end Edges

/-! ## Corners -/

namespace BorderedLayer

/-- A corner with these radii, degenerate on both axes or on none. -/
structure Sound (c : Corner) (rx ry : ℚ) : Prop where
  eq : c = { rx := num rx, ry := num ry }
  rx_nonneg : 0 ≤ rx
  ry_nonneg : 0 ≤ ry
  degenerate : rx = 0 ↔ ry = 0

theorem offsetRadius_eq (r o : ℚ) :
    ∃ q : ℚ, offsetRadius r (num o) = num q ∧ 0 ≤ q := by
  rw [offsetRadius]
  split_ifs
  · exact ⟨max 0 (r + o), by rw [num_add_num, max_num_num], le_max_left _ _⟩
  · exact ⟨0, rfl, le_rfl⟩

theorem exists_sound_corner (r ox oy : ℚ) :
    ∃ rx ry, Sound (corner r (num ox) (num oy)) rx ry := by
  obtain ⟨rx, hrx, hx⟩ := offsetRadius_eq r ox
  obtain ⟨ry, hry, hy⟩ := offsetRadius_eq r oy
  simp only [corner, hrx, hry, num.injEq]
  split_ifs with hzero
  · exact ⟨0, 0, rfl, le_rfl, le_rfl, Iff.rfl⟩
  · push Not at hzero
    exact ⟨rx, ry, rfl, hx, hy, by simp [hzero]⟩

theorem Sound.scale {c : Corner} {rx ry : ℚ} (hc : Sound c rx ry) {s : ℚ}
    (hs : 0 < s) : Sound (Corner.scale c (num s)) (rx * s) (ry * s) where
  eq := by rw [hc.eq, Corner.scale, num_mul_num, num_mul_num]
  rx_nonneg := mul_nonneg hc.rx_nonneg hs.le
  ry_nonneg := mul_nonneg hc.ry_nonneg hs.le
  degenerate := by
    rw [mul_eq_zero_iff_right hs.ne', mul_eq_zero_iff_right hs.ne', hc.degenerate]

end BorderedLayer

namespace RoundRect

def corners (r : RoundRect) : List Corner := [r.r1, r.r2, r.r3, r.r4]

/-- The radii make up round corners: none is negative, those of a corner are zero on
both axes or on none, and the two on a side are not longer than the side. -/
structure Fits (r : RoundRect) : Prop where
  nonneg : ∀ c ∈ r.corners, num 0 ≤ c.rx ∧ num 0 ≤ c.ry
  degenerate : ∀ c ∈ r.corners, c.rx = num 0 ↔ c.ry = num 0
  top : r.r1.rx + r.r2.rx ≤ r.rect.w
  right : r.r2.ry + r.r3.ry ≤ r.rect.h
  bottom : r.r3.rx + r.r4.rx ≤ r.rect.w
  left : r.r1.ry + r.r4.ry ≤ r.rect.h

open BorderedLayer

theorem fits_of_sound {rect : Rect} {w h : ℚ} (hw : rect.w = num w)
    (hh : rect.h = num h) {r1 r2 r3 r4 : Corner}
    {x1 y1 x2 y2 x3 y3 x4 y4 : ℚ} (h1 : Sound r1 x1 y1) (h2 : Sound r2 x2 y2)
    (h3 : Sound r3 x3 y3) (h4 : Sound r4 x4 y4) (hx : max (x1 + x2) (x3 + x4) ≤ w)
    (hy : max (y1 + y4) (y2 + y3) ≤ h) (k : ℚ) :
    Fits { rect, r1, r2, r3, r4, k } := by
  obtain ⟨htop, hbottom⟩ := max_le_iff.mp hx
  obtain ⟨hleft, hright⟩ := max_le_iff.mp hy
  have hsound : ∀ c ∈ [r1, r2, r3, r4], ∃ rx ry, Sound c rx ry := by
    simp only [List.forall_mem_cons]
    exact ⟨⟨_, _, h1⟩, ⟨_, _, h2⟩, ⟨_, _, h3⟩, ⟨_, _, h4⟩, by simp⟩
  constructor
  · intro c hc
    obtain ⟨rx, ry, hs⟩ := hsound c hc
    rw [hs.eq, num_le_num, num_le_num]
    exact ⟨hs.rx_nonneg, hs.ry_nonneg⟩
  · intro c hc
    obtain ⟨rx, ry, hs⟩ := hsound c hc
    simp only [hs.eq, num.injEq, hs.degenerate]
  · simpa only [h1.eq, h2.eq, hw, num_add_num, num_le_num] using htop
  · simpa only [h2.eq, h3.eq, hh, num_add_num, num_le_num] using hright
  · simpa only [h3.eq, h4.eq, hw, num_add_num, num_le_num] using hbottom
  · simpa only [h1.eq, h4.eq, hh, num_add_num, num_le_num] using hleft

end RoundRect

/-! ## The geometry of a border -/

section Fitting

variable {lerp : ℚ → ℚ → ℚ → ℚ → ℚ → ℚ} {box2dOffset : ℚ → Rect → Rect}

namespace BorderedLayer

open RoundRect

theorem borderRoundRect_rect (self : BorderedLayer) (offset sizeOffset : ℚ) :
    (self.borderRoundRect lerp box2dOffset offset sizeOffset).rect =
      self.borderRect lerp box2dOffset offset sizeOffset := by
  rw [borderRoundRect]
  split_ifs <;> rfl

theorem borderRoundRect_fits {self : BorderedLayer} (hlerp : Interpolates lerp)
    (hbox : OffsetsBox box2dOffset) (hb : self.border.NonnegEdges) (hw : 0 < self.w)
    (hh : 0 < self.h) (offset : ℚ)
    (hW : num 0 < (self.borderRect lerp box2dOffset offset 0).w)
    (hH : num 0 < (self.borderRect lerp box2dOffset offset 0).h) :
    (self.borderRoundRect lerp box2dOffset offset 0).Fits := by
  obtain ⟨x1, y1, w, h, hcenter, -⟩ := borderRect_eq hlerp hbox hb hw hh 0
  obtain ⟨X1, Y1, W, H, hrect, -⟩ := borderRect_eq hlerp hbox hb hw hh offset
  rw [hrect, num_lt_num] at hW hH
  simp only [borderRoundRect, hcenter, hrect, num_add_num, num_sub_num]
  obtain ⟨r1x, r1y, h1⟩ := exists_sound_corner self.border.radiusTopLeft
    (x1 - X1) (y1 - Y1)
  obtain ⟨r2x, r2y, h2⟩ := exists_sound_corner self.border.radiusTopRight
    (X1 + W - (x1 + w)) (y1 - Y1)
  obtain ⟨r3x, r3y, h3⟩ := exists_sound_corner self.border.radiusBottomRight
    (X1 + W - (x1 + w)) (Y1 + H - (y1 + h))
  obtain ⟨r4x, r4y, h4⟩ := exists_sound_corner self.border.radiusBottomLeft
    (x1 - X1) (Y1 + H - (y1 + h))
  generalize corner self.border.radiusTopLeft _ _ = r1 at h1 ⊢
  generalize corner self.border.radiusTopRight _ _ = r2 at h2 ⊢
  generalize corner self.border.radiusBottomRight _ _ = r3 at h3 ⊢
  generalize corner self.border.radiusBottomLeft _ _ = r4 at h4 ⊢
  have hmaxx : max (r1.rx + r2.rx) (r3.rx + r4.rx) =
      num (max (r1x + r2x) (r3x + r4x)) := by
    rw [h1.eq, h2.eq, h3.eq, h4.eq]
    simp only [num_add_num, max_num_num]
  have hmaxy : max (r1.ry + r4.ry) (r2.ry + r3.ry) =
      num (max (r1y + r4y) (r2y + r3y)) := by
    rw [h1.eq, h2.eq, h3.eq, h4.eq]
    simp only [num_add_num, max_num_num]
  rw [hmaxx, hmaxy]
  simp only [num_lt_num]
  split_ifs with hover
  · obtain ⟨s, hs, hmin, hsx, hsy⟩ := exists_scale hW hH
      (le_max_of_le_left (add_nonneg h1.rx_nonneg h2.rx_nonneg))
      (le_max_of_le_left (add_nonneg h1.ry_nonneg h4.ry_nonneg)) hover
    rw [hmin]
    apply fits_of_sound rfl rfl (h1.scale hs) (h2.scale hs) (h3.scale hs) (h4.scale hs)
    · rw [← add_mul, ← add_mul, ← max_mul_of_nonneg _ _ hs.le]
      exact hsx
    · rw [← add_mul, ← add_mul, ← max_mul_of_nonneg _ _ hs.le]
      exact hsy
  · push Not at hover
    exact fits_of_sound rfl rfl h1 h2 h3 h4 hover.1 hover.2 _

/-- At every offset the edges of a border fit in the box, and the round corners in
what is left of it. -/
theorem border_fits {self : BorderedLayer} (hlerp : Interpolates lerp)
    (hbox : OffsetsBox box2dOffset) (hb : self.border.NonnegEdges) (hw : 0 < self.w)
    (hh : 0 < self.h) (offset : ℚ) :
    let e := self.border.edgeWidths lerp offset self.w self.h
    let r := self.borderRect lerp box2dOffset offset 0
    let rr := self.borderRoundRect lerp box2dOffset offset 0
    (e.w1 + e.w2 ≤ num self.w ∧ e.h1 + e.h2 ≤ num self.h) ∧
      (num 0 ≤ r.w ∧ num 0 ≤ r.h) ∧
      (num 0 < r.w → num 0 < r.h → rr.rect = r ∧ rr.Fits) := by
  intro e r rr
  obtain ⟨x, y, w, h, hrect, hwpos, hhpos⟩ :=
    borderRect_eq hlerp hbox hb hw hh offset
  refine ⟨Border.edgeWidths_le hlerp hb offset hw hh, ⟨?_, ?_⟩, ?_⟩
  · change num 0 ≤ (self.borderRect lerp box2dOffset offset 0).w
    rw [hrect, num_le_num]
    exact hwpos
  · change num 0 ≤ (self.borderRect lerp box2dOffset offset 0).h
    rw [hrect, num_le_num]
    exact hhpos
  · intro hW hH
    exact ⟨borderRoundRect_rect self offset 0,
      borderRoundRect_fits hlerp hbox hb hw hh offset hW hH⟩

/-- An inner border that leaves 15 of 50 for radii of 20. -/
theorem border_fits_inner :
    let self : BorderedLayer :=
      { w := 50
        h := 40
        border :=
          { left := 30, right := 40, top := 10, bottom := 10, radiusTopLeft := 20,
            radiusTopRight := 20, radiusBottomLeft := 20, radiusBottomRight := 20,
            kappa := 6 / 5, offset := -1 } }
    (self.borderRect interpolate offsetBox 0 0).w = num 15 ∧
      (self.borderRoundRect interpolate offsetBox 0 0).Fits := by
  intro self
  have hw : (self.borderRect interpolate offsetBox 0 0).w = num 15 := by
    decide +kernel
  have hh : num 0 < (self.borderRect interpolate offsetBox 0 0).h := by
    decide +kernel
  have hedges : self.border.NonnegEdges := by
    constructor <;> decide
  obtain ⟨-, -, hfits⟩ := border_fits interpolate_interpolates offsetBox_offsetsBox
    hedges (by decide) (by decide) 0
  refine ⟨hw, (hfits ?_ hh).2⟩
  rw [hw, num_lt_num]
  norm_num

end BorderedLayer

end Fitting

end LuaAttic.Layerlib
