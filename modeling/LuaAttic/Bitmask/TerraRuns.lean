import LuaAttic.Bitmask.TerraBitmask
import LuaAttic.Support.Run

/-!
# Runs of a bit matrix

A matrix of bits that is widened, set and read, against the matrix that the calls
stand for.  The calls that are served as they should be are those that do not come
across what is wrong with the places of cells: which these are can be told from the
bits before the call, so that a run follows the matrix exactly when all its calls are
such calls.
-/

namespace LuaAttic.Bitmask

open LuaAttic.Support

/-! ## Matrices -/

@[ext]
structure BitMatrix where
  w : ℤ
  h : ℤ
  /-- Out of range there are no bits. -/
  cell : ℤ → ℤ → Bool

inductive BitmaskOp
  | widen (w h : ℤ) (moved : Bool)
  | set (x y : ℤ) (val : Bool)
  | setRect (x1 y1 w h : ℤ) (val : Bool)
  | get (x y : ℤ)

namespace BitMatrix

/-- What a call does to the matrix. -/
def step (M : BitMatrix) : BitmaskOp → BitMatrix
  | .widen w h _ => ⟨max w M.w, max h M.h, M.cell⟩
  | .set x y val =>
      { M with cell := fun x' y' => if (x', y') = (x, y) then val else M.cell x' y' }
  | .setRect x1 y1 w h val =>
      { M with cell := fun x y =>
          if ((0 ≤ x ∧ x < M.w) ∧ 0 ≤ y ∧ y < M.h) ∧ Spans x1 w x ∧ Spans y1 h y then val
          else M.cell x y }
  | .get _ _ => M

/-- What a call returns. -/
def out (M : BitMatrix) : BitmaskOp → Option Bool
  | .get x y => some (M.cell x y)
  | _ => none

end BitMatrix

namespace TerraBitmask

variable (L : Low) (b : TerraBitmask)

def step (b : TerraBitmask) : BitmaskOp → TerraBitmask
  | .widen w h moved => b.widen L w h moved
  | .set x y val => b.set x y val
  | .setRect x1 y1 w h val => b.setRect L x1 y1 w h val
  | .get _ _ => b

def out (b : TerraBitmask) : BitmaskOp → Option Bool
  | .get x y => some (b.get x y)
  | _ => none

/-- The bit of a cell. -/
def cell (x y : ℤ) : Bool :=
  if b.InRange x y then b.data.bit (position (stride b.w) x y) else false

/-- The matrix of the bits. -/
def matrix : BitMatrix := ⟨b.w, b.h, b.cell⟩

/-- Arguments are in range, and integers do not overflow. -/
def InDomain (b : TerraBitmask) : BitmaskOp → Prop
  | .widen w h _ => bytesize (max w b.w) (max h b.h) < 2 ^ 31
  | .set x y _ => b.InRange x y
  | .setRect x1 y1 w h _ =>
      (-2 ^ 31 ≤ x1 + w ∧ x1 + w < 2 ^ 31) ∧ -2 ^ 31 ≤ y1 + h ∧ y1 + h < 2 ^ 31
  | .get x y => b.InRange x y

/-- The call does not come across a wrong place: the bits that become the cells of rows
are those of the cells; a cell that is set is set already, and one that is cleared is in
the byte that is cleared, or is clear, and no other cell in that byte is set; and the
bit that is read is that of the cell. -/
def Meets (b : TerraBitmask) : BitmaskOp → Prop
  | .widen w _ moved => ∀ x y, 0 ≤ x → x < max w b.w → 0 ≤ y → y < b.h →
      (alloc b.data (bytesize b.w b.h)).bit (b.source (max w b.w) moved x y) = b.cell x y
  | .set x y true => b.cell x y = true
  | .set x y false =>
      (∀ x' y', b.InRange x' y' → (x', y') ≠ (x, y) →
        position (stride b.w) x' y' / 8 = (stride b.w * y + x) / 8 → b.cell x' y' = false) ∧
        (b.cell x y = true → position (stride b.w) x y / 8 = (stride b.w * y + x) / 8)
  | .setRect _ _ _ _ _ => True
  | .get x y => b.data.bit (position (stride b.w) (x % 8) y) = b.cell x y

variable {L} {b}

theorem cell_eq {x y : ℤ} (h : b.InRange x y) :
    b.cell x y = b.data.bit (position (stride b.w) x y) :=
  if_pos h

theorem cell_eq_false {x y : ℤ} (h : ¬ b.InRange x y) : b.cell x y = false :=
  if_neg h

/-! ## Calls -/

theorem matrix_widen_iff (hL : L.Lawful) (hv : b.Valid) {w h : ℤ} {moved : Bool}
    (hd : b.InDomain (.widen w h moved)) :
    (b.widen L w h moved).matrix = b.matrix.step (.widen w h moved) ↔
      b.Meets (.widen w h moved) := by
  obtain ⟨hw, hh⟩ := widen_dims L b w h moved
  have hcell {x y : ℤ} (hx : 0 ≤ x ∧ x < max w b.w) (hy : 0 ≤ y ∧ y < max h b.h) :
      (b.widen L w h moved).cell x y = if y < b.h then
        (alloc b.data (bytesize b.w b.h)).bit (b.source (max w b.w) moved x y) else false := by
    have hr : (b.widen L w h moved).InRange x y := ⟨by rwa [hw], by rwa [hh]⟩
    rw [cell_eq hr, hw, bit_widen hL hv hd moved hx hy]
  constructor
  · intro heq x y hx hxw hy hyh
    have hsame := congrFun (congrFun (congrArg BitMatrix.cell heq) x) y
    have hy' : y < max h b.h := lt_of_lt_of_le hyh (le_max_right _ _)
    have hcell' := hcell ⟨hx, hxw⟩ ⟨hy, hy'⟩
    rw [if_pos hyh] at hcell'
    exact hcell'.symm.trans hsame
  · intro hmeets
    refine BitMatrix.ext hw hh ?_
    funext x y
    change (b.widen L w h moved).cell x y = b.cell x y
    by_cases hr : (b.widen L w h moved).InRange x y
    · have hx := hr.x
      have hy := hr.y
      rw [hw] at hx
      rw [hh] at hy
      rw [hcell hx hy]
      split
      · exact hmeets x y hx.1 hx.2 hy.1 ‹_›
      · rw [cell_eq_false fun h => absurd h.y.2 ‹_›]
    · have hold : ¬ b.InRange x y := by
        intro h
        refine hr ⟨?_, ?_⟩
        · rw [hw]
          exact ⟨h.x.1, lt_of_lt_of_le h.x.2 (le_max_right _ _)⟩
        · rw [hh]
          exact ⟨h.y.1, lt_of_lt_of_le h.y.2 (le_max_right _ _)⟩
      rw [cell_eq_false hr, cell_eq_false hold]

/-- The byte that a single cell is set in. -/
theorem set_data (hv : b.Valid) {x y : ℤ} (hr : b.InRange x y) (val : Bool) :
    (b.set x y val).data =
      Function.update b.data ((stride b.w * y + x) / 8)
        (if val then b.data ((stride b.w * y + x) / 8) else 0) := by
  have hnonneg : 0 ≤ stride b.w * y + x := by
    have := mul_nonneg (stride_nonneg hv.w_nonneg) hr.y.1
    have := hr.x.1
    omega
  have haddr : (b.addr x y).1 = (stride b.w * y + x) / 8 :=
    Int.tdiv_eq_ediv_of_nonneg hnonneg
  have hmask (c : BitVec 8) : maskBits c c val = if val then c else 0 := by
    cases val
    · exact BitVec.and_not_self c
    · exact BitVec.or_self
  simp only [set, haddr, Memory.mask, hmask]

/-- Setting a cell changes nothing. -/
theorem set_true (hv : b.Valid) {x y : ℤ} (hr : b.InRange x y) : b.set x y true = b := by
  have hdata := set_data hv hr true
  simp only [↓reduceIte, Function.update_eq_self] at hdata
  have hset : b.set x y true = { b with data := (b.set x y true).data } := rfl
  rw [hset, hdata]

/-- Clearing a cell clears a byte. -/
theorem cell_set_false (hv : b.Valid) {x y : ℤ} (hr : b.InRange x y) (x' y' : ℤ) :
    (b.set x y false).cell x' y' =
      if position (stride b.w) x' y' / 8 = (stride b.w * y + x) / 8 then false
      else b.cell x' y' := by
  by_cases hr' : b.InRange x' y'
  · have hr'' : (b.set x y false).InRange x' y' := ⟨hr'.x, hr'.y⟩
    have hbit : (b.set x y false).cell x' y' =
        (b.set x y false).data.bit (position (stride b.w) x' y') := cell_eq hr''
    rw [hbit, cell_eq hr', set_data hv hr]
    simp only [Memory.bit, Function.update_apply, Bool.false_eq_true, ↓reduceIte]
    split
    · exact BitVec.getLsbD_zero
    · rfl
  · have hr'' : ¬ (b.set x y false).InRange x' y' := fun h => hr' ⟨h.x, h.y⟩
    rw [cell_eq_false hr', cell_eq_false hr'', ite_self]

theorem matrix_set_iff (hv : b.Valid) {x y : ℤ} (hr : b.InRange x y) (val : Bool) :
    (b.set x y val).matrix = b.matrix.step (.set x y val) ↔ b.Meets (.set x y val) := by
  cases val with
  | true =>
      rw [set_true hv hr]
      constructor
      · intro heq
        have := congrFun (congrFun (congrArg BitMatrix.cell heq) x) y
        exact this.trans (if_pos rfl)
      · intro hset
        refine BitMatrix.ext rfl rfl ?_
        funext x' y'
        change b.cell x' y' = if (x', y') = (x, y) then true else b.cell x' y'
        split
        · obtain ⟨rfl, rfl⟩ := Prod.mk.inj ‹_›
          exact hset
        · rfl
  | false =>
      have hcell := cell_set_false hv hr
      constructor
      · intro heq
        have hsame (x' y' : ℤ) : (b.set x y false).cell x' y' =
            if (x', y') = (x, y) then false else b.cell x' y' :=
          congrFun (congrFun (congrArg BitMatrix.cell heq) x') y'
        constructor
        · intro x' y' _ hne hbyte
          have := hsame x' y'
          rwa [hcell, if_pos hbyte, if_neg hne, eq_comm] at this
        · intro hset
          have := hsame x y
          rw [hcell, if_pos rfl] at this
          by_contra hbyte
          rw [if_neg hbyte, hset] at this
          exact Bool.false_ne_true this.symm
      · rintro ⟨hothers, hself⟩
        refine BitMatrix.ext rfl rfl ?_
        funext x' y'
        change (b.set x y false).cell x' y' = if (x', y') = (x, y) then false else b.cell x' y'
        rw [hcell]
        by_cases hxy : (x', y') = (x, y)
        · obtain ⟨rfl, rfl⟩ := Prod.mk.inj hxy
          rw [if_pos rfl]
          split
          · rfl
          · exact Bool.eq_false_iff.mpr fun h => ‹¬ _› (hself h)
        · rw [if_neg hxy]
          split
          · by_cases hr' : b.InRange x' y'
            · exact (hothers x' y' hr' hxy ‹_›).symm
            · exact (cell_eq_false hr').symm
          · rfl

/-- The rectangle is set as it should be. -/
theorem matrix_setRect (hL : L.Lawful) (hv : b.Valid) {x1 y1 w h : ℤ} {val : Bool}
    (hd : b.InDomain (.setRect x1 y1 w h val)) :
    (b.setRect L x1 y1 w h val).matrix = b.matrix.step (.setRect x1 y1 w h val) := by
  have hpaint := painted_setRect hL hv val hd.1 hd.2
  refine BitMatrix.ext rfl rfl ?_
  funext x y
  change (b.setRect L x1 y1 w h val).cell x y =
    if ((0 ≤ x ∧ x < b.w) ∧ 0 ≤ y ∧ y < b.h) ∧ Spans x1 w x ∧ Spans y1 h y then val
    else b.cell x y
  by_cases hr : b.InRange x y
  · have hr' : (b.setRect L x1 y1 w h val).InRange x y := ⟨hr.x, hr.y⟩
    have hcell : (b.setRect L x1 y1 w h val).cell x y =
        (b.setRect L x1 y1 w h val).data.bit (position (stride b.w) x y) := cell_eq hr'
    have hmem := mem_rectBits (le_stride b.w) x1 y1 w h hr.x hr.y
    rw [hcell, cell_eq hr]
    by_cases hspan : Spans x1 w x ∧ Spans y1 h y
    · rw [if_pos ⟨⟨hr.x, hr.y⟩, hspan⟩]
      exact hpaint.inside _ (hmem.mpr hspan)
    · rw [if_neg fun h => hspan h.2]
      apply hpaint.outside
      exact fun hin => hspan (hmem.mp hin)
  · have hr' : ¬ (b.setRect L x1 y1 w h val).InRange x y := fun h => hr ⟨h.x, h.y⟩
    rw [if_neg fun h => hr ⟨h.1.1, h.1.2⟩, cell_eq_false hr, cell_eq_false hr']

/-! ## Runs -/

theorem refines_iff (hL : L.Lawful) (hv : b.Valid) {op : BitmaskOp} (hd : b.InDomain op) :
    Refines (step L) out BitMatrix.step BitMatrix.out matrix id b op ↔ b.Meets op := by
  cases op with
  | widen w h moved => exact (and_iff_left rfl).trans (matrix_widen_iff hL hv hd)
  | set x y val => exact (and_iff_left rfl).trans (matrix_set_iff hv hd val)
  | setRect x1 y1 w h val =>
      exact (and_iff_left rfl).trans (iff_of_true (matrix_setRect hL hv hd) trivial)
  | get x y =>
      refine (and_iff_right rfl).trans ?_
      have hget : out b (.get x y) =
          some (b.data.bit (position (stride b.w) (x % 8) y)) := congrArg some (get_eq hv hd)
      rw [hget]
      exact Option.some_inj

theorem valid_step (hv : b.Valid) {op : BitmaskOp} (hd : b.InDomain op) :
    (step L b op).Valid := by
  cases op with
  | widen w h moved =>
      obtain ⟨hw, hh⟩ := widen_dims L b w h moved
      refine ⟨?_, ?_, ?_⟩
      · exact hw ▸ hv.w_nonneg.trans (le_max_right _ _)
      · exact hh ▸ hv.h_nonneg.trans (le_max_right _ _)
      · change bytesize (b.widen L w h moved).w (b.widen L w h moved).h < 2 ^ 31
        rw [hw, hh]
        exact hd
  | set x y val => exact ⟨hv.w_nonneg, hv.h_nonneg, hv.bytes_lt⟩
  | setRect x1 y1 w h val => exact ⟨hv.w_nonneg, hv.h_nonneg, hv.bytes_lt⟩
  | get x y => exact hv

theorem init_valid : init.Valid := by
  refine ⟨le_rfl, le_rfl, ?_⟩
  rw [bytesize]
  exact lt_of_eq_of_lt (mul_zero _) (by norm_num)

/-- A run from the empty matrix, with arguments in range, follows the matrix that its
calls stand for, in each of its parts, exactly when no call comes across a wrong
place. -/
theorem follows_matrix_iff (hL : L.Lawful) (ops : List BitmaskOp)
    (hd : AllAllowed (step L) InDomain ops init) :
    (∀ part, part <+: ops →
      Follows (step L) out BitMatrix.step BitMatrix.out matrix id part init) ↔
      AllAllowed (step L) Meets ops init := by
  rw [← allAllowed_refines_iff]
  apply allAllowed_congr
  apply hd.of_invariant _ _ init_valid
  · exact fun b op hv hd => valid_step hv hd
  · exact fun b op hv hd => refines_iff hL hv hd

theorem bytesize_row : bytesize 8 1 < 2 ^ 31 := by
  rw [bytesize, stride_eq]
  norm_num

theorem follows_matrix_iff_row :
    (∀ part, part <+: [.widen 8 1 true, .setRect 0 0 3 1 true, .get 2 0] →
      Follows (step .plain) out BitMatrix.step BitMatrix.out matrix id part init) ↔
      AllAllowed (step .plain) Meets [.widen 8 1 true, .setRect 0 0 3 1 true, .get 2 0]
        init := by
  apply follows_matrix_iff Low.plain_lawful
  refine ⟨bytesize_row, ⟨?_, ?_⟩, ⟨⟨?_, ?_⟩, trivial⟩⟩
  all_goals decide

/-- The first cell of a new row is not set. -/
theorem not_follows_matrix_set :
    ¬ Follows (step .plain) out BitMatrix.step BitMatrix.out matrix id
      [.widen 8 1 true, .set 0 0 true, .get 0 0] init := by
  intro h
  have hd : init.InDomain (.widen 8 1 true) := bytesize_row
  have hv : (init.widen .plain 8 1 true).Valid := valid_step init_valid hd
  have hr : (init.widen .plain 8 1 true).InRange 0 0 := by decide
  have hget : ((init.widen .plain 8 1 true).set 0 0 true).get 0 0 = false := by
    have hbit := bit_widen Low.plain_lawful init_valid hd true (x := 0) (y := 0)
      ⟨by decide, by decide⟩ ⟨by decide, by decide⟩
    rw [set_true hv hr, get_eq hv hr]
    exact hbit.trans (if_neg (lt_irrefl 0))
  have hout : [none, none, some (((init.widen .plain 8 1 true).set 0 0 true).get 0 0)] =
      [none, none, some true] := h.2
  rw [hget] at hout
  exact absurd hout (by decide)

end TerraBitmask

end LuaAttic.Bitmask
