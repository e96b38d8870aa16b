import Mathlib.Data.List.GetD
import LuaAttic.Support.Ring

/-!
# The part of Terra that the modelled modules use

Numeric loops run up to a limit that they do not reach.  The layer library
keeps its data in dynamic arrays of a library that is not part of the
repository.  Here are the operations that are used, and what is relied upon: an
array that is made longer keeps its elements and says nothing about the new
ones, and a block copy copies between ranges of the array that are equal or
disjoint.
-/

namespace LuaAttic.Terra

/-! ## Numbers -/

def clamp (x lo hi : Int) : Int := min (max x lo) hi

theorem clamp_bounds (i : Int) {n : Int} (hn : 0 ≤ n) :
    0 ≤ clamp i 0 n ∧ clamp i 0 n ≤ n :=
  ⟨le_min (le_max_right i 0) hn, min_le_right _ _⟩

/-! ## Loops -/

/-- The values of `i` in `for i = first, limit do`. -/
def forRange (first limit : Int) : List Int :=
  Support.interval first (limit - first).toNat

theorem mem_forRange {first limit i : Int} :
    i ∈ forRange first limit ↔ first ≤ i ∧ i < limit := by
  rw [forRange, Support.mem_interval]
  omega

theorem forRange_of_le {first limit : Int} (h : limit ≤ first) :
    forRange first limit = [] := by
  rw [forRange, Int.toNat_of_nonpos (by omega), Support.interval_zero]

theorem forRange_cons {first limit : Int} (h : first < limit) :
    forRange first limit = first :: forRange (first + 1) limit := by
  have hn : (limit - first).toNat = 1 + (limit - (first + 1)).toNat := by omega
  rw [forRange, hn, Support.interval_add]
  simp [forRange, Support.interval]

/-- `while n < bound do n = n * 2 end`; a positive `n` reaches the bound in at
most as many steps. -/
def doubleTo (n bound : Int) : Int :=
  go bound.toNat n
where
  go : ℕ → Int → Int
    | 0, n => n
    | fuel + 1, n => if n < bound then go fuel (n * 2) else n

theorem doubleTo_go_spec {bound : Int} {fuel : ℕ} {n : Int} (hn : 1 ≤ n)
    (hfuel : bound ≤ n + fuel) :
    bound ≤ doubleTo.go bound fuel n ∧
      (doubleTo.go bound fuel n = n ∨ n * 2 ≤ doubleTo.go bound fuel n) := by
  induction fuel generalizing n with
  | zero =>
      simp only [doubleTo.go, true_or, and_true]
      omega
  | succ fuel ih =>
      simp only [doubleTo.go]
      split_ifs with hlt
      · obtain ⟨hbound, hstep⟩ := ih (n := n * 2) (by omega) (by omega)
        exact ⟨hbound, Or.inr (by omega)⟩
      · exact ⟨by omega, Or.inl rfl⟩

theorem doubleTo_spec {n : Int} (bound : Int) (hn : 1 ≤ n) :
    bound ≤ doubleTo n bound ∧
      (doubleTo n bound = n ∨ n * 2 ≤ doubleTo n bound) :=
  doubleTo_go_spec hn (by omega)

/-! ## Dynamic arrays -/

/-- The operations on arrays of `α`, which are indexed from zero. -/
structure ArrOps (α : Type) where
  Arr : Type
  /-- an array after `init` -/
  init : Arr
  /-- `a.len` -/
  len : Arr → Int
  /-- `a(i, default)` -/
  get : Arr → Int → α → α
  /-- `a:set(i, val, empty)`, which may make the array longer -/
  set : Arr → Int → α → α → Arr
  /-- `a.len = n` -/
  setLen : Arr → Int → Arr
  /-- `copy(a:at(dst), a:at(src), n)` -/
  copy : Arr → Int → Int → Int → Arr

/-- The ranges of a block copy lie in the array, and are equal or disjoint. -/
structure CopyRanges (len dst src n : Int) : Prop where
  dst_nonneg : 0 ≤ dst
  dst_le : dst + n ≤ len
  src_nonneg : 0 ≤ src
  src_le : src + n ≤ len
  apart : dst = src ∨ dst + n ≤ src ∨ src + n ≤ dst

/-- What the operations do. -/
structure ArrOps.Lawful {α : Type} (A : ArrOps α) : Prop where
  len_nonneg : ∀ a, 0 ≤ A.len a
  get_default : ∀ a i d, A.len a ≤ i → A.get a i d = d
  len_set : ∀ a i v e, 0 ≤ i → A.len (A.set a i v e) = max (A.len a) (i + 1)
  get_set : ∀ a i v e d, 0 ≤ i → A.get (A.set a i v e) i d = v
  get_set_of_ne : ∀ a i v e j d, 0 ≤ i → 0 ≤ j → j ≠ i → j < A.len a →
    A.get (A.set a i v e) j d = A.get a j d
  len_setLen : ∀ a n, 0 ≤ n → A.len (A.setLen a n) = n
  get_setLen : ∀ a n i d, 0 ≤ i → i < A.len a → i < n →
    A.get (A.setLen a n) i d = A.get a i d
  len_copy : ∀ a dst src n, CopyRanges (A.len a) dst src n →
    A.len (A.copy a dst src n) = A.len a
  get_copy : ∀ a dst src n k d, CopyRanges (A.len a) dst src n → 0 ≤ k → k < n →
    A.get (A.copy a dst src n) (dst + k) d = A.get a (src + k) d
  get_copy_of_lt : ∀ a dst src n j d, CopyRanges (A.len a) dst src n → 0 ≤ j →
    j < dst ∨ dst + n ≤ j → A.get (A.copy a dst src n) j d = A.get a j d

/-! ## Lists as arrays -/

section ListArr

open LuaAttic.Support

variable {α : Type}

/-- The element of a list at an index. -/
def listGet (l : List α) (i : Int) (d : α) : α :=
  if 0 ≤ i then l.getD i.toNat d else d

/-- The list of the first `n` values of a function. -/
def listOf (n : Int) (f : Int → α) : List α := (interval 0 n.toNat).map f

/-- Arrays that are lists, with an element to fill up with. -/
def listArr (junk : α) : ArrOps α where
  Arr := List α
  init := []
  len l := l.length
  get := listGet
  set l i v e :=
    listOf (max l.length (i + 1)) fun j => if j = i then v else listGet l j e
  setLen l n := listOf n fun j => listGet l j junk
  copy l dst src n :=
    listOf l.length fun j =>
      if dst ≤ j ∧ j < dst + n then listGet l (j - dst + src) junk
      else listGet l j junk

@[simp] theorem length_listOf (n : Int) (f : Int → α) :
    (listOf n f).length = n.toNat := by
  simp [listOf]

theorem listGet_listOf {n : Int} (f : Int → α) {i : Int} (hi : 0 ≤ i) (d : α) :
    listGet (listOf n f) i d = if i < n then f i else d := by
  have hcast : ((i.toNat : ℕ) : Int) = i := Int.toNat_of_nonneg hi
  rw [listGet, if_pos hi, listOf, interval, List.map_map]
  split_ifs with hlt
  · rw [List.getD_eq_getElem _ _ (by simp; omega)]
    simp [hcast]
  · exact List.getD_eq_default _ _ (by simp; omega)

theorem listGet_default {l : List α} {i : Int} (h : (l.length : Int) ≤ i)
    (d : α) : listGet l i d = d := by
  rw [listGet, if_pos (by omega)]
  exact List.getD_eq_default _ _ (by omega)

/-- Within the list the default does not matter. -/
theorem listGet_congr {l : List α} {i : Int} (hi : 0 ≤ i)
    (hlt : i < (l.length : Int)) (d d' : α) : listGet l i d = listGet l i d' := by
  rw [listGet, listGet, if_pos hi, if_pos hi, List.getD_eq_getElem _ _ (by omega),
    List.getD_eq_getElem _ _ (by omega)]

theorem listArr_lawful (junk : α) : (listArr junk).Lawful where
  len_nonneg l := Int.natCast_nonneg l.length
  get_default l i d h := listGet_default h d
  len_set l i v e hi := by
    simp only [listArr, length_listOf]
    omega
  get_set l i v e d hi := by
    simp only [listArr]
    rw [listGet_listOf _ hi, if_pos (by omega), if_pos rfl]
  get_set_of_ne l i v e j d hi hj hne hlt := by
    simp only [listArr] at hlt ⊢
    rw [listGet_listOf _ hj, if_pos (by omega), if_neg hne]
    exact listGet_congr hj hlt e d
  len_setLen l n hn := by
    simp only [listArr, length_listOf]
    omega
  get_setLen l n i d hi hlt hn := by
    simp only [listArr] at hlt ⊢
    rw [listGet_listOf _ hi, if_pos hn]
    exact listGet_congr hi hlt junk d
  len_copy l dst src n h := by
    simp only [listArr, length_listOf]
    omega
  get_copy l dst src n k d h hk hlt := by
    obtain ⟨hdst, hdstle, hsrc, hsrcle, -⟩ := h
    have hback : dst + k - dst + src = src + k := by omega
    simp only [listArr] at hdstle hsrcle ⊢
    rw [listGet_listOf _ (by omega), if_pos (by omega), if_pos (by omega), hback]
    exact listGet_congr (by omega) (by omega) junk d
  get_copy_of_lt l dst src n j d h hj hout := by
    simp only [listArr]
    rw [listGet_listOf _ hj]
    split_ifs with hlt hin
    · omega
    · exact listGet_congr hj hlt junk d
    · exact (listGet_default (by omega) d).symm

end ListArr

end LuaAttic.Terra
