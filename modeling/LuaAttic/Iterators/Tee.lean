import Mathlib.Order.Interval.Finset.Nat
import LuaAttic.Lua.Basic
import LuaAttic.Support.Cursors
import LuaAttic.Support.Fallible

/-!
# `tee` (`glue_not_used.lua`)

A table of results is kept for each call to the iterator, from the first one
that some of the functions has not returned to the last one that was fetched.
-/

namespace LuaAttic.Iterators

open LuaAttic.Lua LuaAttic.Support

variable {σ V : Type}

/-! ## Lua iterators -/

/-- What a function returns: some values, of which any can be nil. -/
abbrev Tuple (V : Type) := List (Option V)

/-- `t[j]` -/
def Tuple.at (t : Tuple V) (j : ℕ) : Option V := (t[j - 1]?).join

/-- The function of an iterator with its two arguments.  What the function
keeps for itself is a state. -/
structure Iterator (σ V : Type) where
  f : Option V → Option V → σ → Except Error (Tuple V × σ)
  s : Option V
  v : Option V

/-- An iteration as the generic `for` does it: the first value of each tuple is
passed to the next call, up to the first tuple that begins with nil. -/
inductive Iterator.Yields (it : Iterator σ V) :
    Option V → σ → List (Tuple V) → Prop
  | last {v h t h'} : it.f it.s v h = .ok (t, h') → t.at 1 = none →
      it.Yields v h [t]
  | more {v h t h' a ts} : it.f it.s v h = .ok (t, h') → t.at 1 = some a →
      it.Yields (some a) h' ts → it.Yields v h (t :: ts)

/-- `#t` is any border: the manual allows each of them where there is nil among
the values. -/
def IsBorder (len : Tuple V → ℕ) : Prop :=
  ∀ t, (len t = 0 ∨ t.at (len t) ≠ none) ∧ t.at (len t + 1) = none

/-- `unpack(vt)` -/
def unpack (len : Tuple V → ℕ) (vt : Tuple V) : Tuple V := vt.take (len vt)

/-! ## The functions -/

/-- The variables of `_tee`, what the iterator keeps, and the control variables
with which it was called. -/
structure Tee (σ V : Type) where
  b1 : ℕ := 1
  bn : ℕ := 0
  buf : ℕ → Option (Tuple V) := fun _ => none
  nt : ℕ → ℕ := fun _ => 1
  v : Option V
  hidden : σ
  asked : List (Option V) := []

/-- `f(s, v)` -/
def Iterator.call (it : Iterator σ V) (v : Option V) (st : Tee σ V) :
    Except Error (Tuple V × Tee σ V) := do
  let (t, h) ← it.f it.s v st.hidden
  return (t, { st with hidden := h, asked := st.asked ++ [v] })

/-- `bn=bn+1; buf[bn], v = {f(s,v)}`: there is one value for two variables, so
that `v` becomes nil. -/
def Iterator.fetch (it : Iterator σ V) (st : Tee σ V) : Except Error (Tee σ V) := do
  let (t, st) ← it.call st.v st
  return { st with
    bn := st.bn + 1
    buf := Function.update st.buf (st.bn + 1) (some t)
    v := none }

/-- The least of `nt[1]`, .., `nt[n]`. -/
def slowest (n : ℕ) (nt : ℕ → ℕ) : ℕ :=
  (List.range' 1 n).foldl (fun m j => if nt j < m then nt j else m) (nt 1)

/-- `ft[i]()` -/
def ft (len : Tuple V → ℕ) (n : ℕ) (it : Iterator σ V) (i : ℕ) (st : Tee σ V) :
    Except Error (Tuple V × Tee σ V) := do
  let st ← if st.bn < st.nt i then it.fetch st else pure st
  let vt := st.buf (st.nt i)
  let m := slowest n st.nt
  let st := { st with
    buf := fun j => if st.b1 ≤ j ∧ j < m then none else st.buf j
    b1 := m
    nt := Function.update st.nt i (st.nt i + 1) }
  let vt ← nonNil .badArgument vt
  return (unpack len vt, st)

/-- What `tee` returns. -/
inductive Teed (σ V : Type)
  /-- `f, s, v` -/
  | iterator (it : Iterator σ V)
  /-- `ft[1]`, .., `ft[n]` -/
  | functions (n : ℕ) (it : Iterator σ V)

/-- `_tee(n, f, s, v)` -/
def teeOf (n : ℕ) (it : Iterator σ V) : Teed σ V :=
  if n = 1 then .iterator it else .functions n it

/-- `tee(n, f, s, v)` or `tee(f, s, v)`.  What `argcheck` does is not in the
source: it is given the place of an argument, its type and the type wanted. -/
def tee (argcheck : ℕ → String → String → Except Error Unit) (n : Option ℕ)
    (it : Iterator σ V) : Except Error (Teed σ V) :=
  match n with
  | some n => do
      argcheck 2 "function" "function"
      return teeOf n it
  | none => return teeOf 2 it

/-! ## Consumers -/

/-- A call by a generic `for`, which passes a control variable. -/
def Teed.call (len : Tuple V → ℕ) : Teed σ V → ℕ → Option V → Tee σ V →
    Except Error (Tuple V × Tee σ V)
  | .iterator it, _, control, st => it.call control st
  | .functions n it, i, _, st => ft len n it i st

/-- The first control variable. -/
def Teed.control : Teed σ V → Option V
  | .iterator it => it.v
  | .functions _ _ => none

/-- `v` as `_tee` is given it. -/
def Teed.v : Teed σ V → Option V
  | .iterator it => it.v
  | .functions _ it => it.v

/-- The loops that call the functions, with what each has got. -/
structure Consumers (σ V : Type) where
  tee : Tee σ V
  control : ℕ → Option V
  received : ℕ → List (Tuple V) := fun _ => []

def Teed.start (teed : Teed σ V) (h : σ) : Consumers σ V where
  tee := { v := teed.v, hidden := h }
  control _ := teed.control

/-- The loop `i` calls its function once. -/
def Teed.step (len : Tuple V → ℕ) (teed : Teed σ V) (c : Consumers σ V) (i : ℕ) :
    Except Error (Consumers σ V) := do
  let (t, st) ← teed.call len i (c.control i) c.tee
  return {
    tee := st
    control := Function.update c.control i (t.at 1)
    received := Function.update c.received i (c.received i ++ [t]) }

/-- Calls in some order; an error ends them. -/
def Teed.run (len : Tuple V → ℕ) (teed : Teed σ V) (h : σ) (calls : List ℕ) :
    Except Error (Consumers σ V) :=
  calls.foldlM (teed.step len) (teed.start h)

/-! ## What is wanted -/

open LuaAttic.Support

/-- The tuples are the same, or both end the iteration. -/
def SameTuple (t t' : Tuple V) : Prop :=
  if t'.at 1 = none then t.at 1 = none else t = t'

/-- Each of the functions has returned the tuples of the iterator, which has
been called once for each. -/
structure Delivered (ts : List (Tuple V)) (n : ℕ) (p : List ℕ) (c : Consumers σ V) :
    Prop where
  same : ∀ i ∈ Finset.Icc 1 n,
    List.Forall₂ SameTuple (c.received i) (ts.take (p.count i))
  once : c.tee.asked.length = fastest (Finset.Icc 1 n) p

/-- What is more, the tuples kept are those that some of the functions has
still to return. -/
structure Faithful (ts : List (Tuple V)) (n : ℕ) (p : List ℕ) (c : Consumers σ V) :
    Prop extends Delivered ts n p c where
  kept : ∀ j, (c.tee.buf j).isSome ↔ Pending (Finset.Icc 1 n) p j

/-- The results of the iterator when it gets nil for the control variable, the
first time apart. -/
def Iterator.blind (it : Iterator σ V) (h : σ) : ℕ → Except Error (Tuple V × σ)
  | 0 => it.f it.s it.v h
  | k + 1 => do
      let (_, h') ← it.blind h k
      it.f it.s none h'

/-- With nil for the control variable, the first tuples of the iterator are the
same, also when each is put in a table and taken out again. -/
def Iterator.Undisturbed (len : Tuple V → ℕ) (it : Iterator σ V) (h : σ)
    (ts : List (Tuple V)) (m : ℕ) : Prop :=
  ∀ k < m, ∃ t h' t', it.blind h k = .ok (t, h') ∧ ts[k]? = some t' ∧
    SameTuple (unpack len t) t'

/-!
## Runs of `tee`

The functions return what the iterator gives when it is asked without a control
variable, whatever the order of the calls, and the table holds one more tuple
than is needed after the slowest function has moved.
-/

variable {σ V : Type}

/-! ### Tuples -/

theorem at_one (t : Tuple V) : t.at 1 = (t[0]?).join := rfl

theorem at_one_unpack {len : Tuple V → ℕ} {t : Tuple V} (h : t.at 1 = none) :
    (unpack len t).at 1 = none := by
  rw [at_one, unpack, List.getElem?_take]
  split
  · exact h
  · rfl

/-- Tuples without nil are taken out of a table as they were. -/
theorem unpack_of_notMem {len : Tuple V → ℕ} (hlen : IsBorder len) {t : Tuple V}
    (h : none ∉ t) : unpack len t = t := by
  obtain ⟨hlast, hnext⟩ := hlen t
  have hle : t.length ≤ len t := by
    by_contra hlt
    have hget := List.getElem?_eq_getElem (not_le.mp hlt)
    rw [Tuple.at, Nat.add_sub_cancel, hget] at hnext
    have hnone : t[len t] = none := hnext
    exact h (hnone ▸ List.getElem_mem _)
  exact List.take_of_length_le hle

/-! ### The slowest function -/

section Slowest

variable {n : ℕ} {nt : ℕ → ℕ}

theorem foldl_min_le (l : List ℕ) (m : ℕ) :
    l.foldl (fun m j => if nt j < m then nt j else m) m ≤ m ∧
      ∀ j ∈ l, l.foldl (fun m j => if nt j < m then nt j else m) m ≤ nt j := by
  induction l generalizing m with
  | nil => simp
  | cons a l ih =>
      obtain ⟨hm, hl⟩ := ih (if nt a < m then nt a else m)
      have hle : (if nt a < m then nt a else m) ≤ m ∧
          (if nt a < m then nt a else m) ≤ nt a := by
        split <;> omega
      refine ⟨hm.trans hle.1, fun j hj => ?_⟩
      rcases List.mem_cons.mp hj with rfl | hj
      · exact hm.trans hle.2
      · exact hl j hj

theorem le_foldl_min {b : ℕ} (l : List ℕ) (m : ℕ) (hm : b ≤ m)
    (hl : ∀ j ∈ l, b ≤ nt j) :
    b ≤ l.foldl (fun m j => if nt j < m then nt j else m) m := by
  induction l generalizing m with
  | nil => exact hm
  | cons a l ih =>
      obtain ⟨ha, hl⟩ := List.forall_mem_cons.mp hl
      refine ih _ ?_ hl
      change b ≤ if nt a < m then nt a else m
      split <;> assumption

theorem slowest_le {i : ℕ} (hi : i ∈ Finset.Icc 1 n) : slowest n nt ≤ nt i := by
  refine (foldl_min_le _ _).2 i (List.mem_range'.mpr ?_)
  obtain ⟨h1, hn⟩ := Finset.mem_Icc.mp hi
  exact ⟨i - 1, by omega, by omega⟩

theorem le_slowest {b : ℕ} (hn : 1 ≤ n) (h : ∀ i ∈ Finset.Icc 1 n, b ≤ nt i) :
    b ≤ slowest n nt := by
  refine le_foldl_min _ _ (h 1 (Finset.mem_Icc.mpr ⟨le_rfl, hn⟩)) fun j hj => h j ?_
  obtain ⟨k, hk, rfl⟩ := List.mem_range'.mp hj
  exact Finset.mem_Icc.mpr ⟨by omega, by omega⟩

end Slowest

/-! ### The table of tuples -/

/-- The tuple that the iterator gives without a control variable. -/
def Iterator.blindTuple (it : Iterator σ V) (h : σ) (k : ℕ) : Tuple V :=
  match it.blind h k with
  | .ok (t, _) => t
  | .error _ => []

/-- What the iterator has been asked for, and where its tuples are. -/
structure Buffered (n : ℕ) (it : Iterator σ V) (h : σ) (st : Tee σ V) : Prop where
  asked : st.asked.length = st.bn
  next : it.f it.s st.v st.hidden = it.blind h st.bn
  fetched : ∀ k < st.bn, ∃ t h', it.blind h k = .ok (t, h')
  behind : ∀ i ∈ Finset.Icc 1 n, st.b1 ≤ st.nt i
  buf : ∀ j, st.buf j =
    if st.b1 ≤ j ∧ j ≤ st.bn then some (it.blindTuple h (j - 1)) else none

section Buffer

variable {len : Tuple V → ℕ} {n : ℕ} {it : Iterator σ V} {h : σ} {st : Tee σ V}

theorem buffered_start (n : ℕ) (it : Iterator σ V) (h : σ) :
    Buffered n it h ((Teed.functions n it).start h).tee where
  asked := rfl
  next := rfl
  fetched _ hk := absurd hk (Nat.not_lt_zero _)
  behind _ _ := le_rfl
  buf j := by
    have hj : ¬ (1 ≤ j ∧ j ≤ 0) := by omega
    exact (if_neg hj).symm

theorem fetch_error (hst : Buffered n it h st) {e : Error}
    (hblind : it.blind h st.bn = .error e) : it.fetch st = .error e := by
  rw [Iterator.fetch, Iterator.call, hst.next, hblind]
  rfl

/-- A tuple more, where none is missing before. -/
theorem fetch_ok (hst : Buffered n it h st) (hb1 : st.b1 ≤ st.bn + 1) {t : Tuple V}
    {h' : σ} (hblind : it.blind h st.bn = .ok (t, h')) :
    ∃ st', it.fetch st = .ok st' ∧ Buffered n it h st' ∧ st'.bn = st.bn + 1 ∧
      st'.nt = st.nt ∧ st'.b1 = st.b1 := by
  refine ⟨{ st with
    hidden := h'
    asked := st.asked ++ [st.v]
    bn := st.bn + 1
    buf := Function.update st.buf (st.bn + 1) (some t)
    v := none }, ?_, ?_, rfl, rfl, rfl⟩
  · rw [Iterator.fetch, Iterator.call, hst.next, hblind]
    rfl
  · constructor
    · simp [hst.asked]
    · change it.f it.s none h' = it.blind h (st.bn + 1)
      rw [Iterator.blind, hblind]
      rfl
    · intro k hk
      rcases Nat.lt_succ_iff_lt_or_eq.mp hk with hk | rfl
      · exact hst.fetched k hk
      · exact ⟨t, h', hblind⟩
    · exact hst.behind
    · intro j
      change Function.update st.buf (st.bn + 1) (some t) j =
        if st.b1 ≤ j ∧ j ≤ st.bn + 1 then some (it.blindTuple h (j - 1)) else none
      by_cases hj : j = st.bn + 1
      · subst hj
        rw [Function.update_self, if_pos ⟨hb1, le_rfl⟩, Nat.add_sub_cancel,
          Iterator.blindTuple, hblind]
      · have hiff : (st.b1 ≤ j ∧ j ≤ st.bn + 1) ↔ (st.b1 ≤ j ∧ j ≤ st.bn) := by omega
        rw [Function.update_of_ne hj, hst.buf, if_congr hiff rfl rfl]

/-- The state after a function has taken its tuple. -/
def Tee.moved (n i : ℕ) (st : Tee σ V) : Tee σ V :=
  { st with
    buf := fun j => if st.b1 ≤ j ∧ j < slowest n st.nt then none else st.buf j
    b1 := slowest n st.nt
    nt := Function.update st.nt i (st.nt i + 1) }

theorem moved_buffered (hst : Buffered n it h st) {i : ℕ} (hi : i ∈ Finset.Icc 1 n) :
    Buffered n it h (st.moved n i) where
  asked := hst.asked
  next := hst.next
  fetched := hst.fetched
  behind j hj := by
    have hle : slowest n st.nt ≤ st.nt j := slowest_le hj
    change slowest n st.nt ≤ Function.update st.nt i (st.nt i + 1) j
    by_cases hji : j = i
    · subst hji
      rw [Function.update_self]
      exact hle.trans (Nat.le_succ _)
    · rwa [Function.update_of_ne hji]
  buf j := by
    have hn : 1 ≤ n := (Finset.mem_Icc.mp hi).1.trans (Finset.mem_Icc.mp hi).2
    have hb1 := le_slowest hn hst.behind
    change (if st.b1 ≤ j ∧ j < slowest n st.nt then none else st.buf j) =
      if slowest n st.nt ≤ j ∧ j ≤ st.bn then some (it.blindTuple h (j - 1)) else none
    rw [hst.buf]
    grind

theorem ft_of_fetched (hst : Buffered n it h st) {i : ℕ} (hi : i ∈ Finset.Icc 1 n)
    (hbn : st.nt i ≤ st.bn) :
    ft len n it i st =
      .ok (unpack len (it.blindTuple h (st.nt i - 1)), st.moved n i) := by
  have hbuf := hst.buf (st.nt i)
  rw [if_pos ⟨hst.behind i hi, hbn⟩] at hbuf
  simp [ft, if_neg (not_lt.mpr hbn), hbuf, nonNil, Tee.moved, bind, Except.bind, pure,
    Except.pure]

/-- A function takes its tuple, which may have to be fetched. -/
theorem ft_ok (len : Tuple V → ℕ) (hst : Buffered n it h st) {i : ℕ} (hi : i ∈ Finset.Icc 1 n)
    (hpos : 1 ≤ st.nt i) (hbn : st.nt i ≤ st.bn + 1) {t : Tuple V} {h' : σ}
    (hblind : it.blind h (st.nt i - 1) = .ok (t, h')) :
    ∃ st', ft len n it i st = .ok (unpack len t, st') ∧ Buffered n it h st' ∧
      st'.nt = Function.update st.nt i (st.nt i + 1) ∧
      st'.bn = max st.bn (st.nt i) ∧ st'.b1 = slowest n st.nt := by
  have htuple : it.blindTuple h (st.nt i - 1) = t := by
    rw [Iterator.blindTuple, hblind]
  by_cases hlt : st.bn < st.nt i
  · have heq : st.nt i - 1 = st.bn := by omega
    rw [heq] at hblind
    have hb1 : st.b1 ≤ st.bn + 1 := (hst.behind i hi).trans hbn
    obtain ⟨st₁, hfetch, hst₁, hbn₁, hnt₁, -⟩ := fetch_ok hst hb1 hblind
    have hready : st₁.nt i ≤ st₁.bn := by rwa [hnt₁, hbn₁]
    refine ⟨st₁.moved n i, ?_, moved_buffered hst₁ hi, ?_, ?_, ?_⟩
    · have hmoved : ft len n it i st₁ = _ := ft_of_fetched hst₁ hi hready
      rw [hnt₁, htuple] at hmoved
      rw [← hmoved, ft, if_pos hlt, hfetch, ft, if_neg (not_lt.mpr hready)]
      rfl
    · rw [← hnt₁]
      rfl
    · rw [max_eq_right hlt.le]
      exact hbn₁.trans (by omega)
    · rw [← hnt₁]
      rfl
  · have hle := not_lt.mp hlt
    refine ⟨st.moved n i, ?_, moved_buffered hst hi, rfl, ?_, rfl⟩
    · rw [ft_of_fetched hst hi hle, htuple]
    · exact (max_eq_left hle).symm

theorem ft_error (hst : Buffered n it h st) {i : ℕ} (hbn : st.nt i = st.bn + 1)
    {e : Error} (hblind : it.blind h st.bn = .error e) :
    ft len n it i st = .error e := by
  rw [ft, if_pos (by omega), fetch_error hst hblind]
  rfl

end Buffer

/-! ### Runs -/

/-- The state after some calls. -/
structure Window (len : Tuple V → ℕ) (n : ℕ) (it : Iterator σ V) (h : σ)
    (p : List ℕ) (c : Consumers σ V) : Prop where
  buffered : Buffered n it h c.tee
  nt : ∀ i, c.tee.nt i = p.count i + 1
  bn : c.tee.bn = fastest (Finset.Icc 1 n) p
  b1 : c.tee.b1 = slowest n fun i => p.dropLast.count i + 1
  received : ∀ i, c.received i =
    (List.range (p.count i)).map fun k => unpack len (it.blindTuple h k)

section Runs

variable {len : Tuple V → ℕ} {n : ℕ} {it : Iterator σ V} {h : σ} {p : List ℕ}
  {c : Consumers σ V}

theorem window_start (hn : 1 ≤ n) :
    Window len n it h [] ((Teed.functions n it).start h) where
  buffered := buffered_start n it h
  nt _ := rfl
  bn := fastest_nil.symm
  b1 := by
    apply le_antisymm
    · exact le_slowest hn fun _ _ => le_rfl
    · exact slowest_le (Finset.mem_Icc.mpr ⟨le_rfl, hn⟩)
  received _ := rfl

theorem step_ok (hw : Window len n it h p c) {i : ℕ} (hi : i ∈ Finset.Icc 1 n)
    {t : Tuple V} {h' : σ} (hblind : it.blind h (p.count i) = .ok (t, h')) :
    ∃ c', (Teed.functions n it).step len c i = .ok c' ∧
      Window len n it h (p ++ [i]) c' := by
  have hnt := hw.nt i
  have hcount : p.count i ≤ c.tee.bn := hw.bn ▸ count_le_fastest hi
  have hprev : c.tee.nt i - 1 = p.count i := by omega
  rw [← hprev] at hblind
  obtain ⟨st', hft, hst', hnt', hbn', hb1'⟩ :=
    ft_ok len hw.buffered hi (by omega) (by omega) hblind
  refine ⟨{
    tee := st'
    control := Function.update c.control i ((unpack len t).at 1)
    received := Function.update c.received i (c.received i ++ [unpack len t]) },
    ?_, hst', fun j => ?_, ?_, ?_, fun j => ?_⟩
  · rw [Teed.step, Teed.call, hft]
    rfl
  · rw [hnt', count_snoc]
    by_cases hji : j = i
    · subst hji
      rw [Function.update_self, if_pos rfl, hnt]
    · rw [Function.update_of_ne hji, if_neg (Ne.symm hji), hw.nt, Nat.add_zero]
  · rw [hbn', fastest_snoc hi, hw.bn, hnt]
  · rw [hb1', List.dropLast_concat]
    exact congrArg (slowest n) (funext hw.nt)
  · rw [count_snoc]
    by_cases hji : j = i
    · subst hji
      have htuple : it.blindTuple h (p.count j) = t := by
        rw [← hprev, Iterator.blindTuple, hblind]
      simp only [Function.update_self, if_true]
      rw [List.range_succ, List.map_append, hw.received, List.map_singleton, htuple]
    · simp only [Function.update_of_ne hji, if_neg (Ne.symm hji), Nat.add_zero]
      exact hw.received j

theorem step_error (hw : Window len n it h p c) {i : ℕ} (hi : i ∈ Finset.Icc 1 n)
    {e : Error} (hblind : it.blind h (p.count i) = .error e) :
    (Teed.functions n it).step len c i = .error e := by
  have hcount : p.count i ≤ c.tee.bn := hw.bn ▸ count_le_fastest hi
  have hlast : p.count i = c.tee.bn := by
    by_contra hne
    obtain ⟨t, h', hok⟩ := hw.buffered.fetched _ (lt_of_le_of_ne hcount hne)
    rw [hblind] at hok
    cases hok
  rw [Teed.step, Teed.call, ft_error hw.buffered (by rw [hw.nt, hlast]) (hlast ▸ hblind)]
  rfl

theorem run_snoc (teed : Teed σ V) (h : σ) (p : List ℕ) (i : ℕ) :
    teed.run len h (p ++ [i]) = teed.run len h p >>= fun c => teed.step len c i := by
  rw [Teed.run, List.foldlM_append]
  simp [Teed.run]

/-- Calls that return leave what they should. -/
theorem window_of_run (hp : ∀ i ∈ p, i ∈ Finset.Icc 1 n) (hn : 1 ≤ n)
    (hrun : (Teed.functions n it).run len h p = .ok c) : Window len n it h p c := by
  induction p using List.reverseRecOn generalizing c with
  | nil =>
      obtain rfl := Except.ok.inj hrun
      exact window_start hn
  | append_singleton q i ih =>
      rw [run_snoc] at hrun
      obtain ⟨c₀, hc₀, hstep⟩ := bind_eq_ok_iff.mp hrun
      have hw := ih (fun j hj => hp j (List.mem_append_left _ hj)) hc₀
      have hi := hp i (List.mem_append_right _ List.mem_cons_self)
      cases hblind : it.blind h (q.count i) with
      | error e =>
          rw [step_error hw hi hblind] at hstep
          cases hstep
      | ok r =>
          obtain ⟨t, h'⟩ := r
          obtain ⟨c', hc', hw'⟩ := step_ok hw hi hblind
          obtain rfl := Except.ok.inj (hc'.symm.trans hstep)
          exact hw'

/-- Calls return when the iterator does. -/
theorem exists_run (hp : ∀ i ∈ p, i ∈ Finset.Icc 1 n) (hn : 1 ≤ n)
    (hblind : ∀ k < fastest (Finset.Icc 1 n) p, ∃ t h', it.blind h k = .ok (t, h')) :
    ∃ c, (Teed.functions n it).run len h p = .ok c := by
  induction p using List.reverseRecOn with
  | nil => exact ⟨_, rfl⟩
  | append_singleton q i ih =>
      have hq : ∀ j ∈ q, j ∈ Finset.Icc 1 n := fun j hj =>
        hp j (List.mem_append_left _ hj)
      have hi := hp i (List.mem_append_right _ List.mem_cons_self)
      rw [fastest_snoc hi] at hblind
      obtain ⟨c, hc⟩ := ih hq fun k hk => hblind k (lt_max_of_lt_left hk)
      obtain ⟨t, h', hok⟩ := hblind (q.count i) (lt_max_of_lt_right (Nat.lt_succ_self _))
      obtain ⟨c', hc', -⟩ := step_ok (window_of_run hq hn hc) hi hok
      exact ⟨c', by rw [run_snoc, hc]; exact hc'⟩

end Runs

end LuaAttic.Iterators
