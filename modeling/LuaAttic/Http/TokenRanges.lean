import LuaAttic.Http.Headers
import LuaAttic.Support.Fallible
import LuaAttic.Support.Iteration
import LuaAttic.Support.Ranges

/-!
# Ranges of tokens (`http_headers.lua`)

`tsplit` is a function with two cursors, which gives the first and the last index of each
part of a list of tokens.  A value with parameters is split in the same list.  What is read
is what is read from the parts as lists.
-/

namespace LuaAttic.Http.TokenRanges

open LuaAttic.Lua LuaAttic.Support
open LuaAttic.Http.Headers (Part Platform ParamParsers Fields Value setField)

/-- `tfind(t, s, start, stop)` -/
def tfind (t : List Bytes) (s : Bytes) (start stop : Option Int) : Option Int :=
  let start := start.getD 1
  let stop := stop.getD t.length
  ((List.range (stop + 1 - start).toNat).find? fun (k : ℕ) => tableGet t (start + k) = some s).map
    fun (k : ℕ) => start + k

variable {t : List Bytes} {s sep : Bytes} {start stop i j : Int}

theorem tfind_eq_some (h : tfind t s (some start) (some stop) = some i) :
    start ≤ i ∧ i ≤ stop ∧ tableGet t i = some s ∧
      ∀ k, start ≤ k → k < i → tableGet t k ≠ some s := by
  obtain ⟨n, hn, rfl⟩ := Option.map_eq_some_iff.mp h
  obtain ⟨hget, hmem, hbefore⟩ := List.find?_range_eq_some.mp hn
  have hlt := List.mem_range.mp hmem
  simp only [Option.getD_some] at hget hbefore hlt ⊢
  refine ⟨by omega, by omega, of_decide_eq_true hget, ?_⟩
  intro k hk hkn
  have hnot := hbefore (k - start).toNat (by omega)
  have hindex : start + ((k - start).toNat : Int) = k := by omega
  simpa only [hindex, Bool.not_eq_true', decide_eq_false_iff_not] using hnot

theorem tfind_eq_none (h : tfind t s (some start) (some stop) = none) {k : Int}
    (hk : start ≤ k) (hk' : k ≤ stop) : tableGet t k ≠ some s := by
  rw [tfind, Option.map_eq_none_iff, List.find?_range_eq_none] at h
  have hnot := h (k - start).toNat (by simp only [Option.getD_some]; omega)
  have hindex : start + ((k - start).toNat : Int) = k := by omega
  simpa only [Option.getD_some, hindex, Bool.not_eq_true', decide_eq_false_iff_not] using hnot

/-! ## `tsplit` -/

/-- The cursors of the function that `tsplit` returns. -/
structure Cursors where
  i : Int
  nextI : Int

/-- `tfind(t, sep, next_i, stop) or stop+1` -/
def sepIndex (t : List Bytes) (sep : Bytes) (nextI stop : Int) : Int :=
  (tfind t sep (some nextI) (some stop)).getD (stop + 1)

theorem le_sepIndex (t : List Bytes) (sep : Bytes) (h : start ≤ stop) :
    start ≤ sepIndex t sep start stop := by
  rw [sepIndex]
  cases hfind : tfind t sep (some start) (some stop) with
  | none => exact h.trans (Int.le_add_one le_rfl)
  | some k => exact (tfind_eq_some hfind).1

/-- A call of the function that `tsplit` returns: the first and the last index of a part,
which come after `t`. -/
def nextRange (t : List Bytes) (sep : Bytes) (stop : Int) (st : Cursors) :
    Option (Int × Int) × Cursors :=
  if h : st.nextI > stop then (none, st)
  else
    let next := sepIndex t sep st.nextI stop + 1
    if next - 1 - st.nextI > 0 then (some (st.nextI, next - 2), ⟨st.nextI, next⟩)
    else nextRange t sep stop ⟨st.nextI, next⟩
termination_by (stop + 1 - st.nextI).toNat
decreasing_by
  have := le_sepIndex t sep (Int.not_lt.mp h)
  omega

/-- `tsplit(t, sep, start, stop)` -/
def tsplit (start : Option Int) : Cursors := ⟨start.getD 1, start.getD 1⟩

/-- A call that gives a part moves the second cursor on. -/
theorem nextI_lt {st st' : Cursors} {r : Int × Int}
    (h : nextRange t sep stop st = (some r, st')) : st.nextI ≤ stop ∧ st.nextI < st'.nextI := by
  fun_induction nextRange t sep stop st with
  | case1 st hgt => cases h
  | case2 st hle next hpos =>
      obtain ⟨-, rfl⟩ := Prod.mk.inj h
      exact ⟨Int.not_lt.mp hle, by simp only; omega⟩
  | case3 st hle next hpos ih =>
      have hnext : st.nextI < next := Int.lt_add_one_of_le (le_sepIndex t sep (Int.not_lt.mp hle))
      exact ⟨Int.not_lt.mp hle, hnext.trans (ih h).2⟩

/-- The parts that the function gives from its cursors on. -/
def rangesFrom (t : List Bytes) (sep : Bytes) (stop : Int) (st : Cursors) : List (Int × Int) :=
  match _h : nextRange t sep stop st with
  | (none, _) => []
  | (some r, st') => r :: rangesFrom t sep stop st'
termination_by (stop + 1 - st.nextI).toNat
decreasing_by
  have := nextI_lt _h
  omega

/-- The values of a loop `for t,ii,jj in tsplit(t,sep,start,stop)`, without `t`. -/
def ranges (t : List Bytes) (sep : Bytes) (start stop : Option Int) : List (Int × Int) :=
  rangesFrom t sep (stop.getD t.length) (tsplit start)

/-! ## Parameters -/

section Parameters

variable {P : Platform}

/-- `unpack(t, i, j)`, of which the first must not be nil. -/
def part (t : List Bytes) (i j : Int) : Except Headers.Error Part :=
  if i < 1 then .error .nilIndex
  else
    match (t.take j.toNat).drop (i - 1).toNat with
    | [] => .error .nilIndex
    | x :: more => .ok ⟨x, more, t.drop j.toNat⟩

/-- `kv(t, parsers, i, j)` -/
def kv (t : List Bytes) (parsers : ParamParsers P) (i j : Int) :
    Except Headers.Error (Option Bytes × Option (Value P)) := do
  Headers.kv parsers (← part t i j)

/-- `dt[k] = v` for a part. -/
def setParam (t : List Bytes) (parsers : ParamParsers P) (dt : Fields P) (r : Int × Int) :
    Except Headers.Error (Fields P) := do
  let (k, v) ← kv t parsers r.1 r.2
  setField dt k v

/-- `kvlist(t, sep, parsers, i, j)` -/
def kvlist (t : List Bytes) (sep : Bytes) (parsers : ParamParsers P) (i j : Option Int) :
    Except Headers.Error (Fields P) :=
  (ranges t sep i j).foldlM (setParam t parsers) []

/-- `valueparams(t, parsers, i, j)`: the indices of the value, and the parameters. -/
def valueparams (t : List Bytes) (parsers : ParamParsers P) (i j : Option Int) :
    Except Headers.Error (Int × Int × Option (Fields P)) := do
  let i := i.getD 1
  let j := j.getD t.length
  match tfind t (lit ";") (some i) (some j) with
  | none => return (i, j, none)
  | some ii =>
      let params ← kvlist t (lit ";") parsers (some (ii + 1)) (some j)
      return (i, ii - 1, some params)

/-- A call of the function that `valueparamslist(s, parsers)` returns, for the tokens of
`s`. -/
def valueparamslist (t : List Bytes) (parsers : ParamParsers P) (st : Cursors) :
    Except Headers.Error (Option (Int × Int × Option (Fields P)) × Cursors) :=
  match nextRange t (lit ",") t.length st with
  | (none, st) => .ok (none, st)
  | (some (i, j), st) => do return (some (← valueparams t parsers (some i) (some j)), st)

end Parameters

/-! ## The parts -/

/-- A call of the function that `tsplit` returns, which ignores what it is given. -/
def call (t : List Bytes) (sep : Bytes) (stop : Int) (_ : Option (Int × Int)) (st : Cursors) :
    Except Empty (Option (Int × Int) × Cursors) :=
  .ok (nextRange t sep stop st)

/-- The iteration ends, with the parts in a list. -/
theorem yields_rangesFrom (t : List Bytes) (sep : Bytes) (stop : Int) (c : Option (Int × Int))
    (st : Cursors) : Yields (call t sep stop) c st (rangesFrom t sep stop st) := by
  fun_induction rangesFrom t sep stop st generalizing c with
  | case1 st st' h => exact Yields.done (congrArg Except.ok h)
  | case2 st r st' h ih => exact Yields.step (congrArg Except.ok h) (ih (some r))

/-- The index of a token that separates. -/
def IsSep (t : List Bytes) (sep : Bytes) (i : Int) : Prop := tableGet t i = some sep

/-- The first separator, or the index after the end. -/
theorem sepIndex_spec (t : List Bytes) (sep : Bytes) (start stop : Int) :
    (sepIndex t sep start stop = stop + 1 ∨
        sepIndex t sep start stop ≤ stop ∧ IsSep t sep (sepIndex t sep start stop)) ∧
      ∀ k, start ≤ k → k < sepIndex t sep start stop → ¬ IsSep t sep k := by
  rw [sepIndex]
  cases hfind : tfind t sep (some start) (some stop) with
  | none =>
      refine ⟨Or.inl rfl, ?_⟩
      intro k hk hk'
      exact tfind_eq_none hfind hk (Int.le_of_lt_add_one hk')
  | some e =>
      obtain ⟨-, hstop, hsep, hbefore⟩ := tfind_eq_some hfind
      exact ⟨Or.inr ⟨hstop, hsep⟩, hbefore⟩

/-- An empty part has a separator after it. -/
theorem isSep_of_empty (hle : start ≤ stop) (h : ¬ sepIndex t sep start stop + 1 - 1 - start > 0) :
    sepIndex t sep start stop = start ∧ IsSep t sep start := by
  have hfirst := le_sepIndex t sep hle
  have heq : sepIndex t sep start stop = start := by omega
  obtain ⟨hsep, -⟩ := sepIndex_spec t sep start stop
  rw [heq] at hsep
  exact ⟨heq, (hsep.resolve_left (by omega)).2⟩

/-- Without a part there are only separators. -/
theorem ranges_of_nextRange_none {st st' : Cursors} (h : nextRange t sep stop st = (none, st')) :
    Ranges (IsSep t sep) st.nextI stop [] := by
  fun_induction nextRange t sep stop st with
  | case1 st hgt => exact Ranges.nil hgt
  | case2 st hle next hpos => cases (Prod.mk.inj h).1
  | case3 st hle next hpos ih =>
      obtain ⟨heq, hskip⟩ := isSep_of_empty (Int.not_lt.mp hle) hpos
      apply Ranges.skip hskip
      simpa only [next, heq] using ih h

/-- A part is the first one of those that are left. -/
theorem ranges_of_nextRange_some {st st' : Cursors} {r : Int × Int} {rs : List (Int × Int)}
    (h : nextRange t sep stop st = (some r, st'))
    (hrs : Ranges (IsSep t sep) st'.nextI stop rs) :
    Ranges (IsSep t sep) st.nextI stop (r :: rs) := by
  fun_induction nextRange t sep stop st with
  | case1 st hgt => cases (Prod.mk.inj h).1
  | case2 st hle next hpos =>
      obtain ⟨hr, rfl⟩ := Prod.mk.inj h
      obtain ⟨hsep, hbefore⟩ := sepIndex_spec t sep st.nextI stop
      have hlast : next - 2 + 1 = sepIndex t sep st.nextI stop := by omega
      rw [← Option.some.inj hr]
      apply Ranges.cons
      · omega
      · omega
      · intro k hk hk'
        exact hbefore k hk (by omega)
      · rw [hlast]
        exact hsep.imp (by omega) And.right
      · rwa [Int.sub_add_cancel]
  | case3 st hle next hpos ih =>
      obtain ⟨heq, hskip⟩ := isSep_of_empty (Int.not_lt.mp hle) hpos
      apply Ranges.skip hskip
      simpa only [next, heq] using ih h

/-- The parts are the largest ranges without separators. -/
theorem ranges_rangesFrom (t : List Bytes) (sep : Bytes) (stop : Int) (st : Cursors) :
    Ranges (IsSep t sep) st.nextI stop (rangesFrom t sep stop st) := by
  fun_induction rangesFrom t sep stop st with
  | case1 st st' h => exact ranges_of_nextRange_none h
  | case2 st r st' h ih => exact ranges_of_nextRange_some h ih

/-! ## Values with parameters -/

section Values

variable {P : Platform} {parsers : ParamParsers P}

/-- The parts of a range of tokens: those of the value, up to the first semicolon, and those
of each parameter. -/
structure ValueParts (t : List Bytes) (i j j' : Int) (params : Option (List (Int × Int))) :
    Prop where
  le : j' ≤ j
  value_free : ∀ k, i ≤ k → k ≤ j' → ¬ IsSep t (lit ";") k
  eq_of_none : params = none → j' = j
  isSep_of_some : ∀ ps, params = some ps → IsSep t (lit ";") (j' + 1)
  ranges_of_some : ∀ ps, params = some ps → Ranges (IsSep t (lit ";")) (j' + 2) j ps

theorem ValueParts.of_none (h : tfind t (lit ";") (some i) (some j) = none) :
    ValueParts t i j j none where
  le := le_rfl
  value_free _ hk hk' := tfind_eq_none h hk hk'
  eq_of_none _ := rfl
  isSep_of_some _ hps := absurd hps (Option.some_ne_none _).symm
  ranges_of_some _ hps := absurd hps (Option.some_ne_none _).symm

theorem ValueParts.of_some {ii : Int} (h : tfind t (lit ";") (some i) (some j) = some ii) :
    ValueParts t i j (ii - 1) (some (ranges t (lit ";") (some (ii + 1)) (some j))) where
  le := by
    have := (tfind_eq_some h).2.1
    omega
  value_free := by
    intro k hk hk'
    exact (tfind_eq_some h).2.2.2 k hk (by omega)
  eq_of_none hps := absurd hps (Option.some_ne_none _)
  isSep_of_some := by
    intro ps _
    rw [Int.sub_add_cancel]
    exact (tfind_eq_some h).2.2.1
  ranges_of_some := by
    intro ps hps
    have hnext : ii - 1 + 2 = ii + 1 := by omega
    rw [← Option.some.inj hps, hnext]
    exact ranges_rangesFrom t (lit ";") j ⟨ii + 1, ii + 1⟩

/-- The parameters that are read from parts. -/
def readParams (t : List Bytes) (parsers : ParamParsers P) :
    Option (List (Int × Int)) → Except Headers.Error (Option (Fields P))
  | none => .ok none
  | some ps => some <$> ps.foldlM (setParam t parsers) []

/-- A value and its parameters are split at the first semicolon. -/
theorem exists_valueParts (t : List Bytes) (parsers : ParamParsers P) (i j : Int) :
    ∃ j' params, ValueParts t i j j' params ∧ valueparams t parsers (some i) (some j) =
      (fun dt => (i, j', dt)) <$> readParams t parsers params := by
  cases h : tfind t (lit ";") (some i) (some j) with
  | none =>
      refine ⟨j, none, .of_none h, ?_⟩
      simp only [valueparams, Option.getD_some, h]
      rfl
  | some ii =>
      refine ⟨ii - 1, _, .of_some h, ?_⟩
      simp only [valueparams, Option.getD_some, h, readParams, kvlist, map_eq_pure_bind,
        bind_assoc, pure_bind]

/-- Each token other than a semicolon is of the value or of one parameter. -/
theorem ValueParts.existsUnique {j' : Int} {params : Option (List (Int × Int))}
    (h : ValueParts t i j j' params) {k : Int} (hk : i ≤ k) (hk' : k ≤ j)
    (hsep : ¬ IsSep t (lit ";") k) :
    ∃! r, r ∈ (i, j') :: params.getD [] ∧ r.1 ≤ k ∧ k ≤ r.2 := by
  cases params with
  | none =>
      obtain rfl := h.eq_of_none rfl
      refine ⟨(i, j'), ⟨List.mem_cons_self, hk, hk'⟩, ?_⟩
      rintro r ⟨hr, -⟩
      exact List.mem_singleton.mp hr
  | some ps =>
      have hps := h.ranges_of_some ps rfl
      have hne : k ≠ j' + 1 := fun heq => hsep (heq ▸ h.isSep_of_some ps rfl)
      by_cases hvalue : k ≤ j'
      · refine ⟨(i, j'), ⟨List.mem_cons_self, hk, hvalue⟩, ?_⟩
        rintro r ⟨hr, hrk, -⟩
        rcases List.mem_cons.mp hr with hr | hr
        · exact hr
        · have := ((hps.mem_iff r).mp hr).le_fst
          omega
      · obtain ⟨r, ⟨hr, hrk⟩, hunique⟩ := hps.existsUnique (by omega) hk' hsep
        refine ⟨r, ⟨List.mem_cons_of_mem _ hr, hrk⟩, ?_⟩
        rintro r' ⟨hr', hrk'⟩
        rcases List.mem_cons.mp hr' with rfl | hr'
        · exact absurd hrk'.2 hvalue
        · exact hunique r' ⟨hr', hrk'⟩

/-- The iteration over the values of a list gives what `valueparams` gives for each part, when
none of them fails. -/
theorem yields_valueparamslist (t : List Bytes) (parsers : ParamParsers P) (st : Cursors)
    (c : Option (Int × Int × Option (Fields P)))
    {values : List (Int × Int × Option (Fields P))}
    (h : (rangesFrom t (lit ",") t.length st).mapM
      (fun r => valueparams t parsers (some r.1) (some r.2)) = .ok values) :
    Yields (fun _ st => valueparamslist t parsers st) c st values := by
  fun_induction rangesFrom t (lit ",") t.length st generalizing c values with
  | case1 st st' hnext =>
      obtain rfl := Except.ok.inj h
      have hcall : valueparamslist t parsers st = .ok (none, st') := by rw [valueparamslist, hnext]
      exact Yields.done hcall
  | case2 st r st' hnext ih =>
      rw [List.mapM_cons] at h
      obtain ⟨value, hvalue, h⟩ := bind_eq_ok_iff.mp h
      obtain ⟨rest, hrest, h⟩ := bind_eq_ok_iff.mp h
      obtain rfl := Except.ok.inj h
      have hcall : valueparamslist t parsers st = .ok (some value, st') := by
        rw [valueparamslist, hnext]
        simp only [hvalue]
        rfl
      exact Yields.step hcall (ih (some value) hrest)

end Values

/-- The iteration of `tsplit` ends, and gives the largest ranges without separators in order;
`valueparams` splits each of them at its first semicolon, so that each token of it is of the
value or of one parameter. -/
theorem tsplit_valueparams (t : List Bytes) (sep : Bytes) (start stop : Option Int)
    {P : Platform} (parsers : ParamParsers P) :
    ∃ rs, (∀ l, Yields (call t sep (stop.getD t.length)) none (tsplit start) l ↔ l = rs) ∧
      rs.Pairwise (fun r r' => r.2 < r'.1) ∧
      (∀ r, r ∈ rs ↔ MaximalRange (IsSep t sep) (start.getD 1) (stop.getD t.length) r) ∧
      (∀ k, start.getD 1 ≤ k → k ≤ stop.getD t.length → ¬ IsSep t sep k →
        ∃! r, r ∈ rs ∧ r.1 ≤ k ∧ k ≤ r.2) ∧
      ∀ r ∈ rs, ∃ j' params, ValueParts t r.1 r.2 j' params ∧
        valueparams t parsers (some r.1) (some r.2) =
          (fun dt => (r.1, j', dt)) <$> readParams t parsers params ∧
        ∀ k, r.1 ≤ k → k ≤ r.2 → ¬ IsSep t (lit ";") k →
          ∃! p, p ∈ (r.1, j') :: params.getD [] ∧ p.1 ≤ k ∧ k ≤ p.2 := by
  have hranges := ranges_rangesFrom t sep (stop.getD t.length) (tsplit start)
  refine ⟨ranges t sep start stop,
    fun l => (yields_rangesFrom t sep (stop.getD t.length) none (tsplit start)).iff_eq,
    hranges.ordered, hranges.mem_iff, ?_, ?_⟩
  · intro k hk hk' hsep
    exact hranges.existsUnique hk hk' hsep
  · intro r hr
    obtain ⟨j', params, hparts, heq⟩ := exists_valueParts t parsers r.1 r.2
    exact ⟨j', params, hparts, heq, fun k hk hk' hsep => hparts.existsUnique hk hk' hsep⟩

/-! ## The parts as lists -/

/-- Tokens that do not separate are of the part that has begun. -/
theorem tsplitFrom_append {xs : List Bytes} (h : ∀ x ∈ xs, x ≠ sep) (started rest : List Bytes) :
    Headers.tsplitFrom sep started (xs ++ rest) =
      Headers.tsplitFrom sep (started ++ xs) rest := by
  induction xs generalizing started with
  | nil => rw [List.nil_append, List.append_nil]
  | cons x xs ih =>
      obtain ⟨hx, hxs⟩ := List.forall_mem_cons.mp h
      have hmore := ih hxs (started ++ [x])
      rw [List.append_assoc, List.singleton_append] at hmore
      rw [List.cons_append, ← hmore]
      cases started with
      | nil => rw [Headers.tsplitFrom, if_neg hx, List.nil_append]
      | cons y l => rw [Headers.tsplitFrom, if_neg hx, List.cons_append]

theorem tsplit_cons_sep (sep : Bytes) (u : List Bytes) :
    Headers.tsplit (sep :: u) sep = Headers.tsplit u sep := if_pos rfl

theorem takeWhile_ne (u : List Bytes) (s : Bytes) :
    u.takeWhile (· ≠ s) = u.take (u.findIdx (· = s)) := by
  simp only [List.takeWhile_eq_take_findIdx_not, ne_eq, decide_not, Bool.not_not]

theorem dropWhile_ne (u : List Bytes) (s : Bytes) :
    u.dropWhile (· ≠ s) = u.drop (u.findIdx (· = s)) := by
  simp only [List.dropWhile_eq_drop_findIdx_not, ne_eq, decide_not, Bool.not_not]

/-- The tokens up to a separator are a part. -/
theorem tsplit_of_takeWhile {u l : List Bytes} {x : Bytes}
    (h : u.takeWhile (· ≠ sep) = x :: l) :
    Headers.tsplit u sep =
      ⟨x, l, u.dropWhile (· ≠ sep)⟩ :: Headers.tsplit (u.drop (l.length + 2)) sep := by
  have hfree : ∀ y ∈ x :: l, y ≠ sep := by
    intro y hy
    rw [← h] at hy
    have hne := List.mem_takeWhile_imp hy
    exact of_decide_eq_true hne
  have hsplit : u = (x :: l) ++ u.dropWhile (· ≠ sep) := by
    rw [← h, List.takeWhile_append_dropWhile]
  have hdrop : u.drop (l.length + 2) = (u.dropWhile (· ≠ sep)).drop 1 := by
    conv_lhs => rw [hsplit]
    rw [List.drop_append, List.length_cons]
    simp
  rw [hdrop]
  conv_lhs => rw [hsplit, Headers.tsplit, tsplitFrom_append hfree, List.nil_append]
  cases hrest : u.dropWhile (· ≠ sep) with
  | nil => rfl
  | cons y rest =>
      have hy : y = sep := by
        have hhead := List.head?_dropWhile_not (· ≠ sep) u
        rw [hrest] at hhead
        exact not_not.mp (of_decide_eq_false hhead)
      rw [Headers.tsplitFrom, if_pos hy]
      rfl

/-- The tokens with the indices `n+1` to `j`. -/
def tokensIn (t : List Bytes) (n j : ℕ) : List Bytes := (t.take j).drop n

theorem getElem?_tokensIn (t : List Bytes) {n j m : ℕ} (h : n + m < j) :
    (tokensIn t n j)[m]? = tableGet t (n + 1 + m) := by
  have hindex : ((n : Int) + 1 + m - 1).toNat = n + m := by omega
  rw [tokensIn, List.getElem?_drop, List.getElem?_take_of_lt h, tableGet, if_pos (by omega),
    hindex]

theorem length_tokensIn {n j : ℕ} (h : j ≤ t.length) : (tokensIn t n j).length = j - n := by
  rw [tokensIn, List.length_drop, List.length_take_of_le h]

theorem tfind_tokensIn {n j : ℕ} (h : j ≤ t.length) :
    tfind t s (some (n + 1)) (some j) =
      ((tokensIn t n j).findIdx? (· = s)).map fun m : ℕ => (n + 1 + m : Int) := by
  have hlength := length_tokensIn (n := n) h
  cases hidx : (tokensIn t n j).findIdx? (· = s) with
  | none =>
      rw [List.findIdx?_eq_none_iff] at hidx
      cases hfind : tfind t s (some (n + 1)) (some j) with
      | none => rfl
      | some k =>
          obtain ⟨hstart, hstop, hget, -⟩ := tfind_eq_some hfind
          have hindex : (n + 1 + (k - n - 1).toNat : Int) = k := by omega
          rw [← hindex, ← getElem?_tokensIn t (j := j) (by omega)] at hget
          exact absurd rfl (of_decide_eq_false (hidx s (List.mem_of_getElem? hget)))
  | some m =>
      obtain ⟨hm, heq, hbefore⟩ := List.findIdx?_eq_some_iff_getElem.mp hidx
      have hget : tableGet t (n + 1 + m) = some s := by
        rw [← getElem?_tokensIn t (j := j) (by omega), List.getElem?_eq_getElem hm,
          of_decide_eq_true heq]
      cases hfind : tfind t s (some (n + 1)) (some j) with
      | none => exact absurd hget (tfind_eq_none hfind (by omega) (by omega))
      | some k =>
          obtain ⟨hstart, hstop, hget', hbefore'⟩ := tfind_eq_some hfind
          have hle : k ≤ n + 1 + m := by
            by_contra hlt
            exact hbefore' _ (by omega) (by omega) hget
          have hge : n + 1 + m ≤ k := by
            by_contra hlt
            have hindex : (n + 1 + (k - n - 1).toNat : Int) = k := by omega
            have hk : (k - n - 1).toNat < (tokensIn t n j).length := by omega
            rw [← hindex, ← getElem?_tokensIn t (j := j) (by omega),
              List.getElem?_eq_getElem hk] at hget'
            exact hbefore _ (by omega) (decide_eq_true (Option.some.inj hget'))
          rw [le_antisymm hle hge]
          rfl

theorem sepIndex_tokensIn (sep : Bytes) {n j : ℕ} (hn : n ≤ j) (hj : j ≤ t.length) :
    sepIndex t sep (n + 1) j = n + 1 + (tokensIn t n j).findIdx (· = sep) := by
  rw [sepIndex, tfind_tokensIn hj, List.findIdx_eq_getD_findIdx?, length_tokensIn hj]
  cases (tokensIn t n j).findIdx? (· = sep) with
  | none =>
      simp only [Option.map_none, Option.getD_none]
      omega
  | some m => rfl

theorem tokensIn_eq_cons {n j : ℕ} {x : Bytes} (h : n < j) (hx : tableGet t (n + 1) = some x) :
    tokensIn t n j = x :: tokensIn t (n + 1) j := by
  have hget : (tokensIn t n j)[0]? = some x := by
    rw [getElem?_tokensIn t (j := j) (by omega), ← hx]
    rfl
  have htail : (tokensIn t n j).tail = tokensIn t (n + 1) j := List.tail_drop
  rw [← htail]
  exact List.eq_cons_of_mem_head? (by rwa [List.head?_eq_getElem?])

theorem take_tokensIn {n m j : ℕ} (h : n + m ≤ j) :
    (tokensIn t n j).take m = (t.take (n + m)).drop n := by
  rw [tokensIn, List.take_drop, List.take_take, min_eq_left h]

theorem drop_tokensIn (t : List Bytes) (n m j : ℕ) :
    (tokensIn t n j).drop m = tokensIn t (n + m) j := List.drop_drop

theorem tokensIn_append_drop {n j : ℕ} (h : n ≤ j) (hj : j ≤ t.length) :
    tokensIn t n j ++ t.drop j = t.drop n := by
  have hn : n ≤ (t.take j).length := by rwa [List.length_take_of_le hj]
  rw [tokensIn, ← List.drop_append_of_le_length hn, List.take_append_drop]

/-- A part of a range, with what comes after the range. -/
def before (p : Part) (rest : List Bytes) : Part := { p with after := p.after ++ rest }

/-- A part that is not empty is the first one of the list. -/
theorem exists_part {n j : ℕ} (hn : n < j) (hj : j ≤ t.length)
    (hpos : n + 1 < sepIndex t sep (n + 1) j) :
    ∃ p, ∃ m : ℕ, sepIndex t sep (n + 1) j = n + m + 1 ∧
      part t (n + 1) (n + m) = .ok (before p (t.drop j)) ∧
      Headers.tsplit (tokensIn t n j) sep =
        p :: Headers.tsplit (tokensIn t (n + m + 1) j) sep := by
  have hindex := sepIndex_tokensIn sep hn.le hj
  have hlength : (tokensIn t n j).findIdx (· = sep) ≤ (tokensIn t n j).length :=
    List.findIdx_le_length
  have htake := takeWhile_ne (tokensIn t n j) sep
  have hdrop := dropWhile_ne (tokensIn t n j) sep
  generalize (tokensIn t n j).findIdx (· = sep) = m at hindex hlength htake hdrop
  rw [length_tokensIn hj] at hlength
  rw [take_tokensIn (by omega)] at htake
  rw [drop_tokensIn] at hdrop
  have hm : ((t.take (n + m)).drop n).length = m := by
    rw [List.length_drop, List.length_take_of_le (by omega)]
    omega
  obtain ⟨x, l, hpart⟩ : ∃ x l, (t.take (n + m)).drop n = x :: l := by
    apply List.exists_cons_of_length_pos
    omega
  rw [hpart, List.length_cons] at hm
  refine ⟨⟨x, l, tokensIn t (n + m) j⟩, m, by omega, ?_, ?_⟩
  · have hfirst : ((n : Int) + 1 - 1).toNat = n := by omega
    have hlast : ((n : Int) + m).toNat = n + m := by omega
    rw [part, if_neg (by omega), hfirst, hlast, hpart]
    simp only [before, tokensIn_append_drop (by omega : n + m ≤ j) hj]
  · rw [tsplit_of_takeWhile (htake.trans hpart), hdrop, drop_tokensIn, ← hm]
    rfl

theorem tsplit_of_nextRange_none {j : ℕ} {st st' : Cursors} (hstop : stop = j)
    (h : nextRange t sep stop st = (none, st')) :
    ∀ n : ℕ, st.nextI = n + 1 → Headers.tsplit (tokensIn t n j) sep = [] := by
  fun_induction nextRange t sep stop st with
  | case1 st hgt =>
      intro n hn
      have hle : (t.take j).length ≤ n := by
        rw [List.length_take]
        omega
      rw [tokensIn, List.drop_of_length_le hle]
      rfl
  | case2 st hle next hpos => cases (Prod.mk.inj h).1
  | case3 st hle next hpos ih =>
      intro n hn
      obtain ⟨heq, hskip⟩ := isSep_of_empty (Int.not_lt.mp hle) hpos
      rw [hn] at hskip
      rw [tokensIn_eq_cons (by omega) hskip, tsplit_cons_sep]
      exact ih h (n + 1) (by simp only [next, heq]; omega)

theorem tsplit_of_nextRange_some {j : ℕ} {st st' : Cursors} {r : Int × Int} (hstop : stop = j)
    (hj : j ≤ t.length) (h : nextRange t sep stop st = (some r, st')) :
    ∀ n : ℕ, st.nextI = n + 1 →
      ∃ p, ∃ n' : ℕ, part t r.1 r.2 = .ok (before p (t.drop j)) ∧ st'.nextI = n' + 1 ∧
        Headers.tsplit (tokensIn t n j) sep = p :: Headers.tsplit (tokensIn t n' j) sep := by
  fun_induction nextRange t sep stop st with
  | case1 st hgt => cases (Prod.mk.inj h).1
  | case2 st hle next hpos =>
      intro n hn
      obtain ⟨hr, rfl⟩ := Prod.mk.inj h
      obtain rfl := Option.some.inj hr
      simp only [next, hn, hstop] at hle hpos ⊢
      have hnj : n < j := by omega
      have hfirst : n + 1 < sepIndex t sep (n + 1) j := by omega
      obtain ⟨p, m, hindex, hpart, htsplit⟩ := exists_part hnj hj hfirst
      have hlast : sepIndex t sep (n + 1) j + 1 - 2 = n + m := by omega
      rw [hlast]
      exact ⟨p, n + m + 1, hpart, by omega, htsplit⟩
  | case3 st hle next hpos ih =>
      intro n hn
      obtain ⟨heq, hskip⟩ := isSep_of_empty (Int.not_lt.mp hle) hpos
      rw [hn] at hskip
      rw [tokensIn_eq_cons (by omega) hskip, tsplit_cons_sep]
      exact ih h (n + 1) (by simp only [next, heq]; omega)

/-- The ranges are those of the parts that a list is split into. -/
theorem mapM_part_rangesFrom (sep : Bytes) {n j : ℕ} {st : Cursors} (hstop : stop = j)
    (hj : j ≤ t.length) (hn : st.nextI = n + 1) :
    (rangesFrom t sep stop st).mapM (fun r => part t r.1 r.2) =
      .ok ((Headers.tsplit (tokensIn t n j) sep).map (before · (t.drop j))) := by
  fun_induction rangesFrom t sep stop st generalizing n with
  | case1 st st' h =>
      rw [tsplit_of_nextRange_none hstop h n hn]
      rfl
  | case2 st r st' h ih =>
      obtain ⟨p, n', hpart, hn', htsplit⟩ := tsplit_of_nextRange_some hstop hj h n hn
      rw [htsplit, List.mapM_cons, hpart, ih hn']
      rfl

/-- A whole list is split into the parts of its ranges. -/
theorem mapM_part_ranges (t : List Bytes) (sep : Bytes) :
    (ranges t sep none none).mapM (fun r => part t r.1 r.2) = .ok (Headers.tsplit t sep) := by
  have hstart : (tsplit none).nextI = (0 : ℕ) + 1 := rfl
  have hparts := mapM_part_rangesFrom sep rfl (le_refl t.length) hstart
  have hbefore : (before · []) = (id : Part → Part) := by
    funext p
    rw [before, List.append_nil, id_eq]
  rwa [tokensIn, List.take_length, List.drop_zero, List.drop_length, hbefore, List.map_id]
    at hparts

section Read

variable {P : Platform} (parsers : ParamParsers P)

/-- What is read in a range is what is read from its tokens as a list. -/
theorem kvlist_tokensIn {j : ℕ} (hj : j ≤ t.length) (sep : String) (n : ℕ) :
    kvlist t (lit sep) parsers (some (n + 1)) (some j) =
      Headers.kvlist sep parsers (tokensIn t n j) := by
  have hstart : (tsplit (some (n + 1))).nextI = n + 1 := rfl
  have hparts := mapM_part_rangesFrom (lit sep) rfl hj hstart
  have hread := foldlM_of_mapM hparts (g := fun dt p => do
    let (k, v) ← Headers.kv parsers p
    setField dt k v) []
  rw [List.foldlM_map] at hread
  have hstep : setParam t parsers = (fun dt r => do
      let p ← part t r.1 r.2
      let (k, v) ← Headers.kv parsers p
      setField dt k v) := by
    funext dt r
    rw [setParam, kv, bind_assoc]
  rw [kvlist, hstep]
  exact hread

theorem valueparams_tokensIn {n j : ℕ} (hn : n ≤ j) (hj : j ≤ t.length) :
    valueparams t parsers (some (n + 1)) (some j) =
      (fun params =>
          ((n + 1, n + (Headers.valueTokens (tokensIn t n j)).length, params) : Int × Int × _)) <$>
        Headers.valueparams parsers (tokensIn t n j) := by
  have htake := takeWhile_ne (tokensIn t n j) (lit ";")
  have hdrop := dropWhile_ne (tokensIn t n j) (lit ";")
  have hlength := length_tokensIn (n := n) hj
  simp only [valueparams, Option.getD_some, tfind_tokensIn hj, Headers.valueparams,
    Headers.paramTokens, Headers.valueTokens]
  cases hidx : (tokensIn t n j).findIdx? (· = lit ";") with
  | none =>
      have hlast : (n + (j - n : ℕ) : Int) = j := by omega
      rw [List.findIdx?_eq_none_iff_findIdx_eq.mp hidx] at htake hdrop
      rw [htake, hdrop, List.take_length, List.drop_length, hlength, hlast]
      rfl
  | some m =>
      obtain ⟨hm, heq, -⟩ := List.findIdx?_eq_some_iff_getElem.mp hidx
      have hrest : (n + 1 + m + 1 : Int) = (n + m + 1 : ℕ) + 1 := by omega
      have hvalue : (n + 1 + m - 1 : Int) = n + m := by omega
      rw [(List.findIdx?_eq_some_iff_findIdx_eq.mp hidx).2] at htake hdrop
      rw [htake, hdrop, List.length_take_of_le hm.le, List.drop_eq_getElem_cons hm, drop_tokensIn]
      simp only [Option.map_some, hrest, kvlist_tokensIn parsers hj, hvalue]
      simp only [map_eq_pure_bind, bind_assoc, pure_bind]
      rfl

end Read

end LuaAttic.Http.TokenRanges
