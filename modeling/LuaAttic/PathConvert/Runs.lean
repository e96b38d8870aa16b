import LuaAttic.PathConvert.Steps

/-!
# Conversions of paths

The commands are converted one after the other, and each of them sees the state
that the converted ones before it leave.
-/

namespace LuaAttic.PathConvert

open LuaAttic.Lua LuaAttic.Support

variable {K O : Type} [Field K] (lib : Library K) (others : Others K O)
  (query : Path K → ℕ → Name → Option Name)

/-! ## Queries -/

/-- What the query answers for a command, after what comes of the ones before it. -/
def asked (path : Path K) (c : Command K) (cs : List (Command K)) : Option Name :=
  query (path ++ flatten (c :: cs)) (path.length + 1) c.name

/-- What comes of a command. -/
def convertedTo (path : Path K) (st : State K) (c : Command K) (cs : List (Command K)) :
    Command K :=
  match asked query path c cs with
  | some cmd => c.convertTo st cmd
  | none => c

/-- What comes of commands. -/
def converted (path : Path K) (st : State K) : List (Command K) → List (Command K)
  | [] => []
  | c :: cs =>
      let c' := convertedTo query path st c cs
      c' :: converted (path ++ c'.items) (c'.next others st) cs

/-- No `smooth_curve` is converted. -/
def SmoothKept (path : Path K) (st : State K) : List (Command K) → Prop
  | [] => True
  | c :: cs =>
      let c' := convertedTo query path st c cs
      (c.name = .smoothCurve → asked query path c cs = none) ∧
        SmoothKept (path ++ c'.items) (c'.next others st) cs

/-- What follows a line that is made a curve reflects the same of it, if anything. -/
def ControlsKept (path : Path K) (st : State K) : List (Command K) → Prop
  | [] => True
  | c :: cs =>
      let c' := convertedTo query path st c cs
      (c.name = .line → asked query path c cs = some .curve → ∀ c2 ∈ cs.head?,
        c2.control lib (c'.next others st) = c2.control lib (c.next others st)) ∧
        ControlsKept (path ++ c'.items) (c'.next others st) cs

/-- The query asks for no conversion that goes wrong. -/
structure Harmless (cs : List (Command K)) : Prop where
  smooth : SmoothKept others query [] {} cs
  controls : ControlsKept lib others query [] {} cs

/-- The query asks for lossless conversions only. -/
def AsksLossless : Prop :=
  ∀ path i s cmd, query path i s = some cmd → Lossless s cmd

/-- The conversions leave a well-formed path that describes what it did before. -/
def KeepsShape (cs : List (Command K)) : Prop :=
  ∃ cs', convertCommands lib query (flatten cs) = some (.ok (flatten cs')) ∧
    WellFormed lib others {} cs' ∧ shapes lib others {} cs' = shapes lib others {} cs

variable {lib others query}

/-! ## One command -/

section Commands

variable (hquery : AsksLossless query) {path : Path K} {st : State K} {c : Command K}
  {cs : List (Command K)}

theorem WellFormed.head (h : WellFormed lib others st (c :: cs)) :
    c.args.length = others.count c.name ∧ c.shape lib others st ≠ none := by
  refine ⟨h.counts c List.mem_cons_self, fun hnone => h.shaped ?_⟩
  rw [shapes, hnone]
  exact List.mem_cons_self

theorem WellFormed.tail (h : WellFormed lib others st (c :: cs)) :
    WellFormed lib others (c.next others st) cs :=
  ⟨fun c hc => h.counts c (List.mem_cons_of_mem _ hc),
    fun hnone => h.shaped (List.mem_cons_of_mem _ hnone)⟩

theorem WellFormed.with_b (h : WellFormed lib others st cs) (b : Option (K × K)) :
    WellFormed lib others { st with b } cs := by
  refine ⟨h.counts, fun hnone => h.shaped ?_⟩
  cases cs with
  | nil => exact hnone
  | cons c cs =>
      have hc := h.counts c List.mem_cons_self
      rw [shapes] at hnone ⊢
      rw [next_with_b hc] at hnone
      refine List.mem_cons.mpr ((List.mem_cons.mp hnone).imp_left fun heq => ?_)
      exact ((shape_with_b_eq_none_iff hc st b).mp heq.symm).symm

include hquery

/-- What comes of a command has the arguments that it should, describes the same and
leaves the same but for the last control point, if it is no `smooth_curve` that is
converted. -/
theorem convertedTo_spec [CharZero K] (h : WellFormed lib others st (c :: cs))
    (hsmooth : c.name = .smoothCurve → asked query path c cs = none) :
    let c' := convertedTo query path st c cs
    c'.args.length = others.count c'.name ∧ c'.shape lib others st = c.shape lib others st ∧
      (∃ b, c'.next others st = { c.next others st with b := b }) ∧
      (¬ (c.name = .line ∧ asked query path c cs = some .curve) →
        c'.next others st = c.next others st) := by
  obtain ⟨hc, hshape⟩ := h.head
  rw [convertedTo]
  cases hasked : asked query path c cs with
  | none => exact ⟨hc, rfl, ⟨(c.next others st).b, rfl⟩, fun _ => rfl⟩
  | some cmd =>
      have hcmd : Lossless c.name cmd := hquery _ _ _ _ hasked
      have hcp := cp_ne_none_of_shape hc hcmd hshape
      have hname : c.name ≠ .smoothCurve := by
        intro hname
        rw [hsmooth hname] at hasked
        cases hasked
      obtain ⟨hto, hcount⟩ := convertTo_count hc hcmd hcp hname
      refine ⟨by rw [hcount, hto], shape_convertTo hc hcmd hcp hname,
        next_convertTo hc hcmd hcp hname, fun hline => ?_⟩
      refine next_convertTo_of_ne hc hcmd hcp hname fun ⟨hn, hcurve⟩ => ?_
      exact hline ⟨hn, congrArg some hcurve⟩

/-- The body of the loop up to the conversion. -/
theorem convertAt_eq (hlib : lib.Exact others) (h : WellFormed lib others st (c :: cs))
    (hsmooth : c.name = .smoothCurve → asked query path c cs = none) :
    convertAt lib query (path ++ flatten (c :: cs)) (path.length + 1) c.name st =
      .ok (path ++ (convertedTo query path st c cs).items ++ flatten cs) := by
  obtain ⟨hc, hshape⟩ := h.head
  have hpath : path ++ flatten (c :: cs) = path ++ c.items ++ flatten cs := by
    rw [flatten_cons, List.append_assoc]
  rw [convertAt, convertedTo]
  change (match asked query path c cs with
    | some cmd => convert lib _ _ st c.name cmd
    | none => _) = _
  cases hasked : asked query path c cs with
  | none => rw [hpath]
  | some cmd =>
      have hcmd : Lossless c.name cmd := hquery _ _ _ _ hasked
      have hname : c.name ≠ .smoothCurve := by
        intro hname
        rw [hsmooth hname] at hasked
        cases hasked
      rw [hpath]
      exact convert_eq hlib path _ hc (cp_ne_none_of_shape hc hcmd hshape) hcmd hname

end Commands

/-! ## The loop -/

section Loop

variable (hquery : AsksLossless query) (hlib : lib.Exact others)

omit [Field K] in
theorem getElem?_items (path rest : Path K) (c : Command K) :
    (path ++ c.items ++ rest)[path.length + 1 - 1]? = some (.cmd c.name) := by
  rw [Nat.add_sub_cancel, List.append_assoc, List.getElem?_append_right le_rfl, Nat.sub_self]
  rfl

include hlib in
/-- An iteration that converts a command into one with the arguments that it should
have goes on at the next one. -/
theorem convertLoop_succ {n : ℕ} {path rest : Path K} {st : State K} {c c' : Command K}
    (hc' : c'.args.length = others.count c'.name)
    (hat : convertAt lib query (path ++ c.items ++ rest) (path.length + 1) c.name st =
      .ok (path ++ c'.items ++ rest)) :
    convertLoop lib query (n + 1) (path ++ c.items ++ rest) (path.length + 1) st =
      convertLoop lib query n (path ++ c'.items ++ rest) ((path ++ c'.items).length + 1)
        (c'.next others st) := by
  have hnext : path.length + 1 + lib.argc c'.name + 1 = (path ++ c'.items).length + 1 := by
    rw [hlib.argc, ← hc', List.length_append, Command.items, List.length_cons,
      List.length_map]
    ring
  rw [convertLoop, getElem?_items]
  simp only [hat, getElem?_items, hnext, hlib.nextState path c' rest st hc']

include hlib in
/-- After a `smooth_curve` has been converted there is a number where there should be
a command. -/
theorem convertLoop_smoothCurve {n : ℕ} {path rest : Path K} {st : State K}
    {len x3 y3 x4 y4 : K} (hcp : st.cp ≠ none)
    (hasked : query (path ++ Command.items ⟨.smoothCurve, [len, x3, y3, x4, y4]⟩ ++ rest)
      (path.length + 1) .smoothCurve = some .curve) :
    convertLoop lib query (n + 2)
      (path ++ Command.items ⟨.smoothCurve, [len, x3, y3, x4, y4]⟩ ++ rest)
      (path.length + 1) st = some (.error .nilArith) := by
  obtain ⟨cp, hcp⟩ := Option.ne_none_iff_exists'.mp hcp
  have hat := smoothCurveCurve_eq hlib path rest hcp len x3 y3 x4 y4
  have hstray : ∀ p2 : K × K,
      (path ++ Command.items ⟨.curve, [p2.1, p2.2, len, x3, y3, x4, y4]⟩ ++ rest)[
        path.length + 1 + lib.argc .curve + 1 - 1]? = some (.num y4) := by
    intro p2
    rw [hlib.argc, List.append_assoc, List.getElem?_append_right (by omega)]
    have hindex : path.length + 1 + others.count .curve + 1 - 1 - path.length = 7 := by
      change path.length + 1 + 6 + 1 - 1 - path.length = 7
      omega
    rw [hindex]
    rfl
  have hconvert : convertAt lib query
      (path ++ Command.items ⟨.smoothCurve, [len, x3, y3, x4, y4]⟩ ++ rest) (path.length + 1)
        .smoothCurve st = smoothCurveCurve lib
          (path ++ Command.items ⟨.smoothCurve, [len, x3, y3, x4, y4]⟩ ++ rest)
          (path.length + 1) st := by
    rw [convertAt, hasked]
    rfl
  rw [convertLoop, getElem?_items]
  simp only [hconvert, hat, getElem?_items]
  rw [convertLoop, hstray]

include hquery hlib

variable [CharZero K]

/-- What the loop leaves. -/
theorem convertLoop_eq {n : ℕ} {path : Path K} {st : State K} {cs : List (Command K)}
    (h : WellFormed lib others st cs) (hsmooth : SmoothKept others query path st cs)
    (hn : cs.length < n) :
    convertLoop lib query n (path ++ flatten cs) (path.length + 1) st =
      some (.ok (path ++ flatten (converted others query path st cs))) := by
  induction cs generalizing n path st with
  | nil =>
      obtain ⟨n, rfl⟩ := Nat.exists_eq_add_one_of_ne_zero (Nat.ne_of_gt hn)
      have hend : (path ++ flatten [])[path.length + 1 - 1]? = none := by
        simp [flatten]
      rw [convertLoop, hend]
      rfl
  | cons c cs ih =>
      obtain ⟨n, rfl⟩ := Nat.exists_eq_add_one_of_ne_zero (Nat.ne_of_gt (Nat.zero_lt_of_lt hn))
      obtain ⟨hhead, hrest⟩ := hsmooth
      obtain ⟨hcount, -, ⟨b, hb⟩, -⟩ := convertedTo_spec hquery h hhead
      have hat := convertAt_eq hquery hlib h hhead
      have htail : WellFormed lib others ((convertedTo query path st c cs).next others st) cs := by
        rw [hb]
        exact h.tail.with_b b
      rw [flatten_cons, ← List.append_assoc] at hat ⊢
      rw [convertLoop_succ hlib hcount hat, ih htail hrest (Nat.lt_of_succ_lt_succ hn),
        List.append_assoc]
      rfl

/-- A `smooth_curve` that is converted stops the loop. -/
theorem convertLoop_error {n : ℕ} {path : Path K} {st : State K} {cs : List (Command K)}
    (h : WellFormed lib others st cs) (hsmooth : ¬ SmoothKept others query path st cs)
    (hn : cs.length < n) :
    convertLoop lib query n (path ++ flatten cs) (path.length + 1) st =
      some (.error .nilArith) := by
  induction cs generalizing n path st with
  | nil => exact absurd trivial hsmooth
  | cons c cs ih =>
      obtain ⟨n, rfl⟩ := Nat.exists_eq_add_one_of_ne_zero (Nat.ne_of_gt (Nat.zero_lt_of_lt hn))
      obtain ⟨hc, hshape⟩ := h.head
      by_cases hhead : c.name = .smoothCurve → asked query path c cs = none
      · obtain ⟨hcount, -, ⟨b, hb⟩, -⟩ := convertedTo_spec hquery h hhead
        have hat := convertAt_eq hquery hlib h hhead
        have htail : WellFormed lib others ((convertedTo query path st c cs).next others st)
            cs := by
          rw [hb]
          exact h.tail.with_b b
        have hrest := fun hrest => hsmooth ⟨hhead, hrest⟩
        rw [flatten_cons, ← List.append_assoc] at hat ⊢
        rw [convertLoop_succ hlib hcount hat]
        exact ih htail hrest (Nat.lt_of_succ_lt_succ hn)
      · obtain ⟨hname, hasked⟩ := Classical.not_imp.mp hhead
        obtain ⟨cmd, hcmd⟩ := Option.ne_none_iff_exists'.mp hasked
        obtain ⟨n, rfl⟩ := Nat.exists_eq_add_one_of_ne_zero
          (Nat.ne_of_gt (Nat.zero_lt_of_lt (Nat.lt_of_succ_lt_succ hn)))
        have hlossless : Lossless c.name cmd := hquery _ _ _ _ hcmd
        have hcp := cp_ne_none_of_shape hc hlossless hshape
        obtain ⟨name, args⟩ := c
        cases hlossless with
        | smoothCurve =>
            match args, hc with
            | [len, x3, y3, x4, y4], _ =>
                rw [flatten_cons, ← List.append_assoc]
                refine convertLoop_smoothCurve hlib hcp ?_
                rw [asked, flatten_cons, ← List.append_assoc] at hcmd
                exact hcmd
        | _ => cases hname

end Loop

/-! ## Shapes -/

section Shapes

variable [CharZero K] (hquery : AsksLossless query)

include hquery

/-- What comes of the commands describes the same from a state with another last
control point if and only if the first one reflects the same of both, and so do those
that follow a line that is made a curve. -/
theorem shapes_converted_iff {path : Path K} {st : State K} {cs : List (Command K)}
    (h : WellFormed lib others st cs) (b : Option (K × K))
    (hsmooth : SmoothKept others query path { st with b } cs) :
    shapes lib others { st with b } (converted others query path { st with b } cs) =
        shapes lib others st cs ↔
      (∀ c ∈ cs.head?, c.control lib { st with b } = c.control lib st) ∧
        ControlsKept lib others query path { st with b } cs := by
  induction cs generalizing path st b with
  | nil => simp [converted, shapes, ControlsKept]
  | cons c cs ih =>
      obtain ⟨hhead, hrest⟩ := hsmooth
      obtain ⟨hc, -⟩ := h.head
      obtain ⟨-, hshape, ⟨b2, hb2⟩, hsame⟩ := convertedTo_spec hquery (h.with_b b) hhead
      rw [next_with_b hc st b] at hb2 hsame
      have hih := ih h.tail b2 (hb2 ▸ hrest)
      rw [← hb2] at hih
      have hfirst : (convertedTo query path { st with b } c cs).shape lib others { st with b } =
          c.shape lib others st ↔ c.control lib { st with b } = c.control lib st := by
        rw [hshape]
        exact shape_with_b_iff hc st b
      have hline : (∀ c2 ∈ cs.head?,
          c2.control lib ((convertedTo query path { st with b } c cs).next others
            { st with b }) = c2.control lib (c.next others st)) ↔
          (c.name = .line → asked query path c cs = some .curve → ∀ c2 ∈ cs.head?,
            c2.control lib ((convertedTo query path { st with b } c cs).next others
              { st with b }) = c2.control lib (c.next others { st with b })) := by
        rw [next_with_b hc st b]
        by_cases hcurve : c.name = .line ∧ asked query path c cs = some .curve
        · exact ⟨fun hall _ _ => hall, fun hall => hall hcurve.1 hcurve.2⟩
        · rw [hsame hcurve]
          exact iff_of_true (fun c2 _ => rfl) fun _ _ c2 _ => rfl
      rw [converted, shapes, shapes, List.cons_eq_cons, hih, hfirst, hline, ControlsKept]
      simp only [List.head?_cons, Option.mem_some_iff, forall_eq']

end Shapes

/-! ## Paths -/

section Paths

variable [CharZero K]

omit [Field K] [CharZero K] in
theorem length_le_flatten (cs : List (Command K)) : cs.length ≤ (flatten cs).length := by
  induction cs with
  | nil => exact le_rfl
  | cons c cs ih =>
      rw [flatten_cons, List.length_append, List.length_cons, Command.items, List.length_cons]
      omega

theorem converted_counts (hquery : AsksLossless query) {path : Path K} {st : State K}
    {cs : List (Command K)} (h : WellFormed lib others st cs)
    (hsmooth : SmoothKept others query path st cs) :
    ∀ c ∈ converted others query path st cs, c.args.length = others.count c.name := by
  induction cs generalizing path st with
  | nil => exact fun c hc => absurd hc List.not_mem_nil
  | cons c cs ih =>
      obtain ⟨hhead, hrest⟩ := hsmooth
      obtain ⟨hcount, -, ⟨b, hb⟩, -⟩ := convertedTo_spec hquery h hhead
      refine List.forall_mem_cons.mpr ⟨hcount, ih ?_ hrest⟩
      rw [hb]
      exact h.tail.with_b b

/-- In a well-formed path the lossless conversions that a query asks for leave a
well-formed path that describes the same if and only if no `smooth_curve` is among
what is converted and what follows a line that is made a curve reflects the same of
it as of the line. -/
theorem keepsShape_iff (hlib : lib.Exact others) (hquery : AsksLossless query)
    (cs : List (Command K)) (h : WellFormed lib others {} cs) :
    KeepsShape lib others query cs ↔ Harmless lib others query cs := by
  have hfuel : cs.length < (flatten cs).length + 1 :=
    Nat.lt_succ_of_le (length_le_flatten cs)
  by_cases hsmooth : SmoothKept others query [] {} cs
  · have hrun : convertCommands lib query (flatten cs) =
        some (.ok (flatten (converted others query [] {} cs))) :=
      convertLoop_eq hquery hlib h hsmooth hfuel
    have hshapes := shapes_converted_iff hquery h none hsmooth
    have hnone : ∀ c ∈ cs.head?, c.control lib ({} : State K) = c.control lib {} :=
      fun c _ => rfl
    constructor
    · rintro ⟨cs', hrun', -, heq⟩
      rw [hrun] at hrun'
      obtain rfl := flatten_injective (Except.ok.inj (Option.some.inj hrun'))
      exact ⟨hsmooth, (hshapes.mp heq).2⟩
    · intro hharmless
      have heq := hshapes.mpr ⟨hnone, hharmless.controls⟩
      refine ⟨_, hrun, ⟨converted_counts hquery h hsmooth, ?_⟩, heq⟩
      rw [heq]
      exact h.shaped
  · have hrun : convertCommands lib query (flatten cs) = some (.error .nilArith) :=
      convertLoop_error hquery hlib h hsmooth hfuel
    refine iff_of_false ?_ fun hharmless => hsmooth hharmless.smooth
    rintro ⟨cs', hrun', -, -⟩
    rw [hrun] at hrun'
    cases hrun'

/-- Before a `symm_curve` that is only so for a line without length. -/
theorem symmCurve_control_iff {st : State K} {cp : K × K} (hcp : st.cp = some cp)
    (x y x3 y3 x4 y4 : K) :
    Command.control lib ⟨.symmCurve, [x3, y3, x4, y4]⟩
        ((Command.convertTo ⟨.line, [x, y]⟩ st .curve).next others st) =
      Command.control lib ⟨.symmCurve, [x3, y3, x4, y4]⟩
        (Command.next others ⟨.line, [x, y]⟩ st) ↔ cp = (x, y) := by
  obtain ⟨cp', sp, b, q⟩ := st
  obtain rfl : cp' = some cp := hcp
  change some (reflect (lineAt cp (x, y) (2 / 3)) (x, y)) = some (reflect (x, y) (x, y)) ↔ _
  simp only [reflect, lineAt, Option.some.injEq, sub_right_inj, Prod.ext_iff]
  have haxis : ∀ v w : K, v + 2 / 3 * (w - v) = w ↔ v = w := by
    intro v w
    have hthird : v + 2 / 3 * (w - v) - w = 1 / 3 * (v - w) := by ring
    rw [← sub_eq_zero, hthird, mul_eq_zero, or_iff_right (by norm_num), sub_eq_zero]
  rw [haxis, haxis]

end Paths

/-! ## A library -/

section Plain

def Item.number? {K : Type} : Item K → Option K
  | .cmd _ => none
  | .num v => some v

/-- The command at an index of a path. -/
def readCommand (others : Others K O) (path : Path K) (i : ℕ) : Option (Command K) :=
  match path.drop (i - 1) with
  | .cmd s :: xs => some ⟨s, (xs.take (others.count s)).filterMap Item.number?⟩
  | _ => none

omit [Field K] in
theorem readCommand_append {c : Command K} (hc : c.args.length = others.count c.name)
    (path rest : Path K) :
    readCommand others (path ++ c.items ++ rest) (path.length + 1) = some c := by
  have hargs : ((c.args.map Item.num ++ rest).take (others.count c.name)).filterMap
      Item.number? = c.args := by
    rw [← hc, List.take_left' (List.length_map _), List.filterMap_map]
    exact List.filterMap_some
  rw [readCommand, Nat.add_sub_cancel, List.append_assoc, List.drop_left]
  change some (Command.mk c.name (((c.args.map Item.num ++ rest).take _).filterMap _)) = _
  rw [hargs]

/-- Paths of moves besides what is converted. -/
def plain : Others ℚ (List ℚ) where
  argc _ := 2
  next _ args _ :=
    match args with
    | [x, y] => { cp := some (x, y), sp := some (x, y) }
    | _ => {}
  draw _ args _ := args

/-- The library with the distances of points that are on one axis. -/
def plainLibrary : Library ℚ where
  insert path i vs := path.take (i - 1) ++ vs.map .num ++ path.drop (i - 1)
  remove path i n := path.take (i - 1) ++ path.drop (i - 1 + n)
  argc := plain.count
  nextState path i st := ((readCommand plain path i).map fun c => c.next plain st).getD st
  reflectPoint x y cx cy := reflect (x, y) (cx, cy)
  reflectPointDistance x y cx cy length :=
    let d := |cx - x| + |cy - y|
    (cx + length * (cx - x) / d, cy + length * (cy - y) / d)
  distance x1 y1 x2 y2 := |x2 - x1| + |y2 - y1|
  split t x1 y1 x2 y2 :=
    let p := lineAt (x1, y1) (x2, y2) t
    [x1, y1, p.1, p.2, p.1, p.2, x2, y2]

theorem plainLibrary_exact : plainLibrary.Exact plain where
  insert _ _ _ := rfl
  argc _ := rfl
  nextState path c rest st hc := by
    change ((readCommand plain _ _).map _).getD st = _
    rw [readCommand_append hc]
    rfl
  reflectPoint _ _ _ _ := rfl
  split _ _ _ _ _ := ⟨rfl, rfl⟩

/-- All lossless conversions but those of `smooth_curve`. -/
def mostOf : Path ℚ → ℕ → Name → Option Name
  | _, _, .hline | _, _, .vline => some .line
  | _, _, .line | _, _, .symmCurve => some .curve
  | _, _, _ => none

def mixedPath : List (Command ℚ) :=
  [⟨.other "move", [0, 0]⟩, ⟨.hline, [3]⟩, ⟨.line, [3, 4]⟩, ⟨.vline, [8]⟩,
    ⟨.symmCurve, [1, 2, 3, 4]⟩]

theorem mixedPath_keepsShape : KeepsShape plainLibrary plain mostOf mixedPath := by
  refine (keepsShape_iff plainLibrary_exact ?_ mixedPath ⟨?_, ?_⟩).mpr ⟨?_, ?_⟩
  · intro path i s cmd h
    cases s <;> cases h <;> constructor
  · decide
  · simp [mixedPath, shapes, Command.shape, Command.next, plain]
  · refine ⟨?_, ?_, ?_, ?_, ?_, trivial⟩ <;> (intros; contradiction)
  · refine ⟨?_, ?_, fun _ _ c hc => ?_, ?_, ?_, trivial⟩
    · intros
      contradiction
    · intros
      contradiction
    · obtain rfl := Option.some.inj hc
      rfl
    · intros
      contradiction
    · intros
      contradiction

/-- A query that asks for one kind of conversion. -/
def onlyOf (s cmd : Name) : Path ℚ → ℕ → Name → Option Name :=
  fun _ _ s' => if s' = s then some cmd else none

theorem asksLossless_onlyOf {s cmd : Name} (h : Lossless s cmd) :
    AsksLossless (onlyOf s cmd) := by
  intro path i s' cmd' hasked
  by_cases hs : s' = s
  · rw [onlyOf, if_pos hs] at hasked
    obtain rfl := Option.some.inj hasked
    exact hs ▸ h
  · rw [onlyOf, if_neg hs] at hasked
    cases hasked

def smoothPath : List (Command ℚ) :=
  [⟨.other "move", [0, 0]⟩, ⟨.smoothCurve, [1, 2, 0, 3, 0]⟩]

def reflectedPath : List (Command ℚ) :=
  [⟨.other "move", [0, 0]⟩, ⟨.line, [3, 0]⟩, ⟨.symmCurve, [5, 1, 6, 0]⟩]

/-- A `smooth_curve` that becomes no curve, and a line before a `symm_curve` that
changes its shape. -/
theorem conversions_change_shape : plainLibrary.Exact plain ∧
    (AsksLossless (onlyOf .smoothCurve .curve) ∧
      WellFormed plainLibrary plain {} smoothPath ∧
      ¬ KeepsShape plainLibrary plain (onlyOf .smoothCurve .curve) smoothPath) ∧
    AsksLossless (onlyOf .line .curve) ∧ WellFormed plainLibrary plain {} reflectedPath ∧
      ¬ KeepsShape plainLibrary plain (onlyOf .line .curve) reflectedPath := by
  refine ⟨plainLibrary_exact, ⟨asksLossless_onlyOf .smoothCurve, ⟨by decide, ?_⟩, ?_⟩,
    asksLossless_onlyOf .line, ⟨by decide, ?_⟩, ?_⟩
  · simp [smoothPath, shapes, Command.shape, Command.next, plain]
  · rintro ⟨cs', hrun, -, -⟩
    have hstray : convertCommands plainLibrary (onlyOf .smoothCurve .curve)
        (flatten smoothPath) = some (.error .nilArith) := by decide
    rw [hstray] at hrun
    cases hrun
  · simp [reflectedPath, shapes, Command.shape, Command.next, plain]
  · rintro ⟨cs', hrun, -, hshapes⟩
    have hcurve : convertCommands plainLibrary (onlyOf .line .curve) (flatten reflectedPath) =
        some (.ok (flatten [⟨.other "move", [0, 0]⟩, ⟨.curve, [1, 0, 2, 0, 3, 0]⟩,
          ⟨.symmCurve, [5, 1, 6, 0]⟩])) := by decide +kernel
    rw [hcurve] at hrun
    obtain rfl := flatten_injective (Except.ok.inj (Option.some.inj hrun))
    have hlast : bezier (3, 0) (reflect ((2 : ℚ), 0) (3, 0)) (5, 1) (6, 0) =
        bezier (3, 0) (reflect (3, 0) (3, 0)) (5, 1) (6, 0) := by
      have hthird := congrArg (fun shapes => shapes[2]?) hshapes
      exact Shape.curve.inj (Option.some.inj (Option.some.inj hthird))
    exact absurd (bezier_injective hlast) (by decide +kernel)

end Plain

end LuaAttic.PathConvert
