import LuaAttic.PathConvert.Shapes

/-!
# Conversions of one command

Each lossless conversion but that of `smooth_curve` puts a command that describes
the same in the place of the other one.
-/

namespace LuaAttic.PathConvert

open LuaAttic.Lua LuaAttic.Support

variable {K O : Type}

/-! ## The last control point -/

/-- The commands by their names, with their arguments. -/
theorem Others.count_cases (others : Others K O) {P : Command K → Prop}
    (line : ∀ x y, P ⟨.line, [x, y]⟩) (hline : ∀ x, P ⟨.hline, [x]⟩)
    (vline : ∀ y, P ⟨.vline, [y]⟩)
    (curve : ∀ x2 y2 x3 y3 x4 y4, P ⟨.curve, [x2, y2, x3, y3, x4, y4]⟩)
    (symmCurve : ∀ x3 y3 x4 y4, P ⟨.symmCurve, [x3, y3, x4, y4]⟩)
    (smoothCurve : ∀ len x3 y3 x4 y4, P ⟨.smoothCurve, [len, x3, y3, x4, y4]⟩)
    (relSymmCurve : ∀ x3 y3 x4 y4, P ⟨.relSymmCurve, [x3, y3, x4, y4]⟩)
    (relSmoothCurve : ∀ len x3 y3 x4 y4, P ⟨.relSmoothCurve, [len, x3, y3, x4, y4]⟩)
    (other : ∀ s args, P ⟨.other s, args⟩) {c : Command K}
    (hc : c.args.length = others.count c.name) : P c := by
  obtain ⟨name, args⟩ := c
  cases name with
  | line =>
      match args, hc with
      | [x, y], _ => exact line x y
  | hline =>
      match args, hc with
      | [x], _ => exact hline x
  | vline =>
      match args, hc with
      | [y], _ => exact vline y
  | curve =>
      match args, hc with
      | [x2, y2, x3, y3, x4, y4], _ => exact curve x2 y2 x3 y3 x4 y4
  | symmCurve =>
      match args, hc with
      | [x3, y3, x4, y4], _ => exact symmCurve x3 y3 x4 y4
  | smoothCurve =>
      match args, hc with
      | [len, x3, y3, x4, y4], _ => exact smoothCurve len x3 y3 x4 y4
  | relSymmCurve =>
      match args, hc with
      | [x3, y3, x4, y4], _ => exact relSymmCurve x3 y3 x4 y4
  | relSmoothCurve =>
      match args, hc with
      | [len, x3, y3, x4, y4], _ => exact relSmoothCurve len x3 y3 x4 y4
  | other s => exact other s args

variable [Field K] {lib : Library K} {others : Others K O} {c : Command K}

/-- What a command leaves does not depend on the last control point. -/
theorem next_with_b (hc : c.args.length = others.count c.name) (st : State K)
    (b : Option (K × K)) : c.next others { st with b } = c.next others st := by
  refine others.count_cases (P := fun c => c.next others { st with b } = c.next others st)
    ?_ ?_ ?_ ?_ ?_ ?_ ?_ ?_ ?_ hc
  all_goals intros; rfl

/-- If it describes something does not depend on it either. -/
theorem shape_with_b_eq_none_iff (hc : c.args.length = others.count c.name) (st : State K)
    (b : Option (K × K)) : c.shape lib others { st with b } = none ↔
      c.shape lib others st = none := by
  obtain ⟨cp, sp, b', q⟩ := st
  refine others.count_cases (P := fun c => c.shape lib others ⟨cp, sp, b, q⟩ = none ↔
    c.shape lib others ⟨cp, sp, b', q⟩ = none) ?_ ?_ ?_ ?_ ?_ ?_ ?_ ?_ ?_ hc
  all_goals intros
  all_goals cases cp with
    | none => first
      | exact iff_of_true rfl rfl
      | exact iff_of_false nofun nofun
    | some cp => exact iff_of_false nofun nofun

section CharZero

variable [CharZero K]

theorem bezier_eq_iff {p1 p2 p2' p3 p4 : K × K} :
    (some (Shape.curve (bezier p1 p2 p3 p4)) : Option (Shape K O)) =
      some (.curve (bezier p1 p2' p3 p4)) ↔ some p2 = some p2' := by
  constructor
  · intro h
    exact congrArg some (bezier_injective (Shape.curve.inj (Option.some.inj h)))
  · intro h
    rw [Option.some.inj h]

/-- What it describes depends on that point by what it reflects of it. -/
theorem shape_with_b_iff (hc : c.args.length = others.count c.name) (st : State K)
    (b : Option (K × K)) : c.shape lib others { st with b } = c.shape lib others st ↔
      c.control lib { st with b } = c.control lib st := by
  obtain ⟨cp, sp, b', q⟩ := st
  refine others.count_cases (P := fun c =>
    c.shape lib others ⟨cp, sp, b, q⟩ = c.shape lib others ⟨cp, sp, b', q⟩ ↔
      c.control lib ⟨cp, sp, b, q⟩ = c.control lib ⟨cp, sp, b', q⟩) ?_ ?_ ?_ ?_ ?_ ?_ ?_ ?_ ?_ hc
  all_goals intros
  all_goals cases cp with
    | none => exact iff_of_true rfl rfl
    | some cp => first
      | exact iff_of_true rfl rfl
      | exact bezier_eq_iff

end CharZero

/-! ## Conversions -/

/-- The lossless conversions. -/
inductive Lossless : Name → Name → Prop
  | hline : Lossless .hline .line
  | vline : Lossless .vline .line
  | line : Lossless .line .curve
  | symmCurve : Lossless .symmCurve .curve
  | smoothCurve : Lossless .smoothCurve .curve

omit [Field K] in
/-- The lossless conversions, with the arguments of what is converted. -/
theorem Lossless.count_cases {P : Command K → Name → Prop}
    (hline : ∀ x, P ⟨.hline, [x]⟩ .line) (vline : ∀ y, P ⟨.vline, [y]⟩ .line)
    (line : ∀ x y, P ⟨.line, [x, y]⟩ .curve)
    (symmCurve : ∀ x3 y3 x4 y4, P ⟨.symmCurve, [x3, y3, x4, y4]⟩ .curve)
    (smoothCurve : ∀ len x3 y3 x4 y4, P ⟨.smoothCurve, [len, x3, y3, x4, y4]⟩ .curve)
    {cmd : Name} (hc : c.args.length = others.count c.name) (h : Lossless c.name cmd) :
    P c cmd := by
  obtain ⟨name, args⟩ := c
  cases h with
  | hline =>
      match args, hc with
      | [x], _ => exact hline x
  | vline =>
      match args, hc with
      | [y], _ => exact vline y
  | line =>
      match args, hc with
      | [x, y], _ => exact line x y
  | symmCurve =>
      match args, hc with
      | [x3, y3, x4, y4], _ => exact symmCurve x3 y3 x4 y4
  | smoothCurve =>
      match args, hc with
      | [len, x3, y3, x4, y4], _ => exact smoothCurve len x3 y3 x4 y4

/-- What the modules that are used do. -/
structure Library.Exact (lib : Library K) (others : Others K O) : Prop where
  insert : ∀ path i vs,
    lib.insert path i vs = path.take (i - 1) ++ vs.map .num ++ path.drop (i - 1)
  argc : ∀ s, lib.argc s = others.count s
  nextState : ∀ (path : Path K) (c : Command K) (rest : Path K) (st : State K),
    c.args.length = others.count c.name →
      lib.nextState (path ++ c.items ++ rest) (path.length + 1) st = c.next others st
  reflectPoint : ∀ x y cx cy, lib.reflectPoint x y cx cy = reflect (x, y) (cx, cy)
  split : ∀ t x1 y1 x2 y2,
    (lib.split t x1 y1 x2 y2)[2]? = some (lineAt (x1, y1) (x2, y2) t).1 ∧
      (lib.split t x1 y1 x2 y2)[3]? = some (lineAt (x1, y1) (x2, y2) t).2

omit [Field K] in
theorem rename_append (path xs : Path K) (s s' : Name) :
    rename (path ++ .cmd s :: xs) (path.length + 1) s' = path ++ .cmd s' :: xs := by
  rw [rename, Nat.add_sub_cancel, List.set_append_right _ _ le_rfl, Nat.sub_self,
    List.set_cons_zero]

omit [Field K] in
theorem number_append (path : Path K) {xs : Path K} {k : ℕ} {v : K}
    (h : xs[k]? = some (.num v)) : number (path ++ xs) (path.length + 1 + k) = .ok v := by
  have hindex : path.length + 1 + k - 1 = path.length + k := by omega
  rw [number, hindex, List.getElem?_append_right (Nat.le_add_right _ k),
    Nat.add_sub_cancel_left, h]

theorem Library.Exact.insert_append (hlib : lib.Exact others) (path xs : Path K) (k : ℕ)
    (vs : List K) : lib.insert (path ++ xs) (path.length + 1 + k) vs =
      path ++ (xs.take k ++ vs.map .num ++ xs.drop k) := by
  have hindex : path.length + 1 + k - 1 = path.length + k := by omega
  rw [hlib.insert, hindex, List.take_length_add_append, List.drop_length_add_append]
  simp only [List.append_assoc]

section Conversions

variable (hlib : lib.Exact others) (path rest : Path K) {st : State K} {cp : K × K}
  (hcp : st.cp = some cp)

include hlib hcp

theorem hlineLine_eq (x : K) :
    hlineLine lib (path ++ Command.items ⟨.hline, [x]⟩ ++ rest) (path.length + 1) st =
      .ok (path ++ Command.items ⟨.line, [x, cp.2]⟩ ++ rest) := by
  rw [hlineLine, hcp, List.append_assoc, List.append_assoc]
  change Except.ok (lib.insert (rename (path ++ .cmd .hline :: .num x :: rest) _ .line) _ _) = _
  rw [rename_append, hlib.insert_append]
  rfl

theorem vlineLine_eq (y : K) :
    vlineLine lib (path ++ Command.items ⟨.vline, [y]⟩ ++ rest) (path.length + 1) st =
      .ok (path ++ Command.items ⟨.line, [cp.1, y]⟩ ++ rest) := by
  rw [vlineLine, hcp, List.append_assoc, List.append_assoc]
  change Except.ok (lib.insert (rename (path ++ .cmd .vline :: .num y :: rest) _ .line) _ _) = _
  rw [rename_append, hlib.insert_append]
  rfl

omit hcp in
theorem splitPoint_eq (p1 p2 : K × K) (t : K) :
    splitPoint lib t p1.1 p1.2 p2.1 p2.2 = .ok (lineAt p1 p2 t) := by
  obtain ⟨hx, hy⟩ := hlib.split t p1.1 p1.2 p2.1 p2.2
  rw [splitPoint, hx, hy]
  rfl

theorem lineCurve_eq (x y : K) :
    lineCurve lib (path ++ Command.items ⟨.line, [x, y]⟩ ++ rest) (path.length + 1) st =
      .ok (path ++ (Command.convertTo ⟨.line, [x, y]⟩ st .curve).items ++ rest) := by
  have hx : number (path ++ .cmd .curve :: .num x :: .num y :: rest) (path.length + 1 + 1) =
      .ok x := number_append path rfl
  have hy : number (path ++ .cmd .curve :: .num x :: .num y :: rest) (path.length + 1 + 2) =
      .ok y := number_append path rfl
  have h1 := splitPoint_eq hlib cp (x, y) (1 / 3)
  have h2 := splitPoint_eq hlib cp (x, y) (2 / 3)
  have hrename : rename (path ++ (Command.items ⟨.line, [x, y]⟩ ++ rest)) (path.length + 1)
      .curve = path ++ .cmd .curve :: .num x :: .num y :: rest := rename_append path _ _ _
  simp only [lineCurve, List.append_assoc, hrename, hcp, nonNil, hx, hy, h1, h2, bind,
    Except.bind, pure, Except.pure, hlib.insert_append, Command.convertTo]
  rfl

theorem symmCurveCurve_eq (x3 y3 x4 y4 : K) :
    symmCurveCurve lib (path ++ Command.items ⟨.symmCurve, [x3, y3, x4, y4]⟩ ++ rest)
        (path.length + 1) st =
      .ok (path ++ (Command.convertTo ⟨.symmCurve, [x3, y3, x4, y4]⟩ st .curve).items ++ rest) := by
  have hreflect : lib.reflectPoint (st.b.getD cp).1 (st.b.getD cp).2 cp.1 cp.2 =
      reflect (st.b.getD cp) cp := hlib.reflectPoint _ _ _ _
  have hrename : rename (path ++ (Command.items ⟨.symmCurve, [x3, y3, x4, y4]⟩ ++ rest))
      (path.length + 1) .curve = path ++ .cmd .curve :: .num x3 :: .num y3 :: .num x4 ::
        .num y4 :: rest := rename_append path _ _ _
  simp only [symmCurveCurve, List.append_assoc, hrename, hcp, nonNil, hreflect, bind,
    Except.bind, pure, Except.pure, hlib.insert_append, Command.convertTo]
  rfl

/-- A `smooth_curve` keeps its length when it is made a curve, which has no place for
it. -/
theorem smoothCurveCurve_eq (len x3 y3 x4 y4 : K) :
    smoothCurveCurve lib (path ++ Command.items ⟨.smoothCurve, [len, x3, y3, x4, y4]⟩ ++ rest)
        (path.length + 1) st =
      .ok (path ++ Command.items ⟨.curve, [(reflectDistance lib (st.b.getD cp) cp len).1,
        (reflectDistance lib (st.b.getD cp) cp len).2, len, x3, y3, x4, y4]⟩ ++ rest) := by
  have hlen : number (path ++ (Command.items ⟨.smoothCurve, [len, x3, y3, x4, y4]⟩ ++ rest))
      (path.length + 1 + 1) = .ok len := number_append path rfl
  have hrename : rename (path ++ (Command.items ⟨.smoothCurve, [len, x3, y3, x4, y4]⟩ ++ rest))
      (path.length + 1) .curve = path ++ .cmd .curve :: .num len :: .num x3 :: .num y3 ::
        .num x4 :: .num y4 :: rest := rename_append path _ _ _
  simp only [smoothCurveCurve, List.append_assoc, hrename, hlen, hcp, nonNil, bind,
    Except.bind, pure, Except.pure, hlib.insert_append, reflectDistance]
  rfl

end Conversions

/-- A lossless conversion in place. -/
theorem convert_eq (hlib : lib.Exact others) (path rest : Path K) {st : State K}
    (hc : c.args.length = others.count c.name) (hcp : st.cp ≠ none) {cmd : Name}
    (hcmd : Lossless c.name cmd) (hsmooth : c.name ≠ .smoothCurve) :
    convert lib (path ++ c.items ++ rest) (path.length + 1) st c.name cmd =
      .ok (path ++ (c.convertTo st cmd).items ++ rest) := by
  obtain ⟨cp, hcp⟩ := Option.ne_none_iff_exists'.mp hcp
  refine Lossless.count_cases (P := fun c cmd => c.name ≠ .smoothCurve →
    convert lib (path ++ c.items ++ rest) (path.length + 1) st c.name cmd =
      .ok (path ++ (c.convertTo st cmd).items ++ rest)) ?_ ?_ ?_ ?_ ?_ hc hcmd hsmooth
  · intro x _
    have hto : Command.convertTo ⟨.hline, [x]⟩ st .line = ⟨.line, [x, cp.2]⟩ := by
      simp only [Command.convertTo, hcp]
    rw [hto]
    exact hlineLine_eq hlib path rest hcp x
  · intro y _
    have hto : Command.convertTo ⟨.vline, [y]⟩ st .line = ⟨.line, [cp.1, y]⟩ := by
      simp only [Command.convertTo, hcp]
    rw [hto]
    exact vlineLine_eq hlib path rest hcp y
  · exact fun x y _ => lineCurve_eq hlib path rest hcp x y
  · exact fun x3 y3 x4 y4 _ => symmCurveCurve_eq hlib path rest hcp x3 y3 x4 y4
  · exact fun _ _ _ _ _ hsmooth => absurd rfl hsmooth

/-! ## What conversions keep -/

section Kept

variable {st : State K} {cmd : Name} (hc : c.args.length = others.count c.name)
  (hcmd : Lossless c.name cmd)

include hc hcmd

/-- What is converted needs the current point. -/
theorem cp_ne_none_of_shape (hshape : c.shape lib others st ≠ none) : st.cp ≠ none := by
  intro hcp
  refine Lossless.count_cases (P := fun c _ => c.shape lib others st ≠ none → False)
    ?_ ?_ ?_ ?_ ?_ hc hcmd hshape
  all_goals intros
  all_goals simp_all [Command.shape]

variable (hcp : st.cp ≠ none) (hsmooth : c.name ≠ .smoothCurve)

include hcp hsmooth

/-- What comes of a conversion has the name and the arguments that it should. -/
theorem convertTo_count : (c.convertTo st cmd).name = cmd ∧
    (c.convertTo st cmd).args.length = others.count cmd := by
  obtain ⟨⟨cp⟩, sp, b, q⟩ := st
  · exact absurd rfl hcp
  · refine Lossless.count_cases (P := fun c cmd => c.name ≠ .smoothCurve →
      (c.convertTo ⟨some _, sp, b, q⟩ cmd).name = cmd ∧
        (c.convertTo ⟨some _, sp, b, q⟩ cmd).args.length = others.count cmd)
      ?_ ?_ ?_ ?_ ?_ hc hcmd hsmooth
    · exact fun x _ => ⟨rfl, rfl⟩
    · exact fun y _ => ⟨rfl, rfl⟩
    · exact fun x y _ => ⟨rfl, rfl⟩
    · exact fun x3 y3 x4 y4 _ => ⟨rfl, rfl⟩
    · exact fun _ _ _ _ _ hsmooth => absurd rfl hsmooth

/-- It leaves the same but for the last control point, which a line does not have. -/
theorem next_convertTo : ∃ b,
    (c.convertTo st cmd).next others st = { c.next others st with b := b } := by
  obtain ⟨⟨cp⟩, sp, b, q⟩ := st
  · exact absurd rfl hcp
  · refine Lossless.count_cases (P := fun c cmd => c.name ≠ .smoothCurve →
      ∃ b', (c.convertTo ⟨some _, sp, b, q⟩ cmd).next others ⟨some _, sp, b, q⟩ =
        { c.next others ⟨some _, sp, b, q⟩ with b := b' }) ?_ ?_ ?_ ?_ ?_ hc hcmd hsmooth
    · exact fun x _ => ⟨_, rfl⟩
    · exact fun y _ => ⟨_, rfl⟩
    · exact fun x y _ => ⟨_, rfl⟩
    · exact fun x3 y3 x4 y4 _ => ⟨_, rfl⟩
    · exact fun _ _ _ _ _ hsmooth => absurd rfl hsmooth

/-- Only a line that is made a curve leaves more than before. -/
theorem next_convertTo_of_ne (hline : ¬ (c.name = .line ∧ cmd = .curve)) :
    (c.convertTo st cmd).next others st = c.next others st := by
  obtain ⟨⟨cp⟩, sp, b, q⟩ := st
  · exact absurd rfl hcp
  · refine Lossless.count_cases (P := fun c cmd => c.name ≠ .smoothCurve →
      ¬ (c.name = .line ∧ cmd = .curve) → (c.convertTo ⟨some _, sp, b, q⟩ cmd).next others
        ⟨some _, sp, b, q⟩ = c.next others ⟨some _, sp, b, q⟩)
      ?_ ?_ ?_ ?_ ?_ hc hcmd hsmooth hline
    · exact fun x _ _ => rfl
    · exact fun y _ _ => rfl
    · exact fun x y _ hline => absurd ⟨rfl, rfl⟩ hline
    · exact fun x3 y3 x4 y4 _ _ => rfl
    · exact fun _ _ _ _ _ hsmooth => absurd rfl hsmooth

/-- It describes the same. -/
theorem shape_convertTo [CharZero K] :
    (c.convertTo st cmd).shape lib others st = c.shape lib others st := by
  obtain ⟨⟨cp⟩, sp, b, q⟩ := st
  · exact absurd rfl hcp
  · refine Lossless.count_cases (P := fun c cmd => c.name ≠ .smoothCurve →
      (c.convertTo ⟨some _, sp, b, q⟩ cmd).shape lib others ⟨some _, sp, b, q⟩ =
        c.shape lib others ⟨some _, sp, b, q⟩) ?_ ?_ ?_ ?_ ?_ hc hcmd hsmooth
    · exact fun x _ => rfl
    · exact fun y _ => rfl
    · exact fun x y _ => congrArg (fun f => some (Shape.curve f)) (bezier_line _ (x, y))
    · exact fun x3 y3 x4 y4 _ => rfl
    · exact fun _ _ _ _ _ hsmooth => absurd rfl hsmooth

end Kept

end LuaAttic.PathConvert
