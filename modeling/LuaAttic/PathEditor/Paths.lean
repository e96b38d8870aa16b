import LuaAttic.PathEditor.Commands

/-!
# Editors of paths

An editor has a point for each command, and two more for each curve, its control
points.  The first of these moves with the point before the curve and the second
one with the endpoint.
-/

namespace LuaAttic.PathEditor

open LuaAttic.Lua LuaAttic.Support LuaAttic.Varlinker

variable {K : Type} [AddCommGroup K]

/-! ## Control points -/

/-- How many points a command has. -/
def Command.size {α : Type} : Command α → ℕ
  | .curve .. => 3
  | _ => 1

/-- The points of a command that move with others: `i` is the number of the current
point, and `n` the one of the next point. -/
def Command.attached {α : Type} (i n : ℕ) : Command α → List (ℕ × ℕ)
  | .curve .. => [(i, n + 1), (n, n + 2)]
  | _ => []

/-- The control points of a path with the endpoints that they are attached to, by
their numbers. -/
def attached {α : Type} (i n : ℕ) : List (Command α) → List (ℕ × ℕ)
  | [] => []
  | c :: cs => c.attached i n ++ attached n (n + c.size) cs

/-- A coordinate of a point and the same one of another point. -/
def SameAxis (points : List (ℕ × ℕ)) (a : ℕ × ℕ) (k1 k2 : ℕ) : Prop :=
  ∃ q1 q2, points[a.1]? = some q1 ∧ points[a.2]? = some q2 ∧
    ((k1, k2) = (q1.1, q2.1) ∨ (k1, k2) = (q1.2, q2.2))

theorem sameAxis_iff {points : List (ℕ × ℕ)} {i j k1 k2 : ℕ} {q1 q2 : ℕ × ℕ}
    (h1 : points[i]? = some q1) (h2 : points[j]? = some q2) :
    SameAxis points (i, j) k1 k2 ↔ (k1, k2) = (q1.1, q2.1) ∨ (k1, k2) = (q1.2, q2.2) := by
  simp [SameAxis, h1, h2]

/-- Points with variables of their own. -/
structure Fresh (n n' : ℕ) (qs : List (ℕ × ℕ)) : Prop where
  fst : ∀ q ∈ qs, n ≤ q.1 ∧ q.1 < n'
  snd : ∀ q ∈ qs, n ≤ q.2 ∧ q.2 < n'
  nodup_fst : (qs.map Prod.fst).Nodup
  nodup_snd : (qs.map Prod.snd).Nodup

theorem fresh_nil (n n' : ℕ) : Fresh n n' [] := by constructor <;> simp

theorem fresh_singleton {n i j : ℕ} (m : ℕ) (hi : i < m) (hj : j < m) :
    Fresh n (n + m) [(n + i, n + j)] := by
  constructor
  · simpa using hi
  · simpa using hj
  · exact List.nodup_singleton _
  · exact List.nodup_singleton _

theorem nodup_map_append {f : ℕ × ℕ → ℕ} {m : ℕ} {qs qs' : List (ℕ × ℕ)}
    (h : (qs.map f).Nodup) (h' : (qs'.map f).Nodup) (hlt : ∀ q ∈ qs, f q < m)
    (hle : ∀ q ∈ qs', m ≤ f q) : ((qs ++ qs').map f).Nodup := by
  rw [List.map_append]
  refine h.append h' ?_
  intro k hk hk'
  obtain ⟨q, hq, rfl⟩ := List.mem_map.mp hk
  obtain ⟨q', hq', heq⟩ := List.mem_map.mp hk'
  exact absurd (hle q' hq') (Nat.not_le_of_lt (heq ▸ hlt q hq))

theorem Fresh.append {n m n' : ℕ} {qs qs' : List (ℕ × ℕ)} (h : Fresh n m qs)
    (h' : Fresh m n' qs') (hn : n ≤ m) (hn' : m ≤ n') : Fresh n n' (qs ++ qs') where
  fst q hq := by
    rcases List.mem_append.mp hq with hq | hq
    · exact ⟨(h.fst q hq).1, (h.fst q hq).2.trans_le hn'⟩
    · exact ⟨hn.trans (h'.fst q hq).1, (h'.fst q hq).2⟩
  snd q hq := by
    rcases List.mem_append.mp hq with hq | hq
    · exact ⟨(h.snd q hq).1, (h.snd q hq).2.trans_le hn'⟩
    · exact ⟨hn.trans (h'.snd q hq).1, (h'.snd q hq).2⟩
  nodup_fst := nodup_map_append h.nodup_fst h'.nodup_fst (fun q hq => (h.fst q hq).2)
    fun q hq => (h'.fst q hq).1
  nodup_snd := nodup_map_append h.nodup_snd h'.nodup_snd (fun q hq => (h.snd q hq).2)
    fun q hq => (h'.snd q hq).1

/-! ## One command -/

/-- What a command makes of an editor. -/
structure Makes (e : Editor K) (c : Command K) (e' : Editor K) : Prop where
  next : e.next ≤ e'.next
  vals : ∀ k < e.next, e'.vals k = e.vals k
  path : ∃ c', e'.path = e.path ++ [c'] ∧
    ∀ t : ℕ → K, (∀ k < e'.next, t k = e'.vals k) → c'.map t = c
  points : ∃ q qs, e'.points = e.points ++ q :: qs ∧ qs.length + 1 = c.size ∧
    e'.pcp = some q ∧ Fresh e.next e'.next (q :: qs)
  attaches : ∀ i, (∀ p1, e.pcp = some p1 → e.points[i]? = some p1) →
    ∀ k1 k2, Call.linkAdd k1 k2 ∈ e'.calls ↔ Call.linkAdd k1 k2 ∈ e.calls ∨
      ∃ a ∈ c.attached i e.points.length, SameAxis e'.points a k1 k2
  inside : ∀ i, (∀ p1, e.pcp = some p1 → e.points[i]? = some p1) →
    ∀ a ∈ c.attached i e.points.length, a.1 < e'.points.length ∧ a.2 < e'.points.length

section Commands

variable {e e' : Editor K} {lab lab' : ℕ → Label} {cs : List Call} {c : Command K}
  {c' : Command ℕ} {qs : List (ℕ × ℕ)} {q : ℕ × ℕ}

/-- A command that adds no control points. -/
theorem Adds.makes (ha : Adds e e' lab' cs c' [] q) (hsize : c.size = 1)
    (hattached : ∀ i n, c.attached i n = []) (hfresh : Fresh e.next e'.next [q])
    (hcs : ∀ k1 k2, Call.linkAdd k1 k2 ∉ cs)
    (hc : ∀ t : ℕ → K, (∀ k < e'.next, t k = e'.vals k) → c'.map t = c) : Makes e c e' where
  next := ha.next
  vals := ha.vals
  path := ⟨c', ha.path, hc⟩
  points := ⟨q, [], ha.points, hsize.symm, ha.pcp, hfresh⟩
  attaches i _ k1 k2 := by
    rw [ha.calls, List.mem_append, hattached]
    simp [hcs k1 k2]
  inside i _ a ha := by
    rw [hattached] at ha
    exact absurd ha List.not_mem_nil

omit [AddCommGroup K] in
/-- What is read of the cells of a block. -/
theorem read_cells {f t : ℕ → K} {n n' : ℕ} (vs : List K) (hn : n' = n + vs.length)
    (ht : ∀ k < n', t k = cells f n vs k) (i : ℕ) (hi : i < vs.length) :
    t (n + i) = vs[i] := by
  rw [ht (n + i) (hn ▸ Nat.add_lt_add_left hi n), cells_add hi]

theorem makes_move (h : Built e lab) (x y : K) :
    Makes e (.move false x y) (e.line .move x y) := by
  refine (adds_line (.inl rfl) h x y).makes rfl (fun _ _ => rfl)
    (fresh_singleton 4 (by decide) (by decide)) (by simp) fun t ht => ?_
  have hread := read_cells (f := e.vals) (n := e.next) [x, y, x, y] rfl ht
  exact congrArg₂ (Command.move false) (hread 0 (by simp)) (hread 1 (by simp))

theorem makes_line (h : Built e lab) (x y : K) :
    Makes e (.line false x y) (e.line .line x y) := by
  refine (adds_line (.inr rfl) h x y).makes rfl (fun _ _ => rfl)
    (fresh_singleton 4 (by decide) (by decide)) (by simp) fun t ht => ?_
  have hread := read_cells (f := e.vals) (n := e.next) [x, y, x, y] rfl ht
  exact congrArg₂ (Command.line false) (hread 0 (by simp)) (hread 1 (by simp))

section Relative

variable {p1 : ℕ × ℕ} (h : Built e lab) (hp1 : e.pcp = some p1)

include h hp1

theorem makes_relMove (x y : K) : Makes e (.move true x y) (e.relLine .move p1 x y) := by
  refine (adds_relLine (.inl rfl) h hp1 x y).makes rfl (fun _ _ => rfl)
    (fresh_singleton 4 (by decide) (by decide)) (by simp) fun t ht => ?_
  have hread := read_cells (f := e.vals) (n := e.next)
    [x, y, e.vals p1.1 + x, e.vals p1.2 + y] rfl ht
  exact congrArg₂ (Command.move true) (hread 0 (by simp)) (hread 1 (by simp))

theorem makes_relLine (x y : K) : Makes e (.line true x y) (e.relLine .line p1 x y) := by
  refine (adds_relLine (.inr rfl) h hp1 x y).makes rfl (fun _ _ => rfl)
    (fresh_singleton 4 (by decide) (by decide)) (by simp) fun t ht => ?_
  have hread := read_cells (f := e.vals) (n := e.next)
    [x, y, e.vals p1.1 + x, e.vals p1.2 + y] rfl ht
  exact congrArg₂ (Command.line true) (hread 0 (by simp)) (hread 1 (by simp))

theorem makes_hline (x : K) : Makes e (.hline false x) (e.hline p1 x) := by
  refine (adds_hline h hp1 x).makes rfl (fun _ _ => rfl)
    (fresh_singleton 3 (by decide) (by decide)) (by simp) fun t ht => ?_
  rw [hline_vals (h.isCurrent hp1).snd.2] at ht
  exact congrArg (Command.hline false) (read_cells [x, x, e.vals p1.2] rfl ht 0 (by simp))

theorem makes_vline (y : K) : Makes e (.vline false y) (e.vline p1 y) := by
  refine (adds_vline h hp1 y).makes rfl (fun _ _ => rfl)
    (fresh_singleton 3 (by decide) (by decide)) (by simp) fun t ht => ?_
  rw [vline_vals (h.isCurrent hp1).fst.2] at ht
  exact congrArg (Command.vline false) (read_cells [y, e.vals p1.1, y] rfl ht 0 (by simp))

theorem makes_relHline (x : K) : Makes e (.hline true x) (e.relHline p1 x) := by
  refine (adds_relHline h hp1 x).makes rfl (fun _ _ => rfl)
    (fresh_singleton 3 (by decide) (by decide)) (by simp) fun t ht => ?_
  rw [relHline_vals] at ht
  exact congrArg (Command.hline true)
    (read_cells [x, e.vals p1.1 + x, e.vals p1.2] rfl ht 0 (by simp))

theorem makes_relVline (y : K) : Makes e (.vline true y) (e.relVline p1 y) := by
  refine (adds_relVline h hp1 y).makes rfl (fun _ _ => rfl)
    (fresh_singleton 3 (by decide) (by decide)) (by simp) fun t ht => ?_
  rw [relVline_vals] at ht
  exact congrArg (Command.vline true)
    (read_cells [y, e.vals p1.1, e.vals p1.2 + y] rfl ht 0 (by simp))

omit h in
theorem makes_curveLinks (rel : Bool) (x2 y2 x3 y3 x4 y4 : K) :
    Makes e (.curve rel x2 y2 x3 y3 x4 y4) (e.curveLinks rel p1 x2 y2 x3 y3 x4 y4) where
  next := Nat.le_add_right e.next 12
  vals k hk := cells_of_lt hk _
  path := by
    refine ⟨_, rfl, fun t ht => ?_⟩
    have hread := read_cells (f := e.vals) (n := e.next)
      [x2, y2, x3, y3, x4, y4, _, _, _, _, _, _] rfl ht
    rw [Command.map]
    congr 1
    · exact hread 0 (by simp)
    · exact hread 1 (by simp)
    · exact hread 2 (by simp)
    · exact hread 3 (by simp)
    · exact hread 4 (by simp)
    · exact hread 5 (by simp)
  points := by
    refine ⟨_, _, rfl, rfl, rfl, ?_⟩
    change Fresh e.next (e.next + 12) _
    constructor
    · simp
    · simp
    · simp
    · simp
  attaches i hi k1 k2 := by
    have hi := hi p1 hp1
    have hp : (e.curveLinks rel p1 x2 y2 x3 y3 x4 y4).points = e.points ++
      [(e.next + 6, e.next + 7), (e.next + 8, e.next + 9), (e.next + 10, e.next + 11)] := rfl
    have hold : (e.curveLinks rel p1 x2 y2 x3 y3 x4 y4).points[i]? = some p1 := by
      rw [hp, List.getElem?_append_left (List.getElem?_eq_some_iff.mp hi).1, hi]
    have hnew : ∀ j, (e.curveLinks rel p1 x2 y2 x3 y3 x4 y4).points[e.points.length + j]? =
        [(e.next + 6, e.next + 7), (e.next + 8, e.next + 9), (e.next + 10, e.next + 11)][j]? :=
      fun j => by rw [hp, List.getElem?_append_right (Nat.le_add_right _ j),
        Nat.add_sub_cancel_left]
    have hend : (e.curveLinks rel p1 x2 y2 x3 y3 x4 y4).points[e.points.length]? =
        some (e.next + 6, e.next + 7) := hnew 0
    have hcalls : Call.linkAdd k1 k2 ∈ curveCalls rel p1 e.next ↔
        ((k1, k2) = (p1.1, e.next + 8) ∨ (k1, k2) = (p1.2, e.next + 9)) ∨
          ((k1, k2) = (e.next + 6, e.next + 10) ∨ (k1, k2) = (e.next + 7, e.next + 11)) := by
      cases rel with
      | false => simp [curveCalls, or_assoc]
      | true => simp [curveCalls, or_assoc]
    change Call.linkAdd k1 k2 ∈ e.calls ++ curveCalls rel p1 e.next ↔ _
    rw [List.mem_append, hcalls, Command.attached]
    simp only [List.mem_cons, List.not_mem_nil, or_false, exists_eq_or_imp, exists_eq_left]
    rw [sameAxis_iff hold (hnew 1), sameAxis_iff hend (hnew 2)]
  inside i hi a ha := by
    have hi := (List.getElem?_eq_some_iff.mp (hi p1 hp1)).1
    have hlength : (e.curveLinks rel p1 x2 y2 x3 y3 x4 y4).points.length =
        e.points.length + 3 := List.length_append
    rw [hlength]
    rcases List.mem_pair.mp ha with rfl | rfl
    · exact ⟨hi.trans_le (Nat.le_add_right _ 3), Nat.add_lt_add_left (by decide) _⟩
    · exact ⟨Nat.lt_add_of_pos_right (by decide), Nat.add_lt_add_left (by decide) _⟩

omit [AddCommGroup K] h hp1 in
theorem Makes.cpline {c : Command K} {e' : Editor K} (hm : Makes e c e') (q1 q2 : ℕ × ℕ) :
    Makes e c (e'.cpline q1 q2) := by
  have hnext : e'.next ≤ (e'.cpline q1 q2).next := Nat.le_add_right e'.next 4
  have hvals : ∀ k < e'.next, (e'.cpline q1 q2).vals k = e'.vals k :=
    fun k hk => cells_of_lt hk [_, _, _, _]
  obtain ⟨c', hpath, hc⟩ := hm.path
  constructor
  · exact hm.next.trans hnext
  · exact fun k hk => (hvals k (hk.trans_le hm.next)).trans (hm.vals k hk)
  · exact ⟨c', hpath, fun t ht => hc t fun k hk =>
      (ht k (hk.trans_le hnext)).trans (hvals k hk)⟩
  · obtain ⟨q, qs, hqs, hsize, hpcp, hfresh⟩ := hm.points
    refine ⟨q, qs, hqs, hsize, hpcp, ?_⟩
    simpa using hfresh.append (fresh_nil e'.next _) hm.next hnext
  · intro i hi k1 k2
    have hno : Call.linkAdd k1 k2 ∉ cplineCalls e'.next q1 q2 := by simp [cplineCalls]
    rw [cpline_calls, List.mem_append, or_iff_left hno]
    exact hm.attaches i hi k1 k2
  · exact hm.inside

omit h in
theorem makes_curve (rel : Bool) (x2 y2 x3 y3 x4 y4 : K) :
    Makes e (.curve rel x2 y2 x3 y3 x4 y4) (e.curve rel p1 x2 y2 x3 y3 x4 y4) := by
  rw [curve_eq]
  exact ((makes_curveLinks hp1 rel x2 y2 x3 y3 x4 y4).cpline _ _).cpline _ _

theorem built_curve (rel : Bool) (x2 y2 x3 y3 x4 y4 : K) :
    ∃ lab', Built (e.curve rel p1 x2 y2 x3 y3 x4 y4) lab' := by
  have hlinks := h.add (fun k hk => extend_of_lt hk _)
    (adds_curve rel p1 x2 y2 x3 y3 x4 y4 h hp1)
  have hmem : p1 ∈ (e.curveLinks rel p1 x2 y2 x3 y3 x4 y4).points :=
    List.mem_append_left _ (h.pcp p1 hp1).1
  have hnew : ∀ q, q ∈ [(e.next + 6, e.next + 7), (e.next + 8, e.next + 9),
      (e.next + 10, e.next + 11)] → q ∈ (e.curveLinks rel p1 x2 y2 x3 y3 x4 y4).points :=
    fun q hq => List.mem_append_right _ hq
  have hfirst := hlinks.cpline hmem (hnew (e.next + 8, e.next + 9) (by simp))
  rw [curve_eq]
  exact ⟨_, hfirst.cpline (hnew (e.next + 10, e.next + 11) (by simp))
    (hnew (e.next + 6, e.next + 7) (by simp))⟩

end Relative

/-- A command makes an editor of an editor. -/
theorem Built.command (h : Built e lab) (hrun : e.command c = .ok e') :
    (∃ lab', Built e' lab') ∧ Makes e c e' := by
  have hlab : ∀ {n} {ls : List Label}, ∀ k < n, extend lab n ls k = lab k :=
    fun k hk => extend_of_lt hk _
  have hcurrent : ∀ {f : ℕ × ℕ → Editor K},
      (do return f (← nonNil Error.badArgument e.pcp)) = Except.ok e' →
        ∃ p1, e.pcp = some p1 ∧ f p1 = e' := by
    intro f hf
    cases hpcp : e.pcp with
    | none =>
        rw [hpcp] at hf
        cases hf
    | some p1 =>
        rw [hpcp] at hf
        exact ⟨p1, rfl, Except.ok.inj hf⟩
  cases c with
  | move rel x y =>
      cases rel with
      | false =>
          obtain rfl := Except.ok.inj hrun
          exact ⟨⟨_, h.add hlab (adds_line (.inl rfl) h x y)⟩, makes_move h x y⟩
      | true =>
          obtain ⟨p1, hp1, rfl⟩ := hcurrent hrun
          exact ⟨⟨_, h.add hlab (adds_relLine (.inl rfl) h hp1 x y)⟩, makes_relMove h hp1 x y⟩
  | line rel x y =>
      cases rel with
      | false =>
          obtain rfl := Except.ok.inj hrun
          exact ⟨⟨_, h.add hlab (adds_line (.inr rfl) h x y)⟩, makes_line h x y⟩
      | true =>
          obtain ⟨p1, hp1, rfl⟩ := hcurrent hrun
          exact ⟨⟨_, h.add hlab (adds_relLine (.inr rfl) h hp1 x y)⟩, makes_relLine h hp1 x y⟩
  | hline rel x =>
      cases rel with
      | false =>
          obtain ⟨p1, hp1, rfl⟩ := hcurrent hrun
          exact ⟨⟨_, h.add hlab (adds_hline h hp1 x)⟩, makes_hline h hp1 x⟩
      | true =>
          obtain ⟨p1, hp1, rfl⟩ := hcurrent hrun
          exact ⟨⟨_, h.add hlab (adds_relHline h hp1 x)⟩, makes_relHline h hp1 x⟩
  | vline rel y =>
      cases rel with
      | false =>
          obtain ⟨p1, hp1, rfl⟩ := hcurrent hrun
          exact ⟨⟨_, h.add hlab (adds_vline h hp1 y)⟩, makes_vline h hp1 y⟩
      | true =>
          obtain ⟨p1, hp1, rfl⟩ := hcurrent hrun
          exact ⟨⟨_, h.add hlab (adds_relVline h hp1 y)⟩, makes_relVline h hp1 y⟩
  | curve rel x2 y2 x3 y3 x4 y4 =>
      obtain ⟨p1, hp1, rfl⟩ := hcurrent hrun
      exact ⟨built_curve h hp1 rel x2 y2 x3 y3 x4 y4, makes_curve hp1 rel x2 y2 x3 y3 x4 y4⟩

end Commands

/-! ## All commands -/

section Runs

variable {e e' : Editor K} {lab : ℕ → Label} {path : List (Command K)}

theorem Built.commands (h : Built e lab) (hrun : path.foldlM Editor.command e = .ok e') :
    ∃ lab', Built e' lab' := by
  induction path generalizing e lab with
  | nil =>
      obtain rfl := Except.ok.inj hrun
      exact ⟨lab, h⟩
  | cons c path ih =>
      rw [List.foldlM_cons] at hrun
      obtain ⟨mid, hmid, hrest⟩ := exists_of_bind_eq_ok hrun
      obtain ⟨⟨lab', hbuilt⟩, -⟩ := h.command hmid
      exact ih hbuilt hrest

/-- What the commands of a path make of an editor. -/
structure MakesAll (e : Editor K) (path : List (Command K)) (e' : Editor K) : Prop where
  next : e.next ≤ e'.next
  vals : ∀ k < e.next, e'.vals k = e.vals k
  commands : ∃ cs, e'.path = e.path ++ cs ∧
    ∀ t : ℕ → K, (∀ k < e'.next, t k = e'.vals k) → cs.map (fun c => c.map t) = path
  points : ∃ qs, e'.points = e.points ++ qs ∧ Fresh e.next e'.next qs
  attaches : ∀ i, (∀ p1, e.pcp = some p1 → e.points[i]? = some p1) →
    ∀ k1 k2, Call.linkAdd k1 k2 ∈ e'.calls ↔ Call.linkAdd k1 k2 ∈ e.calls ∨
      ∃ a ∈ attached i e.points.length path, SameAxis e'.points a k1 k2

omit [AddCommGroup K] in
/-- The first command and then the others. -/
theorem Makes.cons {c : Command K} {mid : Editor K} (hc : Makes e c mid)
    (hpath : MakesAll mid path e') : MakesAll e (c :: path) e' := by
  obtain ⟨q, qs, hqs, hsize, hpcp, hfresh⟩ := hc.points
  obtain ⟨qs', hqs', hfresh'⟩ := hpath.points
  constructor
  · exact hc.next.trans hpath.next
  · exact fun k hk => (hpath.vals k (hk.trans_le hc.next)).trans (hc.vals k hk)
  · obtain ⟨c', hc', hread⟩ := hc.path
    obtain ⟨cs, hcs, hreads⟩ := hpath.commands
    refine ⟨c' :: cs, by rw [hcs, hc', List.append_assoc, List.singleton_append], fun t ht => ?_⟩
    have hmid : ∀ k < mid.next, t k = mid.vals k := fun k hk =>
      (ht k (hk.trans_le hpath.next)).trans (hpath.vals k hk)
    rw [List.map_cons, hread t hmid, hreads t ht]
  · exact ⟨q :: qs ++ qs', by rw [hqs', hqs, List.append_assoc],
      hfresh.append hfresh' hc.next hpath.next⟩
  · intro i hi k1 k2
    have hnext : ∀ p1, mid.pcp = some p1 → mid.points[e.points.length]? = some p1 := by
      intro p1 hp1
      obtain rfl := Option.some.inj (hpcp.symm.trans hp1)
      simp [hqs]
    have hlength : mid.points.length = e.points.length + c.size := by
      rw [hqs, List.length_append, List.length_cons, hsize]
    rw [hpath.attaches e.points.length hnext k1 k2, hc.attaches i hi k1 k2, attached, hlength,
      or_assoc]
    have hsame : ∀ a ∈ c.attached i e.points.length,
        SameAxis mid.points a k1 k2 ↔ SameAxis e'.points a k1 k2 := by
      intro a ha
      obtain ⟨hfirst, hsecond⟩ := hc.inside i hi a ha
      rw [SameAxis, SameAxis, hqs', List.getElem?_append_left hfirst,
        List.getElem?_append_left hsecond]
    simp only [List.mem_append, or_and_right, exists_or]
    refine or_congr_right (or_congr_left (exists_congr fun a => and_congr_right fun ha => ?_))
    exact hsame a ha

theorem Built.makesAll (h : Built e lab) (hrun : path.foldlM Editor.command e = .ok e') :
    MakesAll e path e' := by
  induction path generalizing e lab with
  | nil =>
      obtain rfl := Except.ok.inj hrun
      constructor
      · exact le_rfl
      · exact fun k _ => rfl
      · exact ⟨[], (List.append_nil _).symm, fun t _ => rfl⟩
      · exact ⟨[], (List.append_nil _).symm, fresh_nil _ _⟩
      · simp [attached]
  | cons c path ih =>
      rw [List.foldlM_cons] at hrun
      obtain ⟨mid, hmid, hrest⟩ := exists_of_bind_eq_ok hrun
      obtain ⟨⟨lab', hbuilt⟩, hmakes⟩ := h.command hmid
      exact hmakes.cons (ih hbuilt hrest)

end Runs

/-- The editor of no commands. -/
theorem built_nil : Built ({ vals := fun _ => 0 } : Editor K) fun _ => stored where
  net := by
    constructor
    · exact List.nodup_nil
    · simp
    · simp
    · simp
    · exact fun k _ => Nat.zero_lt_two
  next := le_rfl
  points := by simp
  pcp := by simp
  holds := by simp
  evaluates _ _ := rfl
  exact := by simp
  current := by simp

variable {path : List (Command K)} {e : Editor K}

theorem editor_built (h : editor path = .ok e) : ∃ lab, Built e lab := built_nil.commands h

/-- The cells of the path are those of the path that the editor is made for. -/
theorem editor_path (h : editor path = .ok e) : e.path.map (fun c => c.map e.vals) = path := by
  obtain ⟨cs, hcs, hread⟩ := (built_nil.makesAll h).commands
  rw [hcs]
  exact hread e.vals fun _ _ => rfl

/-- No two points share a variable. -/
theorem editor_points (h : editor path = .ok e) :
    (e.points.map Prod.fst).Nodup ∧ (e.points.map Prod.snd).Nodup := by
  obtain ⟨qs, hqs, hfresh⟩ := (built_nil.makesAll h).points
  rw [hqs]
  exact ⟨hfresh.nodup_fst, hfresh.nodup_snd⟩

/-- What moves with what. -/
theorem linkAdd_iff (h : editor path = .ok e) {k1 k2 : ℕ} : Call.linkAdd k1 k2 ∈ e.calls ↔
    ∃ a ∈ attached 0 0 path, SameAxis e.points a k1 k2 := by
  have hattaches := (built_nil.makesAll h).attaches 0 (by simp) k1 k2
  rw [hattaches, or_iff_right List.not_mem_nil]
  rfl

/-- A command never fails after another one. -/
theorem command_succeeds (hpcp : e.pcp ≠ none) (c : Command K) :
    ∃ e', e.command c = .ok e' ∧ e'.pcp ≠ none := by
  obtain ⟨p1, hp1⟩ := Option.ne_none_iff_exists'.mp hpcp
  have hcurrent : ∀ f : ℕ × ℕ → Editor K, (f p1).pcp ≠ none →
      ∃ e', (do return f (← nonNil Error.badArgument e.pcp)) = Except.ok e' ∧ e'.pcp ≠ none :=
    fun f hf => ⟨f p1, by rw [hp1]; rfl, hf⟩
  cases c with
  | move rel x y =>
      cases rel with
      | false => exact ⟨_, rfl, Option.some_ne_none _⟩
      | true => exact hcurrent _ (Option.some_ne_none _)
  | line rel x y =>
      cases rel with
      | false => exact ⟨_, rfl, Option.some_ne_none _⟩
      | true => exact hcurrent _ (Option.some_ne_none _)
  | hline rel x =>
      cases rel with
      | false => exact hcurrent _ (Option.some_ne_none _)
      | true => exact hcurrent _ (Option.some_ne_none _)
  | vline rel y =>
      cases rel with
      | false => exact hcurrent _ (Option.some_ne_none _)
      | true => exact hcurrent _ (Option.some_ne_none _)
  | curve rel x2 y2 x3 y3 x4 y4 => exact hcurrent _ (Option.some_ne_none _)

/-- There is an editor for each path that starts with a move. -/
theorem exists_editor (x y : K) (cs : List (Command K)) :
    ∃ e, editor (.move false x y :: cs) = .ok e := by
  have hcs : ∀ (cs : List (Command K)) (e : Editor K), e.pcp ≠ none →
      ∃ e', cs.foldlM Editor.command e = .ok e' := by
    intro cs
    induction cs with
    | nil => exact fun e _ => ⟨e, rfl⟩
    | cons c cs ih =>
        intro e hpcp
        obtain ⟨mid, hmid, hpcp'⟩ := command_succeeds hpcp c
        obtain ⟨e', he'⟩ := ih mid hpcp'
        exact ⟨e', by rw [List.foldlM_cons, hmid]; exact he'⟩
  exact hcs cs _ (by simp [Editor.line])

end LuaAttic.PathEditor
