import LuaAttic.PathEditor.Moves

/-!
# How an editor is made

Each command adds a block of variables with their links, among which only the
endpoint of the command before occurs.  What holds of the links so far holds of
them with the block.
-/

namespace LuaAttic.PathEditor

open LuaAttic.Lua LuaAttic.Varlinker

variable {K : Type} [AddCommGroup K]

/-! ## Evaluation -/

/-- The current point after some commands. -/
def current (cp : K × K) (cs : List (Command K)) : K × K :=
  cs.foldl (fun cp c => c.endpoint cp) cp

theorem evaluate_append (cp : K × K) (cs : List (Command K)) (c : Command K) :
    evaluate cp (cs ++ [c]) = evaluate cp cs ++ c.points (current cp cs) := by
  induction cs generalizing cp with
  | nil => simp [evaluate, current]
  | cons c' cs ih =>
      rw [List.cons_append, evaluate, evaluate, ih, List.append_assoc]
      rfl

theorem current_append (cp : K × K) (cs : List (Command K)) (c : Command K) :
    current cp (cs ++ [c]) = c.endpoint (current cp cs) := by
  rw [current, List.foldl_append]
  rfl

/-- The values of a point. -/
def valuesAt (s : ℕ → K) (q : ℕ × ℕ) : K × K := (s q.1, s q.2)

/-- The path evaluates to the points. -/
def Editor.Evaluated (e : Editor K) (s : ℕ → K) : Prop :=
  evaluate 0 (e.path.map fun c => c.map s) = e.points.map (valuesAt s)

/-- There is a relative curve. -/
def HasRelCurve {α : Type} (path : List (Command α)) : Prop :=
  ∃ x2 y2 x3 y3 x4 y4, Command.curve true x2 y2 x3 y3 x4 y4 ∈ path

/-! ## Labels -/

/-- The variables of a point. -/
structure IsPoint (lab : ℕ → Label) (next : ℕ) (q : ℕ × ℕ) : Prop where
  fst : 2 ≤ q.1 ∧ q.1 < next
  snd : 2 ≤ q.2 ∧ q.2 < next
  roles : (lab q.1).role ≠ .stored ∧ (lab q.2).role ≠ .stored
  axes : (lab q.1).place.2 = false ∧ (lab q.2).place.2 = true

theorem IsPoint.extend {lab lab' : ℕ → Label} {n n' : ℕ} {q : ℕ × ℕ} (h : IsPoint lab n q)
    (hn : n ≤ n') (hlab : ∀ k < n, lab' k = lab k) : IsPoint lab' n' q where
  fst := ⟨h.fst.1, h.fst.2.trans_le hn⟩
  snd := ⟨h.snd.1, h.snd.2.trans_le hn⟩
  roles := by
    rw [hlab _ h.fst.2, hlab _ h.snd.2]
    exact h.roles
  axes := by
    rw [hlab _ h.fst.2, hlab _ h.snd.2]
    exact h.axes

/-- Labels with those of a block. -/
def extend (lab : ℕ → Label) (n : ℕ) (ls : List Label) : ℕ → Label :=
  fun k => if k < n then lab k else ls.getD (k - n) ⟨.stored, (0, false)⟩

theorem extend_of_lt {lab : ℕ → Label} {n k : ℕ} (h : k < n) (ls : List Label) :
    extend lab n ls k = lab k := if_pos h

theorem extend_add (lab : ℕ → Label) (n i : ℕ) (ls : List Label) :
    extend lab n ls (n + i) = ls.getD i ⟨.stored, (0, false)⟩ := by
  rw [extend, if_neg (by simp), Nat.add_sub_cancel_left]

theorem extend_self (lab : ℕ → Label) (n : ℕ) (ls : List Label) :
    extend lab n ls n = ls.getD 0 ⟨.stored, (0, false)⟩ := extend_add lab n 0 ls

/-- The places of a block. -/
theorem place_extend_lt {lab : ℕ → Label} {n n' k : ℕ} {ls : List Label} (hn : 0 < n')
    (hls : ∀ l ∈ ls, l.place.1 < n') (hk : n ≤ k) : (extend lab n ls k).place.1 < n' := by
  obtain ⟨i, rfl⟩ := Nat.exists_eq_add_of_le hk
  rw [extend_add, List.getD_eq_getElem?_getD]
  cases hi : ls[i]? with
  | none => exact hn
  | some l => exact hls l (List.mem_of_getElem? hi)

/-! ## Cells -/

/-- The cells of a block of variables. -/
def cells (f : ℕ → K) (n : ℕ) : List K → ℕ → K
  | [] => f
  | v :: vs => cells (Function.update f n v) (n + 1) vs

omit [AddCommGroup K] in
theorem cells_of_lt {f : ℕ → K} {n k : ℕ} (h : k < n) (vs : List K) :
    cells f n vs k = f k := by
  induction vs generalizing f n with
  | nil => rfl
  | cons v vs ih => rw [cells, ih (h.trans n.lt_succ_self), Function.update_of_ne h.ne]

omit [AddCommGroup K] in
theorem cells_add {f : ℕ → K} {n i : ℕ} {vs : List K} (h : i < vs.length) :
    cells f n vs (n + i) = vs[i] := by
  induction vs generalizing f n i with
  | nil => exact absurd h (Nat.not_lt_zero i)
  | cons v vs ih =>
      rw [cells]
      cases i with
      | zero =>
          change cells (Function.update f n v) (n + 1) vs n = v
          rw [cells_of_lt (Nat.lt_add_one n), Function.update_self]
      | succ i =>
          have hshift : n + (i + 1) = n + 1 + i := by omega
          rw [hshift, ih (Nat.lt_of_succ_lt_succ h), List.getElem_cons_succ]

omit [AddCommGroup K] in
theorem cells_self {f : ℕ → K} {n : ℕ} {v : K} {vs : List K} :
    cells f n (v :: vs) n = v := by
  rw [cells, cells_of_lt (Nat.lt_add_one n), Function.update_self]

/-! ## Blocks -/

section Blocks

variable {calls cs : List Call} {lab lab' : ℕ → Label} {n n' : ℕ} {R R' : Prop}

theorem Call.Fits.mono {c : Call} (h : c.Fits lab calls R)
    (hlab : ∀ k ∈ c.target :: c.sources, lab' k = lab k) (hcalls : ∀ c ∈ calls, c ∈ cs)
    (hR : R → R') : c.Fits lab' cs R' := by
  cases c with
  | link k1 k2 =>
      have h1 := hlab k1 (by simp [Call.sources])
      have h2 := hlab k2 (by simp [Call.target])
      obtain ⟨hk1, hk2, hend⟩ := h
      refine ⟨by rwa [h1], by rwa [h2], fun hrole => ?_⟩
      rw [h1, h2]
      rw [h2] at hrole
      obtain ⟨hk1', hplace, hmem⟩ := hend hrole
      exact ⟨hk1', hplace, hcalls _ hmem⟩
  | linkAdd k1 k2 =>
      have h1 := hlab k1 (by simp [Call.sources])
      have h2 := hlab k2 (by simp [Call.target])
      change (lab' k1).role = _ ∧ (lab' k2).role = _ ∧ (lab' k1).place = (lab' k2).place
      rw [h1, h2]
      exact h
  | exprSub k2 p p1 =>
      have h1 := hlab p (by simp [Call.sources])
      have h2 := hlab p1 (by simp [Call.sources])
      have h3 := hlab k2 (by simp [Call.target])
      obtain ⟨hk, hp, hp1, hcase⟩ := h
      refine ⟨by rwa [h3], by rwa [h1], by rwa [h2], ?_⟩
      rw [h1, h2]
      exact hcase.imp_right fun hboth => ⟨hcalls _ hboth.1, hR hboth.2⟩

/-- The calls of a block. -/
structure Block (calls cs : List Call) (lab : ℕ → Label) (n n' : ℕ) (R : Prop) : Prop where
  nodup : (pairs cs).Nodup
  fresh : ∀ c ∈ cs, n ≤ c.target ∨ (lab c.target).role = .endpoint ∧ ∀ x ∈ c.sources, n ≤ x
  fits : ∀ c ∈ cs, c.Fits lab (calls ++ cs) R
  targets : cs.Pairwise fun c c' =>
    c.target = c'.target → (lab c.target).role = .endpoint
  bounds : ∀ c ∈ cs, ∀ k ∈ c.target :: c.sources, 2 ≤ k ∧ k < n'
  places : ∀ k, n ≤ k → k < n' → (lab k).place.1 < n'

theorem Net.extend (h : Net calls lab n R) (hn : n ≤ n')
    (hlab : ∀ k < n, lab' k = lab k) (hR : R → R') (hblock : Block calls cs lab' n n' R') :
    Net (calls ++ cs) lab' n' R' where
  nodup := by
    have hsplit : pairs (calls ++ cs) = pairs calls ++ pairs cs := by
      simp [pairs]
    rw [hsplit]
    refine h.nodup.append hblock.nodup ?_
    rintro ⟨x, w⟩ hold hnew
    obtain ⟨c, hc, hx, rfl⟩ := mem_pairs_iff.mp hold
    obtain ⟨c', hc', hx', ht⟩ := mem_pairs_iff.mp hnew
    have htarget := (h.bounds c hc c.target List.mem_cons_self).2
    have hsource := (h.bounds c hc x (List.mem_cons_of_mem _ hx)).2
    rcases hblock.fresh c' hc' with hle | ⟨-, hle⟩
    · exact absurd (ht ▸ hle) (Nat.not_le_of_lt htarget)
    · exact absurd (hle x hx') (Nat.not_le_of_lt hsource)
  fits c hc := by
    rcases List.mem_append.mp hc with hc | hc
    · refine (h.fits c hc).mono (fun k hk => hlab k (h.bounds c hc k hk).2) ?_ hR
      exact fun c hc => List.mem_append_left _ hc
    · exact hblock.fits c hc
  targets := by
    refine List.pairwise_append.mpr ⟨h.targets.imp_of_mem ?_, hblock.targets, ?_⟩
    · intro c c' hc _ hcc ht
      rw [hlab _ (h.bounds c hc c.target List.mem_cons_self).2]
      exact hcc ht
    · intro c hc c' hc' ht
      have htarget := (h.bounds c hc c.target List.mem_cons_self).2
      rcases hblock.fresh c' hc' with hle | ⟨hrole, -⟩
      · exact absurd (ht ▸ hle) (Nat.not_le_of_lt htarget)
      · rw [ht]
        exact hrole
  bounds c hc k hk := by
    rcases List.mem_append.mp hc with hc | hc
    · exact ⟨(h.bounds c hc k hk).1, (h.bounds c hc k hk).2.trans_le hn⟩
    · exact hblock.bounds c hc k hk
  places k hk := by
    by_cases hkn : k < n
    · rw [hlab k hkn]
      exact (h.places k hkn).trans_le hn
    · exact hblock.places k (Nat.le_of_not_lt hkn) hk

end Blocks

/-! ## Editors -/

/-- What holds of an editor while it is made. -/
structure Built (e : Editor K) (lab : ℕ → Label) : Prop where
  net : Net e.calls lab e.next (HasRelCurve e.path)
  next : 2 ≤ e.next
  points : ∀ q ∈ e.points, IsPoint lab e.next q
  pcp : ∀ p1, e.pcp = some p1 → p1 ∈ e.points ∧ (lab p1.1).role = .endpoint ∧
    (lab p1.2).role = .endpoint
  holds : ∀ c ∈ e.calls, c.Holds e.vals
  evaluates : ∀ s, (∀ c ∈ e.calls, c.Holds s) → e.Evaluated s
  exact : ∀ s, e.Evaluated s → ∀ c p p1, Call.exprSub c p p1 ∈ e.calls → s c = s p - s p1
  current : ∀ s p1, e.pcp = some p1 → e.Evaluated s →
    current 0 (e.path.map fun c => c.map s) = valuesAt s p1

/-- The point that the next command starts from. -/
structure IsCurrent (lab : ℕ → Label) (next : ℕ) (q : ℕ × ℕ) : Prop extends
    IsPoint lab next q where
  roleFst : (lab q.1).role = .endpoint
  roleSnd : (lab q.2).role = .endpoint
  placeFst : (lab q.1).place.1 < next
  placeSnd : (lab q.2).place.1 < next

theorem Built.isCurrent {e : Editor K} {lab : ℕ → Label} (h : Built e lab) {p1 : ℕ × ℕ}
    (hp1 : e.pcp = some p1) : IsCurrent lab e.next p1 := by
  obtain ⟨hmem, hrole1, hrole2⟩ := h.pcp p1 hp1
  have hpoint := h.points p1 hmem
  exact ⟨hpoint, hrole1, hrole2, h.net.places p1.1 hpoint.fst.2,
    h.net.places p1.2 hpoint.snd.2⟩

/-- What a command adds to an editor. -/
structure Adds (e e' : Editor K) (lab' : ℕ → Label) (cs : List Call) (c : Command ℕ)
    (qs : List (ℕ × ℕ)) (q : ℕ × ℕ) : Prop where
  next : e.next ≤ e'.next
  calls : e'.calls = e.calls ++ cs
  path : e'.path = e.path ++ [c]
  points : e'.points = e.points ++ q :: qs
  pcp : e'.pcp = some q
  vals : ∀ k < e.next, e'.vals k = e.vals k
  block : Block e.calls cs lab' e.next e'.next (HasRelCurve e'.path)
  isPoint : ∀ q' ∈ q :: qs, IsPoint lab' e'.next q'
  endpoint : (lab' q.1).role = .endpoint ∧ (lab' q.2).role = .endpoint
  holds : ∀ c ∈ cs, c.Holds e'.vals
  length : ∀ (s : ℕ → K) (cp : K × K), ((c.map s).points cp).length = qs.length + 1
  evaluates : ∀ (s : ℕ → K) (cp : K × K), (∀ p1, e.pcp = some p1 → cp = valuesAt s p1) →
    (∀ c ∈ cs, c.Holds s) → (c.map s).points cp = (q :: qs).map (valuesAt s)
  exact : ∀ (s : ℕ → K) (cp : K × K), (∀ p1, e.pcp = some p1 → cp = valuesAt s p1) →
    (c.map s).points cp = (q :: qs).map (valuesAt s) →
      ∀ c p p1, Call.exprSub c p p1 ∈ cs → s c = s p - s p1

theorem Call.Holds.congr {c : Call} {s t : ℕ → K} (h : c.Holds s)
    (hst : ∀ k ∈ c.target :: c.sources, t k = s k) : c.Holds t := by
  cases c with
  | link k1 k2 =>
      change t k2 = t k1
      rw [hst k1 (by simp [Call.sources]), hst k2 (by simp [Call.target])]
      exact h
  | linkAdd k1 k2 => trivial
  | exprSub k2 p p1 =>
      change t k2 = t p - t p1
      rw [hst p (by simp [Call.sources]), hst p1 (by simp [Call.sources]),
        hst k2 (by simp [Call.target])]
      exact h

theorem Adds.evaluated_iff {e e' : Editor K} {lab' : ℕ → Label} {cs : List Call}
    {c : Command ℕ} {qs : List (ℕ × ℕ)} {q : ℕ × ℕ} (ha : Adds e e' lab' cs c qs q)
    (s : ℕ → K) : e'.Evaluated s ↔ e.Evaluated s ∧
      (c.map s).points (PathEditor.current 0 (e.path.map fun c => c.map s)) =
        (q :: qs).map (valuesAt s) := by
  rw [Editor.Evaluated, ha.path, ha.points, List.map_append, List.map_append,
    List.map_singleton, evaluate_append]
  constructor
  · intro heq
    exact List.append_inj' heq (by rw [ha.length, List.length_map, List.length_cons])
  · rintro ⟨hold, hnew⟩
    rw [hnew, show evaluate 0 _ = _ from hold]

theorem Built.add {e e' : Editor K} {lab lab' : ℕ → Label} {cs : List Call}
    {c : Command ℕ} {qs : List (ℕ × ℕ)} {q : ℕ × ℕ} (h : Built e lab)
    (hlab : ∀ k < e.next, lab' k = lab k) (ha : Adds e e' lab' cs c qs q) :
    Built e' lab' where
  net := by
    rw [ha.calls]
    refine h.net.extend ha.next hlab ?_ ha.block
    rintro ⟨x2, y2, x3, y3, x4, y4, hmem⟩
    exact ⟨x2, y2, x3, y3, x4, y4, by rw [ha.path]; exact List.mem_append_left _ hmem⟩
  next := h.next.trans ha.next
  points q' hq' := by
    rw [ha.points] at hq'
    rcases List.mem_append.mp hq' with hq' | hq'
    · exact (h.points q' hq').extend ha.next hlab
    · exact ha.isPoint q' hq'
  pcp p1 hp1 := by
    rw [ha.pcp] at hp1
    obtain rfl := Option.some.inj hp1
    refine ⟨?_, ha.endpoint⟩
    rw [ha.points]
    exact List.mem_append_right _ List.mem_cons_self
  holds c hc := by
    rw [ha.calls] at hc
    rcases List.mem_append.mp hc with hc | hc
    · exact (h.holds c hc).congr fun k hk => ha.vals k (h.net.bounds c hc k hk).2
    · exact ha.holds c hc
  evaluates s hs := by
    rw [ha.calls] at hs
    have hold := h.evaluates s fun c hc => hs c (List.mem_append_left _ hc)
    refine (ha.evaluated_iff s).mpr ⟨hold, ?_⟩
    exact ha.evaluates s _ (fun p1 hp1 => h.current s p1 hp1 hold)
      fun c hc => hs c (List.mem_append_right _ hc)
  exact s hs c' p p1 hc' := by
    obtain ⟨hold, hnew⟩ := (ha.evaluated_iff s).mp hs
    rw [ha.calls] at hc'
    rcases List.mem_append.mp hc' with hc' | hc'
    · exact h.exact s hold c' p p1 hc'
    · exact ha.exact s _ (fun p1 hp1 => h.current s p1 hp1 hold) hnew c' p p1 hc'
  current s p1 hp1 hs := by
    obtain ⟨-, hnew⟩ := (ha.evaluated_iff s).mp hs
    rw [ha.pcp] at hp1
    obtain rfl := Option.some.inj hp1
    rw [ha.path, List.map_append, List.map_singleton, current_append, Command.endpoint, hnew]
    rfl

end LuaAttic.PathEditor
