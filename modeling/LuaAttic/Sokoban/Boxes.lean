import LuaAttic.Sokoban.Game
import LuaAttic.Support.Fallible
import LuaAttic.Support.Pushing

/-!
# Packing and unpacking crates

What the loops over the boxes do to the cells, and what is read back of the
states that are kept.
-/

namespace LuaAttic.Sokoban

open LuaAttic.Lua LuaAttic.Support

/-! ## Cells of a grid -/

section Grids

variable {α : Type} {t : Grid α} {c : ℤ × ℤ}

/-- What is in a cell, also if its column is missing. -/
def Grid.cell (t : Grid α) (c : ℤ × ℤ) : Option α := (t c.1).bind fun column => column c.2

/-- A change of the cells in the columns there are. -/
def Grid.mapCells (f : ℤ × ℤ → Option α → Option α) (t : Grid α) : Grid α :=
  fun x => (t x).map fun column y => f (x, y) (column y)

theorem get_eq (h : (t c.1).isSome) : t.get c.1 c.2 = .ok (t.cell c) := by
  obtain ⟨column, hcolumn⟩ := Option.isSome_iff_exists.mp h
  simp [Grid.get, Grid.cell, hcolumn, nonNil, bind, Except.bind, pure, Except.pure]

theorem set_eq (h : (t c.1).isSome) (v : Option α) :
    t.set c.1 c.2 v = .ok (t.mapCells fun c' b => if c' = c then v else b) := by
  obtain ⟨column, hcolumn⟩ := Option.isSome_iff_exists.mp h
  have hmap : (Function.update t c.1 (some (Function.update column c.2 v))) =
      t.mapCells fun c' b => if c' = c then v else b := by
    funext x
    by_cases hx : x = c.1
    · subst hx
      rw [Function.update_self, Grid.mapCells, hcolumn, Option.map_some]
      congr 1
      funext y
      by_cases hy : y = c.2
      · subst hy
        simp
      · simp [hy, Prod.ext_iff]
    · rw [Function.update_of_ne hx, Grid.mapCells]
      simp [hx, Prod.ext_iff]
  rw [← hmap]
  simp [Grid.set, hcolumn, nonNil, bind, Except.bind, pure, Except.pure]

theorem get_eq_ok_iff {x y : ℤ} {v : Option α} :
    t.get x y = .ok v ↔ (t x).isSome ∧ t.cell (x, y) = v := by
  cases hx : t x with
  | none => simp [Grid.get, hx, nonNil, bind, Except.bind]
  | some column =>
      have hcolumn : (t (x, y).1).isSome := by simp [hx]
      rw [show t.get x y = _ from get_eq hcolumn]
      simp

theorem set_eq_ok_iff {x y : ℤ} {v : Option α} {t' : Grid α} :
    t.set x y v = .ok t' ↔
      (t x).isSome ∧ t' = t.mapCells fun c b => if c = (x, y) then v else b := by
  cases hx : t x with
  | none => simp [Grid.set, hx, nonNil, bind, Except.bind]
  | some column =>
      have hcolumn : (t (x, y).1).isSome := by simp [hx]
      rw [show t.set x y v = _ from set_eq hcolumn v]
      simp [eq_comm]

@[simp] theorem isSome_mapCells (f : ℤ × ℤ → Option α → Option α) (t : Grid α) (x : ℤ) :
    (t.mapCells f x).isSome = (t x).isSome := by
  simp [Grid.mapCells]

theorem cell_mapCells {f : ℤ × ℤ → Option α → Option α} (h : (t c.1).isSome) :
    (t.mapCells f).cell c = f c (t.cell c) := by
  obtain ⟨column, hcolumn⟩ := Option.isSome_iff_exists.mp h
  simp [Grid.cell, Grid.mapCells, hcolumn]

theorem cell_of_isNone (h : (t c.1).isSome = false) : t.cell c = none := by
  rw [Grid.cell, Option.isSome_eq_false_iff.mp h |> Option.isNone_iff_eq_none.mp]
  rfl

theorem isSome_of_cell {a : α} (h : t.cell c = some a) : (t c.1).isSome := by
  by_contra hnone
  rw [cell_of_isNone (Bool.eq_false_iff.mpr hnone)] at h
  cases h

/-- The cells after what is in one was taken to another. -/
theorem cell_moved {c₁ c₂ : ℤ × ℤ} (h₁ : (t c₁.1).isSome) (h₂ : (t c₂.1).isSome)
    (a : α) (c : ℤ × ℤ) :
    (t.mapCells fun c b => if c = c₂ then some a else if c = c₁ then none else b).cell c =
      if c = c₂ then some a else if c = c₁ then none else t.cell c := by
  cases hc : (t c.1).isSome with
  | true => exact cell_mapCells hc
  | false =>
      have hne₁ : c ≠ c₁ := by
        rintro rfl
        simp [h₁] at hc
      have hne₂ : c ≠ c₂ := by
        rintro rfl
        simp [h₂] at hc
      rw [if_neg hne₂, if_neg hne₁, cell_of_isNone hc]
      exact cell_of_isNone (by simpa using hc)

theorem mapCells_mapCells (f f' : ℤ × ℤ → Option α → Option α) (t : Grid α) :
    (t.mapCells f).mapCells f' = t.mapCells fun c b => f' c (f c b) := by
  funext x
  simp [Grid.mapCells, Function.comp_def]

theorem mapCells_eq_self {f : ℤ × ℤ → Option α → Option α}
    (h : ∀ c, f c (t.cell c) = t.cell c) : t.mapCells f = t := by
  funext x
  rw [Grid.mapCells]
  cases hx : t x with
  | none => rfl
  | some column =>
      rw [Option.map_some]
      congr 1
      funext y
      simpa [Grid.cell, hx] using h (x, y)

/-- Grids with the same columns and the same cells are the same. -/
theorem grid_ext {t' : Grid α} (hcolumns : ∀ x, (t x).isSome = (t' x).isSome)
    (hcells : ∀ c, t.cell c = t'.cell c) : t = t' := by
  funext x
  have hx := hcolumns x
  cases ht : t x with
  | none =>
      rw [ht] at hx
      exact (Option.isNone_iff_eq_none.mp (Option.isSome_eq_false_iff.mp hx.symm)).symm
  | some column =>
      rw [ht] at hx
      obtain ⟨column', ht'⟩ := Option.isSome_iff_exists.mp hx.symm
      rw [ht']
      congr 1
      funext y
      simpa [Grid.cell, ht, ht'] using hcells (x, y)

end Grids

/-! ## Lists of crates -/

section Packed

variable {boxes : Grid Box} {cs : List (ℤ × ℤ)} {F : Finset (ℤ × ℤ)}

/-- The list that stands for some crates. -/
def packed (cs : List (ℤ × ℤ)) (F : Finset (ℤ × ℤ)) : List ℤ :=
  cs.flatMap fun c => if c ∈ F then [c.1, c.2] else []

/-- The cells in a list of crates. -/
def pairs : List ℤ → List (ℤ × ℤ)
  | x :: y :: t => (x, y) :: pairs t
  | _ => []

theorem packed_cons (c : ℤ × ℤ) (cs : List (ℤ × ℤ)) (F : Finset (ℤ × ℤ)) :
    packed (c :: cs) F = (if c ∈ F then [c.1, c.2] else []) ++ packed cs F :=
  List.flatMap_cons

theorem pairs_packed (cs : List (ℤ × ℤ)) (F : Finset (ℤ × ℤ)) :
    pairs (packed cs F) = cs.filter (· ∈ F) := by
  induction cs with
  | nil => rfl
  | cons c cs ih =>
      rw [packed_cons]
      by_cases hc : c ∈ F
      · rw [if_pos hc, List.filter_cons_of_pos (by simpa using hc), ← ih]
        rfl
      · rw [if_neg hc, List.filter_cons_of_neg (by simpa using hc), ← ih]
        rfl

theorem clearCell_eq {c : ℤ × ℤ} (h : (boxes c.1).isSome) :
    clearCell boxes c = .ok (boxes.mapCells fun c' b =>
      if c' = c ∧ b = some .crate then none else b) := by
  simp only [clearCell, get_eq h, bind, Except.bind]
  by_cases hcrate : boxes.cell c = some .crate
  · rw [if_pos hcrate, set_eq h]
    congr 1
    apply grid_ext
    · simp
    · intro c'
      cases hc' : (boxes c'.1).isSome with
      | false =>
          rw [cell_of_isNone (by simpa using hc'), cell_of_isNone (by simpa using hc')]
      | true =>
          rw [cell_mapCells hc', cell_mapCells hc']
          by_cases heq : c' = c
          · simp [heq, hcrate]
          · simp [heq]
  · rw [if_neg hcrate]
    refine congrArg Except.ok (mapCells_eq_self fun c' => ?_).symm
    refine if_neg ?_
    rintro ⟨rfl, h'⟩
    exact hcrate h'

theorem foldlM_clearCell (h : ∀ c ∈ cs, (boxes c.1).isSome) :
    cs.foldlM clearCell boxes = .ok (boxes.mapCells fun c b =>
      if c ∈ cs ∧ b = some .crate then none else b) := by
  induction cs generalizing boxes with
  | nil =>
      refine congrArg Except.ok (mapCells_eq_self fun c => ?_).symm
      simp
  | cons c cs ih =>
      obtain ⟨hc, hcs⟩ := List.forall_mem_cons.mp h
      rw [List.foldlM_cons, clearCell_eq hc]
      have hcs' : ∀ c' ∈ cs, (boxes.mapCells (fun c' b =>
          if c' = c ∧ b = some .crate then none else b) c'.1).isSome := by simpa using hcs
      refine (ih hcs').trans ?_
      rw [mapCells_mapCells]
      congr 2
      funext c' b
      grind

theorem putCrates_packed (h : ∀ c ∈ cs, (boxes c.1).isSome) :
    putCrates (packed cs F) boxes = .ok (boxes.mapCells fun c b =>
      if c ∈ cs ∧ c ∈ F then some .crate else b) := by
  induction cs generalizing boxes with
  | nil =>
      refine congrArg Except.ok (mapCells_eq_self fun c => ?_).symm
      simp
  | cons c cs ih =>
      obtain ⟨hc, hcs⟩ := List.forall_mem_cons.mp h
      rw [packed_cons]
      by_cases hF : c ∈ F
      · rw [if_pos hF]
        simp only [List.cons_append, List.nil_append, putCrates, set_eq hc]
        refine (ih (by simpa using hcs)).trans ?_
        rw [mapCells_mapCells]
        congr 2
        funext c' b
        grind
      · rw [if_neg hF, List.nil_append, ih hcs]
        congr 2
        funext c' b
        grind

end Packed

/-! ## States -/

section States

variable {g : Game}

def Game.IsWall (g : Game) (c : ℤ × ℤ) : Prop := g.boxes.cell c = some .wall

def Game.IsCrate (g : Game) (c : ℤ × ℤ) : Prop := g.boxes.cell c = some .crate

/-- The crates in the cells that are visited. -/
def Game.crates (g : Game) : Finset (ℤ × ℤ) :=
  g.cells.toFinset.filter fun c => g.boxes.cell c = some .crate

/-- Each cell that is visited is in a column, and each crate in such a cell. -/
structure Game.Laid (g : Game) : Prop where
  boxes : ∀ c ∈ g.cells, (g.boxes c.1).isSome
  tiles : ∀ c ∈ g.cells, (g.tiles c.1).isSome
  crates : ∀ c, g.IsCrate c → c ∈ g.cells

theorem mem_cells_iff {c : ℤ × ℤ} :
    c ∈ g.cells ↔ (1 ≤ c.1 ∧ c.1 ≤ g.sizex) ∧ 1 ≤ c.2 ∧ c.2 ≤ g.sizey := by
  simp only [Game.cells, List.mem_map, Prod.exists, List.pair_mem_product,
    List.mem_range'_1]
  constructor
  · rintro ⟨x, y, hxy, rfl⟩
    simp only
    omega
  · intro h
    refine ⟨c.1.toNat, c.2.toNat, by omega, Prod.ext ?_ ?_⟩
    · exact Int.toNat_of_nonneg (by omega)
    · exact Int.toNat_of_nonneg (by omega)

theorem mem_crates_iff (hlaid : g.Laid) {c : ℤ × ℤ} : c ∈ g.crates ↔ g.IsCrate c := by
  rw [Game.crates, Finset.mem_filter, List.mem_toFinset]
  exact ⟨And.right, fun h => ⟨hlaid.crates c h, h⟩⟩

/-- The state of a game. -/
def Game.state (g : Game) : State := ⟨packed g.cells g.crates, g.pl.1, g.pl.2⟩

/-- What a state stands for. -/
def State.scene (s : State) : Scene (ℤ × ℤ) := ⟨(s.x, s.y), (pairs s.crates).toFinset⟩

theorem scene_state (g : Game) : g.state.scene = ⟨g.pl, g.crates⟩ := by
  simp only [State.scene, Game.state, pairs_packed]
  congr 1
  ext c
  rw [List.mem_toFinset, List.mem_filter, decide_eq_true_iff]
  refine ⟨And.right, fun hc => ⟨?_, hc⟩⟩
  exact List.mem_toFinset.mp (Finset.mem_of_mem_filter c hc)

theorem packCrates_eq (hcolumns : ∀ c ∈ g.cells, (g.boxes c.1).isSome) :
    g.packCrates = .ok (packed g.cells g.crates) := by
  have hcell : ∀ c ∈ g.cells, (do
      let box ← g.boxes.get c.1 c.2
      return if box = some Box.crate then [c.1, c.2] else [] : Except Error (List ℤ)) =
        .ok (if c ∈ g.crates then [c.1, c.2] else []) := by
    intro c hc
    have hmem : c ∈ g.crates ↔ g.boxes.cell c = some .crate := by
      simp [Game.crates, hc]
    rw [get_eq (hcolumns c hc)]
    simp only [hmem]
    rfl
  rw [Game.packCrates, mapM_eq_ok hcell]
  rfl

theorem getState_eq (hcolumns : ∀ c ∈ g.cells, (g.boxes c.1).isSome) :
    g.getState = .ok g.state := by
  rw [Game.getState, packCrates_eq hcolumns]
  rfl

theorem pushState_eq (hcolumns : ∀ c ∈ g.cells, (g.boxes c.1).isSome) :
    g.pushState = .ok { g with undoStack := g.undoStack ++ [g.state], redoStack := [] } := by
  rw [Game.pushState, getState_eq hcolumns]
  rfl

/-- The boxes when the crates in the grid are others. -/
def Game.boxesWith (g : Game) (F : Finset (ℤ × ℤ)) : Grid Box :=
  g.boxes.mapCells fun c b =>
    if c ∈ g.cells.toFinset ∩ F then some .crate
    else if c ∈ g.cells.toFinset ∧ b = some .crate then none else b

@[simp] theorem isSome_boxesWith (F : Finset (ℤ × ℤ)) (x : ℤ) :
    (g.boxesWith F x).isSome = (g.boxes x).isSome := by
  simp [Game.boxesWith]

theorem cell_boxesWith (hcolumns : ∀ c ∈ g.cells, (g.boxes c.1).isSome)
    (F : Finset (ℤ × ℤ)) (c : ℤ × ℤ) :
    (g.boxesWith F).cell c =
      if c ∈ g.cells ∧ c ∈ F then some .crate
      else if c ∈ g.cells ∧ g.boxes.cell c = some .crate then none
      else g.boxes.cell c := by
  cases hc : (g.boxes c.1).isSome with
  | true =>
      rw [Game.boxesWith, cell_mapCells hc]
      simp only [Finset.mem_inter, List.mem_toFinset]
  | false =>
      have hnot : c ∉ g.cells := fun hmem => by simp [hcolumns c hmem] at hc
      rw [if_neg fun hmem => hnot hmem.1, if_neg fun hmem => hnot hmem.1,
        cell_of_isNone hc]
      exact cell_of_isNone (by simpa using hc)

/-- A state that is set replaces the crates in the grid. -/
theorem setState_eq (hcolumns : ∀ c ∈ g.cells, (g.boxes c.1).isSome) {s : State}
    {F : Finset (ℤ × ℤ)} (hs : s.crates = packed g.cells F) :
    g.setState s =
      .ok { g with boxes := g.boxesWith F, pl := (s.x, s.y), changed := true } := by
  have hcleared : ∀ c ∈ g.cells, (g.boxes.mapCells (fun c b =>
      if c ∈ g.cells ∧ b = some .crate then none else b) c.1).isSome := by
    simpa using hcolumns
  have hput := putCrates_packed (F := F) hcleared
  rw [Game.setState, Game.unpackCrates, foldlM_clearCell hcolumns, hs]
  simp only [bind, Except.bind, hput, mapCells_mapCells, Game.boxesWith, Finset.mem_inter,
    List.mem_toFinset]
  rfl

/-- A state as `getState` makes it, for a level. -/
structure State.Packed (g : Game) (s : State) : Prop where
  crates : s.crates = packed g.cells s.scene.crates
  inside : ∀ c ∈ s.scene.crates, c ∈ g.cells

theorem state_packed (g : Game) : g.state.Packed g where
  crates := by
    rw [scene_state]
    rfl
  inside c hc := by
    rw [scene_state] at hc
    exact List.mem_toFinset.mp (Finset.mem_of_mem_filter c hc)

end States

end LuaAttic.Sokoban
