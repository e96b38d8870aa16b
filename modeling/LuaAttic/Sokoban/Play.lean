import Mathlib
import LuaAttic.Sokoban.Boxes
import LuaAttic.Support.History

/-!
# Playing

A command does to the stacks and the boxes what undo, redo and a legal move do
to a history of scenes.
-/

namespace LuaAttic.Sokoban

open LuaAttic.Lua LuaAttic.Support

/-- The next cell in a direction. -/
def go (d : Dir) (c : ℤ × ℤ) : ℤ × ℤ := (c.1 + d.delta.1, c.2 + d.delta.2)

theorem go_ne (d : Dir) (c : ℤ × ℤ) : go d c ≠ c := by
  intro h
  rw [go, Prod.ext_iff] at h
  cases d <;> simp [Dir.delta] at h

/-- The walls of a level. -/
def Game.walls (g : Game) : Set (ℤ × ℤ) := {c | g.IsWall c}

/-- The cells to which the player can come without passing a wall are in the
grid. -/
def Game.Enclosed (g : Game) : Prop := ∀ c, Reach go g.walls g.pl c → c ∈ g.cells

/-- What does not change from the level on. -/
structure Playing (g₀ g : Game) : Prop where
  laid : g.Laid
  sizex : g.sizex = g₀.sizex
  sizey : g.sizey = g₀.sizey
  crateCount : g.crateCount = g₀.crateCount
  columns : ∀ x, (g.boxes x).isSome = (g₀.boxes x).isSome
  walls : ∀ c, g.IsWall c ↔ g₀.IsWall c

/-- A state that can be come to. -/
structure Good (g₀ : Game) (s : State) : Prop where
  isPacked : s.Packed g₀
  valid : s.scene.Valid g₀.walls
  within : s.scene.Within go g₀.walls g₀.pl {c | c ∈ g₀.cells}
  card : s.scene.crates.card = g₀.crateCount

section Playing

variable {g₀ g g' : Game}

theorem Playing.cells (h : Playing g₀ g) : g.cells = g₀.cells := by
  rw [Game.cells, h.sizex, h.sizey, Game.cells]

/-- The boxes follow from the scene. -/
theorem boxes_eq (h : Playing g₀ g) (h' : Playing g₀ g')
    (hscene : g.state.scene = g'.state.scene) : g.boxes = g'.boxes ∧ g.pl = g'.pl := by
  rw [scene_state, scene_state, Scene.mk.injEq] at hscene
  refine ⟨grid_ext (fun x => (h.columns x).trans (h'.columns x).symm) fun c => ?_, hscene.1⟩
  have hcrate : g.IsCrate c ↔ g'.IsCrate c := by
    rw [← mem_crates_iff h.laid, ← mem_crates_iff h'.laid, hscene.2]
  have hwall : g.IsWall c ↔ g'.IsWall c := (h.walls c).trans (h'.walls c).symm
  simp only [Game.IsCrate, Game.IsWall] at hcrate hwall
  cases hc : g.boxes.cell c with
  | none =>
      cases hc' : g'.boxes.cell c with
      | none => rfl
      | some b => cases b <;> simp_all
  | some b => cases b <;> simp_all

/-! ## Setting a state -/

theorem setState_ok {s : State} (h : Playing g₀ g) (hs : s.Packed g₀)
    (hvalid : s.scene.Valid g₀.walls) :
    ∃ g', g.setState s = .ok g' ∧ Playing g₀ g' ∧ g'.state = s ∧
      g'.undoStack = g.undoStack ∧ g'.redoStack = g.redoStack := by
  have hcolumns : ∀ c ∈ g.cells, (g.boxes c.1).isSome := h.laid.boxes
  let g' : Game :=
    { g with boxes := g.boxesWith s.scene.crates, pl := (s.x, s.y), changed := true }
  have hset : g.setState s = .ok g' := setState_eq hcolumns (by rw [h.cells, hs.crates])
  have hcell := cell_boxesWith hcolumns s.scene.crates
  have hcrate : ∀ c, g'.IsCrate c ↔ c ∈ s.scene.crates := by
    intro c
    change (g.boxesWith s.scene.crates).cell c = some .crate ↔ _
    rw [hcell]
    have hinside : c ∈ s.scene.crates → c ∈ g.cells := h.cells ▸ hs.inside c
    have hold : g.boxes.cell c = some .crate → c ∈ g.cells := h.laid.crates c
    grind
  have hwall : ∀ c, g'.IsWall c ↔ g.IsWall c := by
    intro c
    change (g.boxesWith s.scene.crates).cell c = some .wall ↔ g.boxes.cell c = some .wall
    rw [hcell]
    have hnot : c ∈ s.scene.crates → ¬ g.boxes.cell c = some .wall := fun hmem hc =>
      hvalid.crate_wall c hmem ((h.walls c).mp hc)
    grind
  have hlaid : g'.Laid := by
    refine ⟨fun c hc => ?_, h.laid.tiles, fun c hc => ?_⟩
    · exact (isSome_boxesWith s.scene.crates c.1).trans (hcolumns c hc)
    · exact h.cells.symm ▸ hs.inside c ((hcrate c).mp hc)
  have hplaying : Playing g₀ g' := by
    refine ⟨hlaid, h.sizex, h.sizey, h.crateCount, fun x => ?_, fun c => ?_⟩
    · rw [← h.columns x]
      exact isSome_boxesWith s.scene.crates x
    · exact (hwall c).trans (h.walls c)
  refine ⟨g', hset, hplaying, ?_, rfl, rfl⟩
  have hcrates : g'.crates = s.scene.crates := by
    ext c
    rw [mem_crates_iff hlaid, hcrate]
  rw [Game.state, hcrates, hplaying.cells, ← hs.crates]

/-! ## Undo and redo -/

/-- The stacks and the state between them. -/
def Game.history (g : Game) : History State :=
  ⟨g.undoStack.reverse, g.state, g.redoStack.reverse⟩

theorem line_history (g : Game) :
    g.history.line = g.undoStack ++ g.state :: g.redoStack.reverse := by
  rw [History.line, Game.history, List.reverse_reverse]

/-- Another state is set, with other stacks. -/
theorem restore_ok {s : State} (h : Playing g₀ g) (hs : Good g₀ s) (U R : List State) :
    ∃ g', (do
        let g' ← { g with undoStack := U, redoStack := R }.setState s
        return g'.moved) = Except.ok (ε := Error) g' ∧
      Playing g₀ g' ∧ g'.history = ⟨U.reverse, s, R.reverse⟩ := by
  have hplaying : Playing g₀ { g with undoStack := U, redoStack := R } :=
    ⟨⟨h.laid.boxes, h.laid.tiles, h.laid.crates⟩, h.sizex, h.sizey, h.crateCount,
      h.columns, h.walls⟩
  obtain ⟨g', hset, hg', hstate, hundo, hredo⟩ := setState_ok hplaying hs.isPacked hs.valid
  refine ⟨g'.moved, ?_, ?_, ?_⟩
  · rw [hset]
    rfl
  · exact ⟨⟨hg'.laid.boxes, hg'.laid.tiles, hg'.laid.crates⟩, hg'.sizex, hg'.sizey,
      hg'.crateCount, hg'.columns, hg'.walls⟩
  · change (⟨g'.undoStack.reverse, g'.state, g'.redoStack.reverse⟩ : History State) = _
    rw [hundo, hstate, hredo]

theorem undo_ok (h : Playing g₀ g) (hgood : ∀ s ∈ g.history.line, Good g₀ s) :
    ∃ g', g.undo = .ok g' ∧ Playing g₀ g' ∧ g'.history = g.history.undo := by
  rcases List.eq_nil_or_concat g.undoStack with hnil | ⟨U, s, hU⟩
  · refine ⟨g, ?_, h, ?_⟩
    · rw [Game.undo, hnil]
      rfl
    · simp [History.undo, Game.history, hnil]
  · have hs : Good g₀ s := hgood s (by simp [line_history, hU])
    obtain ⟨g', hset, hg', hhistory⟩ := restore_ok h hs U (g.redoStack ++ [g.state])
    refine ⟨g', ?_, hg', ?_⟩
    · rw [← hset, Game.undo, hU, List.concat_eq_append, List.getLast?_concat,
        List.dropLast_concat, getState_eq h.laid.boxes]
      rfl
    · have hpast : g.history.past = s :: U.reverse := by simp [Game.history, hU]
      rw [hhistory, History.undo_of_past hpast, List.reverse_append]
      rfl

theorem redo_ok (h : Playing g₀ g) (hgood : ∀ s ∈ g.history.line, Good g₀ s) :
    ∃ g', g.redo = .ok g' ∧ Playing g₀ g' ∧ g'.history = g.history.redo := by
  rcases List.eq_nil_or_concat g.redoStack with hnil | ⟨R, s, hR⟩
  · refine ⟨g, ?_, h, ?_⟩
    · rw [Game.redo, hnil]
      rfl
    · simp [History.redo, Game.history, hnil]
  · have hs : Good g₀ s := hgood s (by simp [line_history, hR])
    obtain ⟨g', hset, hg', hhistory⟩ := restore_ok h hs (g.undoStack ++ [g.state]) R
    refine ⟨g', ?_, hg', ?_⟩
    · rw [← hset, Game.redo, hR, List.concat_eq_append, List.getLast?_concat,
        List.dropLast_concat, getState_eq h.laid.boxes]
      rfl
    · have hfuture : g.history.future = s :: R.reverse := by simp [Game.history, hR]
      rw [hhistory, History.redo_of_future hfuture, List.reverse_append]
      rfl

/-! ## Moves -/

/-- What a move can do: nothing, or a step that is kept on the stack. -/
def MoveResult (g₀ g g' : Game) : Prop :=
  g' = g ∨ Playing g₀ g' ∧ g'.pl ≠ g.pl ∧ g'.history = g.history.advance g'.state ∧
    Legal go g₀.walls g.state.scene g'.state.scene

theorem history_of_pushed (hundo : g'.undoStack = g.undoStack ++ [g.state])
    (hredo : g'.redoStack = []) : g'.history = g.history.advance g'.state := by
  simp [Game.history, History.advance, hundo, hredo]

/-- The player goes to a free cell. -/
theorem step_ok (h : Playing g₀ g) {d : Dir} (hfree : g.boxes.cell (go d g.pl) = none) :
    MoveResult g₀ g { g with
      undoStack := g.undoStack ++ [g.state], redoStack := [], pl := go d g.pl }.moved := by
  have hwall : go d g.pl ∉ g₀.walls := by
    intro hmem
    have hcell : g.boxes.cell (go d g.pl) = some .wall := (h.walls _).mpr hmem
    rw [hfree] at hcell
    cases hcell
  refine .inr ⟨?_, go_ne d g.pl, ?_, d, ?_⟩
  · exact ⟨⟨h.laid.boxes, h.laid.tiles, h.laid.crates⟩, h.sizex, h.sizey, h.crateCount,
      h.columns, h.walls⟩
  · exact history_of_pushed rfl rfl
  · simp only [scene_state]
    refine ⟨hwall, rfl, .inl ⟨fun hmem => ?_, rfl⟩⟩
    have hcell : g.boxes.cell (go d g.pl) = some .crate := (mem_crates_iff h.laid).mp hmem
    rw [hfree] at hcell
    cases hcell

/-- The player pushes a crate. -/
theorem push_ok (h : Playing g₀ g) {d : Dir} {boxes : Grid Box}
    (hcrate : g.IsCrate (go d g.pl)) (hbehind : go d (go d g.pl) ∈ g.cells)
    (hspace : g.boxes.cell (go d (go d g.pl)) = none)
    (hboxes : boxes = g.boxes.mapCells fun c b =>
      if c = go d (go d g.pl) then some .crate else if c = go d g.pl then none else b) :
    MoveResult g₀ g { g with
      undoStack := g.undoStack ++ [g.state], redoStack := [], pl := go d g.pl,
      boxes := boxes }.moved := by
  have hcell : ∀ c, boxes.cell c =
      if c = go d (go d g.pl) then some .crate
      else if c = go d g.pl then none else g.boxes.cell c := by
    rw [hboxes]
    exact cell_moved (isSome_of_cell hcrate) (h.laid.boxes _ hbehind) Box.crate
  have hwall : ∀ c, boxes.cell c = some .wall ↔ g.IsWall c := by
    intro c
    rw [hcell, Game.IsWall]
    have hfront : g.boxes.cell (go d g.pl) = some .crate := hcrate
    grind
  have hiff : ∀ c, boxes.cell c = some .crate ↔
      c = go d (go d g.pl) ∨ c ≠ go d g.pl ∧ g.IsCrate c := by
    intro c
    rw [hcell, Game.IsCrate]
    grind
  have hcolumns : ∀ x, (boxes x).isSome = (g.boxes x).isSome := by
    intro x
    rw [hboxes, isSome_mapCells]
  let g' : Game := { g with
    undoStack := g.undoStack ++ [g.state], redoStack := [], pl := go d g.pl,
    boxes := boxes }.moved
  have hlaid : g'.Laid := by
    refine ⟨fun c hc => ?_, h.laid.tiles, fun c hc => ?_⟩
    · exact (hcolumns c.1).trans (h.laid.boxes c hc)
    · rcases (hiff c).mp hc with rfl | ⟨-, hold⟩
      · exact hbehind
      · exact h.laid.crates c hold
  have hcrates : g'.crates = insert (go d (go d g.pl)) (g.crates.erase (go d g.pl)) := by
    ext c
    rw [mem_crates_iff hlaid, Finset.mem_insert, Finset.mem_erase, mem_crates_iff h.laid]
    exact hiff c
  refine .inr ⟨?_, go_ne d g.pl, ?_, d, ?_⟩
  · exact ⟨hlaid, h.sizex, h.sizey, h.crateCount,
      fun x => (hcolumns x).trans (h.columns x), fun c => (hwall c).trans (h.walls c)⟩
  · exact history_of_pushed rfl rfl
  · rw [scene_state, scene_state]
    have hnotWall : ∀ c, ¬ g.IsWall c → c ∉ g₀.walls := fun c hc hmem =>
      hc ((h.walls c).mpr hmem)
    refine ⟨hnotWall _ ?_, rfl, .inr ⟨(mem_crates_iff h.laid).mpr hcrate, hnotWall _ ?_,
      ?_, hcrates⟩⟩
    · simp [Game.IsWall, show g.boxes.cell (go d g.pl) = some .crate from hcrate]
    · simp [Game.IsWall, hspace]
    · simp [mem_crates_iff h.laid, Game.IsCrate, hspace]

theorem behind_eq (g : Game) (d : Dir) :
    (if d.delta.1 ≠ 0 then g.pl.1 + d.delta.1 + d.delta.1 else g.pl.1 + d.delta.1) =
        (go d (go d g.pl)).1 ∧
      (if d.delta.2 ≠ 0 then g.pl.2 + d.delta.2 + d.delta.2 else g.pl.2 + d.delta.2) =
        (go d (go d g.pl)).2 := by
  cases d <;> simp [Dir.delta, go]

/-- A crate in front of the player stays, or is pushed into a cell of the grid. -/
theorem move_crate_ok (h : Playing g₀ g) {d : Dir} (hfront : g.IsCrate (go d g.pl))
    (hcolumn : (g.boxes (go d (go d g.pl)).1).isSome)
    (hinside : g.boxes.cell (go d (go d g.pl)) = none → go d (go d g.pl) ∈ g.cells) :
    ∃ g' r, g.move d = .ok (g', r) ∧ MoveResult g₀ g g' := by
  obtain ⟨hx, hy⟩ := behind_eq g d
  have hcell₁ : go d g.pl ∈ g.cells := h.laid.crates _ hfront
  have hget₁ : g.boxes.get (go d g.pl).1 (go d g.pl).2 = .ok (some .crate) := by
    rw [get_eq (h.laid.boxes _ hcell₁), hfront]
  have hget₂ := get_eq hcolumn
  cases hspace : g.boxes.cell (go d (go d g.pl)) with
  | some b =>
      refine ⟨g, none, ?_, .inl rfl⟩
      change (Grid.get g.boxes (go d g.pl).1 (go d g.pl).2 >>= _) = _
      rw [hget₁]
      change (Grid.get g.boxes _ _ >>= _) = _
      rw [hx, hy, hget₂, hspace]
      rfl
  | none =>
      have hcell₂ := hinside hspace
      have hset := set_eq (h.laid.boxes _ hcell₁) (none : Option Box)
      have hset' := set_eq (t := g.boxes.mapCells fun c' b =>
        if c' = go d g.pl then none else b) (c := go d (go d g.pl))
        (by simpa using hcolumn) (some Box.crate)
      rw [mapCells_mapCells] at hset'
      refine ⟨_, some (g.tiles.cell (go d g.pl) ≠ some .place &&
        g.tiles.cell (go d (go d g.pl)) = some .place), ?_,
        push_ok h hfront hcell₂ hspace rfl⟩
      change (Grid.get g.boxes (go d g.pl).1 (go d g.pl).2 >>= _) = _
      rw [hget₁]
      change (Grid.get g.boxes _ _ >>= _) = _
      rw [hx, hy, hget₂, hspace]
      change (Game.pushState g >>= _) = _
      rw [pushState_eq h.laid.boxes]
      change (Grid.set g.boxes (go d g.pl).1 (go d g.pl).2 none >>= _) = _
      rw [hset]
      change (Grid.set _ (go d (go d g.pl)).1 (go d (go d g.pl)).2 _ >>= _) = _
      rw [hset']
      change (Grid.get g.tiles (go d (go d g.pl)).1 (go d (go d g.pl)).2 >>= _) = _
      rw [get_eq (h.laid.tiles _ hcell₂)]
      change (Grid.get g.tiles (go d g.pl).1 (go d g.pl).2 >>= _) = _
      rw [get_eq (h.laid.tiles _ hcell₁)]
      rfl

/-- A move returns, as the player cannot come to the border of the grid. -/
theorem move_ok (h : Playing g₀ g) (henclosed : g₀.Enclosed)
    (hreach : Reach go g₀.walls g₀.pl g.pl) (d : Dir) :
    ∃ g' r, g.move d = .ok (g', r) ∧ MoveResult g₀ g g' := by
  have hstep : ∀ c, Reach go g₀.walls g₀.pl c → ¬ g.IsWall (go d c) →
      Reach go g₀.walls g₀.pl (go d c) := fun c hc hwall =>
    hc.tail ⟨⟨d, rfl⟩, fun hmem => hwall ((h.walls _).mpr hmem)⟩
  have hinside : ∀ c, Reach go g₀.walls g₀.pl c → ¬ g.IsWall (go d c) → go d c ∈ g.cells :=
    fun c hc hwall => h.cells.symm ▸ henclosed _ (hstep c hc hwall)
  have hcolumn : ∀ c, Reach go g₀.walls g₀.pl c → (g.boxes (go d c).1).isSome := by
    intro c hc
    by_cases hwall : g.IsWall (go d c)
    · exact isSome_of_cell hwall
    · exact h.laid.boxes _ (hinside c hc hwall)
  have hget := get_eq (hcolumn g.pl hreach)
  cases hfront : g.boxes.cell (go d g.pl) with
  | none =>
      refine ⟨_, none, ?_, step_ok h hfront⟩
      change (Grid.get g.boxes (go d g.pl).1 (go d g.pl).2 >>= _) = _
      rw [hget, hfront]
      change (Game.pushState g >>= _) = _
      rw [pushState_eq h.laid.boxes]
      rfl
  | some b =>
      cases b with
      | wall =>
          refine ⟨g, none, ?_, .inl rfl⟩
          change (Grid.get g.boxes (go d g.pl).1 (go d g.pl).2 >>= _) = _
          rw [hget, hfront]
          rfl
      | crate =>
          have hfree : ¬ g.IsWall (go d g.pl) := by simp [Game.IsWall, hfront]
          have hnext := hstep g.pl hreach hfree
          refine move_crate_ok h hfront (hcolumn _ hnext) fun hspace => ?_
          refine hinside _ hnext ?_
          simp [Game.IsWall, hspace]

end Playing

end LuaAttic.Sokoban
