import Mathlib
import LuaAttic.Sokoban.Loading

/-!
# The rules and the history of a game

In each game that is come to from a level, whatever was done, the rules hold and
the states on the stacks are the moves that were made.
-/

namespace LuaAttic.Sokoban

open LuaAttic.Lua LuaAttic.Support

/-! ## A level that has been loaded -/

section Levels

variable {levels : List Bytes} {wanted : ℤ} {g₀ : Game}

/-- How a level that was accepted has been loaded. -/
theorem loadLevel_run (h : loadLevel levels wanted = .ok g₀) :
    ∃ lines l, levelTiles levels g₀.level = .ok (tilesOf lines) ∧
      (tilesOf lines).foldlM (fun l t => l.tile t.1 t.2.1 t.2.2) ({} : Loading) = .ok l ∧
      l.pl = some g₀.pl ∧
      g₀ = { level := g₀.level, sizex := l.sizex, sizey := l.sizey, tiles := l.tiles,
             crateCount := l.crateCount, boxes := l.boxes, pl := g₀.pl, changed := true } := by
  unfold loadLevel at h
  obtain ⟨ts, hlevel, h₁⟩ := bind_eq_ok_iff.mp h
  obtain ⟨l, hl, h₂⟩ := bind_eq_ok_iff.mp h₁
  obtain ⟨pl, hpl, h₃⟩ := bind_eq_ok_iff.mp h₂
  have hlines := hlevel
  obtain ⟨s, -, hts⟩ := bind_eq_ok_iff.mp hlines
  obtain ⟨lines, rfl⟩ : ∃ lines, ts = tilesOf lines := ⟨_, (Except.ok.inj hts).symm⟩
  have hplayer : l.pl = some pl := by
    cases hp : l.pl with
    | none =>
        rw [hp] at hpl
        cases hpl
    | some p =>
        rw [hp] at hpl
        rw [Except.ok.inj hpl]
  split at h₃
  · cases h₃
  · obtain rfl := Except.ok.inj h₃
    exact ⟨lines, l, hlevel, hl, hplayer, rfl⟩

theorem loaded_tilesOf {lines : List Bytes} {l : Loading}
    (h : (tilesOf lines).foldlM (fun l t => l.tile t.1 t.2.1 t.2.2) ({} : Loading) = .ok l) :
    Loaded (tilesOf lines) l := by
  refine foldlM_loaded (fun t ht => ?_) (pairwise_tilesOf lines) h
  obtain ⟨y, x, line, -, -, h1, -⟩ := mem_tilesOf_iff.mp ht
  omega

/-- A level that was accepted, with its tiles. -/
theorem loadLevel_cases (h : loadLevel levels wanted = .ok g₀) :
    ∃ lines l, Loaded (tilesOf lines) l ∧ l.pl = some g₀.pl ∧
      l.sizex = g₀.sizex ∧ l.sizey = g₀.sizey ∧ l.boxes = g₀.boxes ∧
      l.tiles = g₀.tiles ∧ l.crateCount = g₀.crateCount ∧
      g₀.undoStack = [] ∧ g₀.redoStack = [] := by
  obtain ⟨lines, l, -, hl, hplayer, hg₀⟩ := loadLevel_run h
  refine ⟨lines, l, loaded_tilesOf hl, hplayer, ?_⟩
  rw [hg₀]
  exact ⟨rfl, rfl, rfl, rfl, rfl, rfl, rfl⟩

theorem place_inj {lines : List Bytes} {t t' : ℤ × ℤ × UInt8} (ht : t ∈ tilesOf lines)
    (ht' : t' ∈ tilesOf lines) (h : place t = place t') : t = t' := by
  have hnodup : ((tilesOf lines).map place).Nodup :=
    List.pairwise_map.mpr (pairwise_tilesOf lines)
  exact List.inj_on_of_nodup_map hnodup ht ht' h

/-- The level itself is a game that can be played. -/
theorem loadLevel_good (h : loadLevel levels wanted = .ok g₀) :
    Playing g₀ g₀ ∧ Good g₀ g₀.state := by
  obtain ⟨lines, l, hl, hplayer, hsizex, hsizey, hboxes, htiles, hcount, -, -⟩ :=
    loadLevel_cases h
  have hcolumn : ∀ c ∈ g₀.cells, ∃ t ∈ tilesOf lines, t.1 = c.1 := by
    intro c hc
    obtain ⟨⟨h1, hle⟩, -⟩ := mem_cells_iff.mp hc
    rcases hl.widest with hzero | ⟨t, ht, hwide⟩
    · omega
    · exact exists_tile_before ht h1 (by omega)
  have hcell : ∀ c b, g₀.boxes.cell c = some b ↔
      ∃ t ∈ tilesOf lines, place t = c ∧ boxOf t.2.2 = some b := hboxes ▸ hl.cell
  have hlaid : g₀.Laid := by
    refine ⟨fun c hc => ?_, fun c hc => ?_, fun c hc => ?_⟩
    · rw [← hboxes]
      exact (hl.boxes c.1).mpr (hcolumn c hc)
    · rw [← htiles]
      exact (hl.tiles c.1).mpr (hcolumn c hc)
    · obtain ⟨t, ht, rfl, -⟩ := (hcell c .crate).mp hc
      obtain ⟨y, x, line, -, -, h1, h2⟩ := mem_tilesOf_iff.mp ht
      obtain ⟨hx, hy⟩ := hl.inside t ht
      refine mem_cells_iff.mpr ?_
      simp only [place]
      omega
  have hfree : g₀.boxes.cell g₀.pl = none := by
    obtain ⟨t, ht, hplace, hc⟩ := hl.player _ hplayer
    cases hbox : g₀.boxes.cell g₀.pl with
    | none => rfl
    | some b =>
        obtain ⟨t', ht', hplace', hb⟩ := (hcell _ b).mp hbox
        obtain rfl := place_inj ht ht' (hplace.trans hplace'.symm)
        rcases hc with hc | hc <;> (rw [hc] at hb; cases hb)
  have hcard : g₀.crates.card = g₀.crateCount := by
    have hnodup : (((tilesOf lines).filter fun t => t.2.2 = 35).map place).Nodup := by
      refine List.pairwise_map.mpr ?_
      exact (pairwise_tilesOf lines).sublist List.filter_sublist
    have hcrates : g₀.crates =
        (((tilesOf lines).filter fun t => t.2.2 = 35).map place).toFinset := by
      ext c
      rw [mem_crates_iff hlaid, Game.IsCrate, hcell]
      simp only [List.mem_toFinset, List.mem_map, List.mem_filter, decide_eq_true_eq]
      have hbox : ∀ b : UInt8, boxOf b = some .crate ↔ b = 35 := by
        intro b
        unfold boxOf
        split
        · next hb => simp [hb]
        · split <;> simp [*]
      simp only [hbox]
      constructor
      · rintro ⟨t, ht, hplace, hc⟩
        exact ⟨t, ⟨ht, hc⟩, hplace⟩
      · rintro ⟨t, ⟨ht, hc⟩, hplace⟩
        exact ⟨t, ht, hplace, hc⟩
    rw [hcrates, List.toFinset_card_of_nodup hnodup, List.length_map, ← hcount, hl.crates]
  refine ⟨⟨hlaid, rfl, rfl, rfl, fun _ => rfl, fun _ => Iff.rfl⟩,
    ⟨state_packed g₀, ?_, ?_, ?_⟩⟩
  · rw [scene_state]
    refine ⟨?_, fun hmem => ?_, fun c hc hwall => ?_⟩
    · change ¬ g₀.boxes.cell g₀.pl = some .wall
      simp [hfree]
    · have hcrate : g₀.boxes.cell g₀.pl = some .crate := (mem_crates_iff hlaid).mp hmem
      rw [hfree] at hcrate
      cases hcrate
    · have hcrate : g₀.boxes.cell c = some .crate := (mem_crates_iff hlaid).mp hc
      cases hcrate.symm.trans hwall
  · rw [scene_state]
    exact ⟨.refl, fun c hc => hlaid.crates c ((mem_crates_iff hlaid).mp hc)⟩
  · rw [scene_state]
    exact hcard

end Levels

/-! ## All games that can be come to -/

section Reachable

variable {g₀ g g' : Game}

/-- What holds in each game that is come to. -/
structure Sound (g₀ g : Game) : Prop where
  playing : Playing g₀ g
  good : ∀ s ∈ g.history.line, Good g₀ s
  chain : g.history.line.IsChain fun s s' => Legal go g₀.walls s.scene s'.scene

theorem Sound.current (h : Sound g₀ g) : Good g₀ g.state :=
  h.good _ (History.present_mem_line _)

/-- The player has come to where it is. -/
theorem Sound.reach (h : Sound g₀ g) : Reach go g₀.walls g₀.pl g.pl := by
  have hreach := h.current.within.player
  rwa [scene_state] at hreach

theorem Sound.of_line (h : Sound g₀ g) (hplaying : Playing g₀ g')
    (hline : g'.history.line = g.history.line) : Sound g₀ g' where
  playing := hplaying
  good := hline ▸ h.good
  chain := hline ▸ h.chain

theorem Good.legal {s s' : State} (henclosed : g₀.Enclosed) (hs : Good g₀ s)
    (hs' : s'.Packed g₀) (hlegal : Legal go g₀.walls s.scene s'.scene) : Good g₀ s' where
  isPacked := hs'
  valid := hlegal.valid hs.valid
  within := hlegal.within henclosed hs.within
  card := hlegal.card_crates.trans hs.card

theorem Sound.of_moveResult (henclosed : g₀.Enclosed) (h : Sound g₀ g)
    (hmove : MoveResult g₀ g g') : Sound g₀ g' := by
  rcases hmove with rfl | ⟨hplaying, -, hhistory, hlegal⟩
  · exact h
  · have hpacked : g'.state.Packed g₀ := by
      obtain ⟨hcrates, hinside⟩ := state_packed g'
      rw [hplaying.cells] at hcrates
      exact ⟨hcrates, fun c hc => hplaying.cells ▸ hinside c hc⟩
    refine ⟨hplaying, ?_, ?_⟩
    · rw [hhistory]
      exact History.forall_line_advance h.good (h.current.legal henclosed hpacked hlegal)
    · rw [hhistory]
      exact History.isChain_line_advance h.chain hlegal

theorem Sound.exec (henclosed : g₀.Enclosed) (h : Sound g₀ g) (command : Command) :
    ∃ g', g.exec command = .ok g' ∧ Sound g₀ g' := by
  cases command with
  | move d =>
      obtain ⟨g', r, hmove, hresult⟩ := move_ok h.playing henclosed h.reach d
      exact ⟨g', by rw [Game.exec, hmove]; rfl, h.of_moveResult henclosed hresult⟩
  | undo =>
      obtain ⟨g', hundo, hplaying, hhistory⟩ := undo_ok h.playing h.good
      exact ⟨g', hundo, h.of_line hplaying (by rw [hhistory, History.line_undo])⟩
  | redo =>
      obtain ⟨g', hredo, hplaying, hhistory⟩ := redo_ok h.playing h.good
      exact ⟨g', hredo, h.of_line hplaying (by rw [hhistory, History.line_redo])⟩

theorem Sound.run (henclosed : g₀.Enclosed) (h : Sound g₀ g) (commands : List Command) :
    ∃ g', g.run commands = .ok g' ∧ Sound g₀ g' := by
  induction commands generalizing g with
  | nil => exact ⟨g, rfl, h⟩
  | cons command commands ih =>
      obtain ⟨g₁, hexec, h₁⟩ := h.exec henclosed command
      obtain ⟨g₂, hrun, h₂⟩ := ih h₁
      refine ⟨g₂, ?_, h₂⟩
      rw [Game.run, List.foldlM_cons, hexec]
      exact hrun

theorem loadLevel_sound {levels : List Bytes} {wanted : ℤ}
    (h : loadLevel levels wanted = .ok g₀) : Sound g₀ g₀ := by
  obtain ⟨hplaying, hgood⟩ := loadLevel_good h
  obtain ⟨-, -, -, -, -, -, -, -, -, hundo, hredo⟩ := loadLevel_cases h
  have hline : g₀.history.line = [g₀.state] := by simp [line_history, hundo, hredo]
  refine ⟨hplaying, ?_, ?_⟩
  · rw [hline]
    exact List.forall_mem_singleton.mpr hgood
  · rw [hline]
    exact List.isChain_singleton _

/-! ## Undoing a move and redoing what was undone -/

/-- The same place of the player, and the same boxes. -/
def SamePlace (g g' : Game) : Prop := g'.pl = g.pl ∧ g'.boxes = g.boxes

theorem samePlace_of_present (h : Playing g₀ g) (h' : Playing g₀ g')
    (hpresent : g'.history.present = g.history.present) : SamePlace g g' := by
  obtain ⟨hboxes, hpl⟩ := boxes_eq h' h (congrArg State.scene hpresent)
  exact ⟨hpl, hboxes⟩

theorem undo_move (henclosed : g₀.Enclosed) (h : Sound g₀ g) (d : Dir) :
    ∃ g' r, g.move d = .ok (g', r) ∧
      (g'.pl ≠ g.pl → ∃ g'', g'.undo = .ok g'' ∧ SamePlace g g'') := by
  obtain ⟨g', r, hmove, hresult⟩ := move_ok h.playing henclosed h.reach d
  refine ⟨g', r, hmove, fun hmoved => ?_⟩
  have h' := h.of_moveResult henclosed hresult
  rcases hresult with rfl | ⟨-, -, hhistory, -⟩
  · exact absurd rfl hmoved
  · obtain ⟨g'', hundo, hplaying, hback⟩ := undo_ok h'.playing h'.good
    refine ⟨g'', hundo, samePlace_of_present h.playing hplaying ?_⟩
    rw [hback, hhistory]
    rfl

theorem redo_undo (h : Sound g₀ g) :
    ∃ g', g.undo = .ok g' ∧
      (g.undoStack ≠ [] → ∃ g'', g'.redo = .ok g'' ∧ SamePlace g g'') := by
  obtain ⟨g', hundo, hplaying, hback⟩ := undo_ok h.playing h.good
  have h' := h.of_line hplaying (by rw [hback, History.line_undo])
  refine ⟨g', hundo, fun hne => ?_⟩
  obtain ⟨g'', hredo, hplaying', hforth⟩ := redo_ok h'.playing h'.good
  refine ⟨g'', hredo, samePlace_of_present h.playing hplaying' ?_⟩
  rw [hforth, hback, History.redo_undo]
  exact fun hnil => hne (List.reverse_eq_nil_iff.mp hnil)

end Reachable

/-! ## The rules -/

/-- The rules, in terms of the boxes and of the walls of the level. -/
structure Rules (g₀ g : Game) : Prop where
  player_wall : ¬ g₀.IsWall g.pl ∧ ¬ g.IsWall g.pl
  crate_wall : ∀ c, g.IsCrate c → ¬ g₀.IsWall c
  player_crate : ¬ g.IsCrate g.pl
  count : {c | g.IsCrate c}.ncard = g₀.crateCount ∧ {c | g₀.IsCrate c}.ncard = g₀.crateCount

theorem Sound.ncard_crates {g₀ g : Game} (h : Sound g₀ g) :
    {c | g.IsCrate c}.ncard = g₀.crateCount := by
  have hset : {c | g.IsCrate c} = (g.crates : Set (ℤ × ℤ)) := by
    ext c
    exact (mem_crates_iff h.playing.laid).symm
  have hcard := h.current.card
  rw [scene_state] at hcard
  rw [hset, Set.ncard_coe_finset, hcard]

theorem Sound.rules {g₀ g : Game} (h₀ : Sound g₀ g₀) (h : Sound g₀ g) : Rules g₀ g := by
  have hvalid := h.current.valid
  rw [scene_state] at hvalid
  refine ⟨⟨hvalid.player_wall, fun hwall => ?_⟩, fun c hc => ?_, fun hcrate => ?_,
    h.ncard_crates, h₀.ncard_crates⟩
  · exact hvalid.player_wall ((h.playing.walls _).mp hwall)
  · exact hvalid.crate_wall c ((mem_crates_iff h.playing.laid).mpr hc)
  · exact hvalid.player_crate ((mem_crates_iff h.playing.laid).mpr hcrate)

/-- After any commands the rules hold, the stacks and the state between them are
a chain of legal moves, and undo and redo restore what they should. -/
theorem history_and_rules {levels : List Bytes} {wanted : ℤ} {g₀ : Game}
    (hload : loadLevel levels wanted = .ok g₀) (henclosed : g₀.Enclosed)
    (commands : List Command) :
    ∃ g, g₀.run commands = .ok g ∧ Rules g₀ g ∧
      (∃ s, g.getState = .ok s ∧ s.scene.player = g.pl ∧
        (∀ c, c ∈ s.scene.crates ↔ g.IsCrate c) ∧
        (g.undoStack ++ s :: g.redoStack.reverse).IsChain fun s s' =>
          Legal go g₀.walls s.scene s'.scene) ∧
      (∀ d, ∃ g' r, g.move d = .ok (g', r) ∧
        (g'.pl ≠ g.pl → ∃ g'', g'.undo = .ok g'' ∧ SamePlace g g'')) ∧
      ∃ g', g.undo = .ok g' ∧
        (g.undoStack ≠ [] → ∃ g'', g'.redo = .ok g'' ∧ SamePlace g g'') := by
  have h₀ := loadLevel_sound hload
  obtain ⟨g, hrun, h⟩ := h₀.run henclosed commands
  refine ⟨g, hrun, h₀.rules h, ⟨g.state, getState_eq h.playing.laid.boxes, ?_, ?_, ?_⟩,
    undo_move henclosed h, redo_undo h⟩
  · rw [scene_state]
  · intro c
    rw [scene_state]
    exact mem_crates_iff h.playing.laid
  · rw [← line_history]
    exact h.chain

/-- Cells that the player cannot leave. -/
def closedCheck (cs : List (ℤ × ℤ)) (g : Game) : Bool :=
  decide (g.pl ∈ cs) && cs.all fun c => decide (c ∈ g.cells) &&
    [Dir.down, .up, .left, .right].all fun d =>
      decide (go d c ∈ cs) || decide (g.boxes.cell (go d c) = some .wall)

theorem enclosed_of_closedCheck {cs : List (ℤ × ℤ)} {g : Game}
    (h : closedCheck cs g = true) : g.Enclosed := by
  simp only [closedCheck, Bool.and_eq_true, List.all_eq_true, decide_eq_true_eq,
    Bool.or_eq_true] at h
  obtain ⟨hpl, hcs⟩ := h
  intro c hreach
  suffices hmem : c ∈ cs from (hcs c hmem).1
  induction hreach with
  | refl => exact hpl
  | @tail c c' _ hstep ih =>
      obtain ⟨⟨d, rfl⟩, hwall⟩ := hstep
      exact ((hcs c ih).2 d (by cases d <;> decide)).resolve_right hwall

/-- A crate and its place, between walls. -/
def oneCrate : Bytes := lit "*****\n*x#O*\n*****\n"

theorem oneCrate_rules :
    ∃ g₀ g, loadLevel [oneCrate] 1 = .ok g₀ ∧
      g₀.run [.move .right, .move .right, .undo, .redo] = .ok g ∧ Rules g₀ g := by
  obtain ⟨g₀, hload⟩ : ∃ g₀, loadLevel [oneCrate] 1 = .ok g₀ := ⟨_, rfl⟩
  have hcheck : (loadLevel [oneCrate] 1).map (closedCheck [(2, 2), (3, 2), (4, 2)]) =
      .ok true := by decide
  rw [hload] at hcheck
  obtain ⟨g, hrun, hrules, -⟩ := history_and_rules hload
    (enclosed_of_closedCheck (Except.ok.inj hcheck))
    [.move .right, .move .right, .undo, .redo]
  exact ⟨g₀, g, hload, hrun, hrules⟩

end LuaAttic.Sokoban
