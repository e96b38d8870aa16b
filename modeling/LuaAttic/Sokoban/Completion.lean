import LuaAttic.Sokoban.Rules

/-!
# Completing a level

The crates that remain are counted from the number of crates of the level and
the tiles that are kept as places.  The start of a player who stands on a place
is kept as another tile, and is not counted.
-/

namespace LuaAttic.Sokoban

open LuaAttic.Lua LuaAttic.Support

/-! ## Destinations -/

/-- There is the tile in the text of the level. -/
def IsText (levels : List Bytes) (g : Game) (a : UInt8) (c : ℤ × ℤ) : Prop :=
  ∃ ts, levelTiles levels g.level = .ok ts ∧ (c.1, c.2, a) ∈ ts

/-- `'O'` or `'X'` in the text of the level. -/
def IsDestination (levels : List Bytes) (g : Game) (c : ℤ × ℤ) : Prop :=
  IsText levels g 79 c ∨ IsText levels g 88 c

section Tiles

variable {levels : List Bytes} {wanted : ℤ} {g₀ : Game} {l l' : Loading}

theorem tile_tiles {x y : ℤ} {a : UInt8} (h : l.tile x y a = .ok l') (c : ℤ × ℤ) :
    l'.tiles.cell c =
      if c = (x, y) ∧ (tileOf a).isSome then tileOf a else l.tiles.cell c := by
  obtain ⟨l₁, hplayer, h⟩ := bind_eq_ok_iff.mp h
  obtain ⟨l₂, htile, hbox⟩ := bind_eq_ok_iff.mp h
  obtain ⟨pl, rfl, -⟩ := putPlayer_cases hplayer
  obtain ⟨tiles, rfl, -, hcell⟩ := putTile_cases rfl htile
  obtain ⟨boxes, rfl, -⟩ := putBox_cases rfl hbox
  exact hcell c

theorem foldlM_tiles {ts : List (ℤ × ℤ × UInt8)}
    (hplaces : ts.Pairwise fun t t' => place t ≠ place t')
    (h : ts.foldlM (fun l t => l.tile t.1 t.2.1 t.2.2) ({} : Loading) = .ok l)
    (c : ℤ × ℤ) (b : Tile) :
    l.tiles.cell c = some b ↔ ∃ t ∈ ts, place t = c ∧ tileOf t.2.2 = some b := by
  induction ts using List.reverseRecOn generalizing l c b with
  | nil =>
      obtain rfl := Except.ok.inj h
      simp [Grid.cell]
  | append_singleton ts t ih =>
      rw [List.foldlM_append] at h
      obtain ⟨l₁, hl₁, h⟩ := bind_eq_ok_iff.mp h
      rw [List.pairwise_append] at hplaces
      have htile : l₁.tile t.1 t.2.1 t.2.2 = .ok l := by simpa using h
      exact cell_snoc (ih hplaces.1 hl₁)
        (fun t' ht' => hplaces.2.2 t' ht' t List.mem_cons_self) (tile_tiles htile) c b

theorem tileOf_eq_place_iff {a : UInt8} : tileOf a = some .place ↔ a = 79 := by
  unfold tileOf
  split
  · simp [*]
  · split <;> simp [*]

theorem tileOf_eq_start_iff {a : UInt8} : tileOf a = some .start ↔ a = 88 := by
  unfold tileOf
  split
  · simp [*]
  · split <;> simp [*]

theorem isText_iff {g : Game} {ts : List (ℤ × ℤ × UInt8)}
    (h : levelTiles levels g.level = .ok ts) {a : UInt8} {c : ℤ × ℤ} :
    IsText levels g a c ↔ ∃ t ∈ ts, place t = c ∧ t.2.2 = a := by
  constructor
  · rintro ⟨ts', hts', hmem⟩
    obtain rfl := Except.ok.inj (h.symm.trans hts')
    exact ⟨_, hmem, rfl, rfl⟩
  · rintro ⟨t, ht, rfl, rfl⟩
    exact ⟨ts, h, ht⟩

/-- The tiles that are kept are those of the text. -/
theorem cell_tiles_iff (h : loadLevel levels wanted = .ok g₀) (c : ℤ × ℤ) :
    (g₀.tiles.cell c = some .place ↔ IsText levels g₀ 79 c) ∧
      (g₀.tiles.cell c = some .start ↔ IsText levels g₀ 88 c) := by
  obtain ⟨lines, l, hlevel, hl, -, hg₀⟩ := loadLevel_run h
  have hcell := foldlM_tiles (pairwise_tilesOf lines) hl c
  have htiles : g₀.tiles = l.tiles := by rw [hg₀]
  rw [htiles, hcell, hcell, isText_iff hlevel, isText_iff hlevel]
  simp only [tileOf_eq_place_iff, tileOf_eq_start_iff, and_self]

theorem mem_cells_of_isText (h : loadLevel levels wanted = .ok g₀) {a : UInt8}
    {c : ℤ × ℤ} (hc : IsText levels g₀ a c) : c ∈ g₀.cells := by
  obtain ⟨lines, l, hlevel, hl, -, hg₀⟩ := loadLevel_run h
  obtain ⟨t, ht, rfl, -⟩ := (isText_iff hlevel).mp hc
  obtain ⟨y, x, line, -, -, h1, h2⟩ := mem_tilesOf_iff.mp ht
  obtain ⟨hx, hy⟩ := (loaded_tilesOf hl).inside t ht
  have hsizex : g₀.sizex = l.sizex := by rw [hg₀]
  have hsizey : g₀.sizey = l.sizey := by rw [hg₀]
  refine mem_cells_iff.mpr ?_
  rw [hsizex, hsizey, place]
  omega

end Tiles

/-! ## The number of crates -/

/-- The state that is restored has as many crates as there are in the grid. -/
def Game.Restores (g : Game) (stack : List State) : Prop :=
  ∀ s crates, stack.getLast? = some s → g.packCrates = .ok crates →
    crates.length = s.crates.length

/-- No command goes back, or forth, over a push by which a crate has left the
grid or come into it. -/
def Game.Keeps (g : Game) : Command → Prop
  | .move _ => True
  | .undo => g.Restores g.undoStack
  | .redo => g.Restores g.redoStack

/-- The games that are come to by such commands. -/
inductive Reached (g₀ : Game) : Game → Prop
  | start : Reached g₀ g₀
  | step {g g' : Game} {c : Command} (h : Reached g₀ g) (hkeeps : g.Keeps c)
      (hexec : g.exec c = .ok g') : Reached g₀ g'

/-- What is known of such a game; crates can be outside of the grid. -/
structure Counted (g₀ g : Game) : Prop where
  sizex : g.sizex = g₀.sizex
  sizey : g.sizey = g₀.sizey
  crateCount : g.crateCount = g₀.crateCount
  tiles : g.tiles = g₀.tiles
  columns : ∀ c ∈ g.cells, (g.boxes c.1).isSome
  crates : ∃ F : Finset (ℤ × ℤ), (∀ c, c ∈ F ↔ g.IsCrate c) ∧ F.card = g₀.crateCount
  saved : ∀ s ∈ g.undoStack ++ g.redoStack,
    ∃ F ⊆ g₀.cells.toFinset, s.crates = packed g₀.cells F

section Counted

variable {g₀ g g' : Game}

theorem Counted.cells (h : Counted g₀ g) : g.cells = g₀.cells := by
  rw [Game.cells, h.sizex, h.sizey, Game.cells]

theorem nodup_cells (g : Game) : g.cells.Nodup := by
  refine List.Nodup.map ?_ (List.Nodup.product (List.nodup_range' ..) (List.nodup_range' ..))
  rintro ⟨x, y⟩ ⟨x', y'⟩ h
  simpa using h

theorem length_packed (cs : List (ℤ × ℤ)) (F : Finset (ℤ × ℤ)) :
    (packed cs F).length = 2 * (cs.filter (· ∈ F)).length := by
  induction cs with
  | nil => rfl
  | cons c cs ih =>
      rw [packed_cons, List.length_append, ih, List.filter_cons]
      by_cases hc : c ∈ F
      · simp [hc]
        ring
      · simp [hc]

/-- The list of the crates is twice as long as there are crates. -/
theorem length_packed_cells {F : Finset (ℤ × ℤ)} (hF : F ⊆ g.cells.toFinset) :
    (packed g.cells F).length = 2 * F.card := by
  have hfilter : (g.cells.filter (· ∈ F)).toFinset = F := by
    ext c
    simpa using fun hc => List.mem_toFinset.mp (hF hc)
  rw [length_packed, ← List.toFinset_card_of_nodup ((nodup_cells g).filter _), hfilter]

theorem crates_subset (g : Game) : g.crates ⊆ g.cells.toFinset :=
  Finset.filter_subset _ _

theorem Counted.saved_state (h : Counted g₀ g) :
    ∃ F ⊆ g₀.cells.toFinset, g.state.crates = packed g₀.cells F :=
  ⟨g.crates, h.cells ▸ crates_subset g, by rw [← h.cells]; rfl⟩

/-- Other crates are put into the grid, as many as there were. -/
theorem Counted.restore (h : Counted g₀ g) {stack U R : List State} {s : State}
    (hlast : stack.getLast? = some s) (hmem : s ∈ g.undoStack ++ g.redoStack)
    (hkeeps : g.Restores stack)
    (hstacks : ∀ s ∈ U ++ R, s = g.state ∨ s ∈ g.undoStack ++ g.redoStack)
    (hset : { g with undoStack := U, redoStack := R }.setState s = .ok g') :
    Counted g₀ g'.moved := by
  obtain ⟨F, hF, hs⟩ := h.saved s hmem
  rw [← h.cells] at hF hs
  rw [setState_eq (g := { g with undoStack := U, redoStack := R }) h.columns hs] at hset
  obtain rfl := Except.ok.inj hset
  obtain ⟨G, hG, hcard⟩ := h.crates
  have hsame : F.card = g.crates.card := by
    have hlen := hkeeps s _ hlast (packCrates_eq h.columns)
    rw [hs, length_packed_cells (crates_subset g), length_packed_cells hF] at hlen
    omega
  have hinside : G.filter (· ∈ g.cells) = g.crates := by
    ext c
    rw [Finset.mem_filter, hG, Game.crates, Finset.mem_filter, List.mem_toFinset, and_comm]
    exact Iff.rfl
  have hdisjoint : Disjoint F (G.filter (· ∉ g.cells)) := by
    refine Finset.disjoint_left.mpr fun c hc hc' => ?_
    exact (Finset.mem_filter.mp hc').2 (List.mem_toFinset.mp (hF hc))
  refine ⟨h.sizex, h.sizey, h.crateCount, h.tiles, fun c hc => ?_,
    ⟨F ∪ G.filter (· ∉ g.cells), fun c => ?_, ?_⟩, fun s hs => ?_⟩
  · exact (isSome_boxesWith F c.1).trans (h.columns c hc)
  · have hcell := cell_boxesWith h.columns F c
    have hFc : c ∈ F → c ∈ g.cells := fun hc => List.mem_toFinset.mp (hF hc)
    change _ ↔ (g.boxesWith F).cell c = some .crate
    rw [hcell, Finset.mem_union, Finset.mem_filter, hG, Game.IsCrate]
    grind
  · rw [Finset.card_union_of_disjoint hdisjoint, hsame, ← hinside,
      Finset.card_filter_add_card_filter_not, hcard]
  · rcases hstacks s hs with rfl | hold
    · exact h.saved_state
    · exact h.saved s hold

theorem Counted.undo (h : Counted g₀ g) (hkeeps : g.Restores g.undoStack)
    (hundo : g.undo = .ok g') : Counted g₀ g' := by
  unfold Game.undo at hundo
  rcases List.eq_nil_or_concat g.undoStack with hnil | ⟨U, s, hU⟩
  · rw [hnil] at hundo
    obtain rfl := Except.ok.inj hundo
    exact h
  · have hlast : g.undoStack.getLast? = some s := by simp [hU]
    rw [hlast] at hundo
    obtain ⟨here, hhere, hundo⟩ := bind_eq_ok_iff.mp hundo
    obtain ⟨g₁, hset, hundo⟩ := bind_eq_ok_iff.mp hundo
    obtain rfl := Except.ok.inj hundo
    rw [getState_eq h.columns] at hhere
    obtain rfl := Except.ok.inj hhere
    refine h.restore hlast (by simp [hU]) hkeeps (fun t ht => ?_) hset
    simp only [hU, List.concat_eq_append, List.dropLast_concat, List.mem_append,
      List.mem_singleton] at ht ⊢
    tauto

theorem Counted.redo (h : Counted g₀ g) (hkeeps : g.Restores g.redoStack)
    (hredo : g.redo = .ok g') : Counted g₀ g' := by
  unfold Game.redo at hredo
  rcases List.eq_nil_or_concat g.redoStack with hnil | ⟨R, s, hR⟩
  · rw [hnil] at hredo
    obtain rfl := Except.ok.inj hredo
    exact h
  · have hlast : g.redoStack.getLast? = some s := by simp [hR]
    rw [hlast] at hredo
    obtain ⟨here, hhere, hredo⟩ := bind_eq_ok_iff.mp hredo
    obtain ⟨g₁, hset, hredo⟩ := bind_eq_ok_iff.mp hredo
    obtain rfl := Except.ok.inj hredo
    rw [getState_eq h.columns] at hhere
    obtain rfl := Except.ok.inj hhere
    refine h.restore hlast (by simp [hR]) hkeeps (fun t ht => ?_) hset
    simp only [hR, List.concat_eq_append, List.dropLast_concat, List.mem_append,
      List.mem_singleton] at ht ⊢
    tauto

/-- A move that changes something: the state is pushed, and at most one crate is
taken to another cell. -/
theorem moveDelta_cases (hcolumns : ∀ c ∈ g.cells, (g.boxes c.1).isSome) {dx dy : ℤ}
    {r : Option Bool} (h : g.moveDelta dx dy = .ok (g', r)) :
    g' = g ∨ ∃ pl boxes, g' = { g with
        undoStack := g.undoStack ++ [g.state], redoStack := [], pl := pl,
        boxes := boxes }.moved ∧
      (boxes = g.boxes ∨ ∃ c₁ c₂, g.IsCrate c₁ ∧ (g.boxes c₂.1).isSome ∧
        g.boxes.cell c₂ = none ∧ boxes = g.boxes.mapCells fun c b =>
          if c = c₂ then some .crate else if c = c₁ then none else b) := by
  unfold Game.moveDelta at h
  obtain ⟨front, hfront, h⟩ := bind_eq_ok_iff.mp h
  rw [get_eq_ok_iff] at hfront
  cases front with
  | none =>
      rw [pushState_eq hcolumns] at h
      obtain ⟨rfl, -⟩ := Prod.mk.inj (Except.ok.inj h)
      exact .inr ⟨_, g.boxes, rfl, .inl rfl⟩
  | some box =>
      cases box with
      | wall =>
          obtain ⟨rfl, -⟩ := Prod.mk.inj (Except.ok.inj h)
          exact .inl rfl
      | crate =>
          obtain ⟨behind, hbehind, h⟩ := bind_eq_ok_iff.mp h
          rw [get_eq_ok_iff] at hbehind
          cases behind with
          | some box =>
              obtain ⟨rfl, -⟩ := Prod.mk.inj (Except.ok.inj h)
              exact .inl rfl
          | none =>
              rw [pushState_eq hcolumns] at h
              obtain ⟨pushed, hpushed, h⟩ := bind_eq_ok_iff.mp h
              obtain rfl := Except.ok.inj hpushed
              obtain ⟨boxes, hset, h⟩ := bind_eq_ok_iff.mp h
              obtain ⟨boxes', hset', h⟩ := bind_eq_ok_iff.mp h
              obtain ⟨onto, -, h⟩ := bind_eq_ok_iff.mp h
              obtain ⟨tile, -, h⟩ := bind_eq_ok_iff.mp h
              obtain ⟨rfl, -⟩ := Prod.mk.inj (Except.ok.inj h)
              obtain ⟨-, rfl⟩ := set_eq_ok_iff.mp hset
              obtain ⟨-, rfl⟩ := set_eq_ok_iff.mp hset'
              rw [mapCells_mapCells]
              exact .inr ⟨_, _, rfl, .inr ⟨_, _, hfront.2, hbehind.1, hbehind.2, rfl⟩⟩

theorem Counted.move (h : Counted g₀ g) {d : Dir} {r : Option Bool}
    (hmove : g.move d = .ok (g', r)) : Counted g₀ g' := by
  obtain ⟨F, hF, hcard⟩ := h.crates
  have hsaved : ∀ s ∈ (g.undoStack ++ [g.state]) ++ [],
      ∃ F ⊆ g₀.cells.toFinset, s.crates = packed g₀.cells F := by
    intro s hs
    simp only [List.append_nil, List.mem_append, List.mem_singleton] at hs
    rcases hs with hs | rfl
    · exact h.saved s (List.mem_append_left _ hs)
    · exact h.saved_state
  rcases moveDelta_cases h.columns hmove with rfl | ⟨pl, boxes, rfl, hboxes⟩
  · exact h
  · rcases hboxes with rfl | ⟨c₁, c₂, hcrate, hcolumn, hspace, hboxes⟩
    · exact ⟨h.sizex, h.sizey, h.crateCount, h.tiles, h.columns, h.crates, hsaved⟩
    · have hcell : ∀ c, boxes.cell c =
          if c = c₂ then some .crate else if c = c₁ then none else g.boxes.cell c := by
        rw [hboxes]
        exact cell_moved (isSome_of_cell hcrate) hcolumn Box.crate
      have hmem : c₁ ∈ F := (hF c₁).mpr hcrate
      have hnot : c₂ ∉ F.erase c₁ := by
        intro hc
        have hc₂ : g.boxes.cell c₂ = some .crate := (hF c₂).mp (Finset.mem_of_mem_erase hc)
        rw [hspace] at hc₂
        cases hc₂
      refine ⟨h.sizex, h.sizey, h.crateCount, h.tiles, fun c hc => ?_,
        ⟨insert c₂ (F.erase c₁), fun c => ?_, ?_⟩, hsaved⟩
      · change (boxes c.1).isSome
        rw [hboxes, isSome_mapCells]
        exact h.columns c hc
      · change _ ↔ boxes.cell c = some .crate
        rw [Finset.mem_insert, Finset.mem_erase, hF, hcell, Game.IsCrate]
        grind
      · have hpos : 0 < F.card := Finset.card_pos.mpr ⟨c₁, hmem⟩
        rw [Finset.card_insert_of_notMem hnot, Finset.card_erase_of_mem hmem]
        omega

theorem Counted.exec (h : Counted g₀ g) {command : Command} (hkeeps : g.Keeps command)
    (hexec : g.exec command = .ok g') : Counted g₀ g' := by
  cases command with
  | move d =>
      obtain ⟨⟨g₁, r⟩, hmove, hexec⟩ := bind_eq_ok_iff.mp hexec
      obtain rfl := Except.ok.inj hexec
      exact h.move hmove
  | undo => exact h.undo hkeeps hexec
  | redo => exact h.redo hkeeps hexec

theorem Reached.counted (h₀ : Counted g₀ g₀) (h : Reached g₀ g) : Counted g₀ g := by
  induction h with
  | start => exact h₀
  | step _ hkeeps hexec ih => exact ih.exec hkeeps hexec

theorem loadLevel_counted {levels : List Bytes} {wanted : ℤ}
    (h : loadLevel levels wanted = .ok g₀) : Counted g₀ g₀ := by
  have hsound := loadLevel_sound h
  obtain ⟨-, -, -, -, -, -, -, -, -, hundo, hredo⟩ := loadLevel_cases h
  have hcard := hsound.current.card
  rw [scene_state] at hcard
  refine ⟨rfl, rfl, rfl, rfl, hsound.playing.laid.boxes,
    ⟨g₀.crates, fun c => mem_crates_iff hsound.playing.laid, hcard⟩, ?_⟩
  rw [hundo, hredo]
  simp

end Counted

/-! ## What is counted -/

section Remaining

variable {levels : List Bytes} {wanted : ℤ} {g₀ g : Game}

theorem foldlM_remaining {cs : List (ℤ × ℤ)} (hboxes : ∀ c ∈ cs, (g.boxes c.1).isSome)
    (htiles : ∀ c ∈ cs, (g.tiles c.1).isSome) (count : ℤ) :
    cs.foldlM (fun count c => do
        let tile ← g.tiles.get c.1 c.2
        if tile = some .place then
          let box ← g.boxes.get c.1 c.2
          return if box = some .crate then count - 1 else count
        else return count) count =
      Except.ok (count - (cs.filter fun c =>
        g.tiles.cell c = some .place ∧ g.boxes.cell c = some .crate).length) := by
  induction cs generalizing count with
  | nil => simp [pure, Except.pure]
  | cons c cs ih =>
      obtain ⟨hbox, hboxes⟩ := List.forall_mem_cons.mp hboxes
      obtain ⟨htile, htiles⟩ := List.forall_mem_cons.mp htiles
      rw [List.foldlM_cons, get_eq htile, get_eq hbox, List.filter_cons]
      by_cases hplace : g.tiles.cell c = some .place
      · by_cases hcrate : g.boxes.cell c = some .crate
        · simp only [hplace, hcrate, ok_bind, if_true, and_self, decide_true,
            List.length_cons, Nat.cast_add, Nat.cast_one]
          refine (ih hboxes htiles (count - 1)).trans ?_
          congr 1
          ring
        · simp only [hplace, hcrate, ok_bind, if_true, if_false, and_false, decide_false,
            Bool.false_eq_true]
          exact ih hboxes htiles count
      · simp only [hplace, ok_bind, if_false, false_and, decide_false, Bool.false_eq_true]
        exact ih hboxes htiles count

/-- `crates_remaining()` is the number of crates that are not on a destination,
and 0 only when there are none. -/
def CountsRemaining (levels : List Bytes) (g₀ g : Game) : Prop :=
  ∃ n, g.cratesRemaining = .ok n ∧
    n = ({c | g.IsCrate c ∧ ¬ IsDestination levels g₀ c}.ncard : ℤ) ∧
    (n = 0 ↔ ∀ c, g.IsCrate c → IsDestination levels g₀ c)

/-- What is counted: the crates that are not on an `'O'`. -/
theorem cratesRemaining_eq (hload : loadLevel levels wanted = .ok g₀)
    (hreached : Reached g₀ g) {F : Finset (ℤ × ℤ)} (hF : ∀ c, c ∈ F ↔ g.IsCrate c) :
    g.cratesRemaining = .ok ((F.filter fun c => ¬ g₀.tiles.cell c = some .place).card : ℤ) := by
  have hcounted := hreached.counted (loadLevel_counted hload)
  obtain ⟨G, hG, hcard⟩ := hcounted.crates
  obtain rfl : F = G := Finset.ext fun c => (hF c).trans (hG c).symm
  have htiles : ∀ c ∈ g.cells, (g.tiles c.1).isSome := by
    rw [hcounted.tiles, hcounted.cells]
    exact (loadLevel_sound hload).playing.laid.tiles
  have hplaces : (g.cells.filter fun c =>
      g.tiles.cell c = some .place ∧ g.boxes.cell c = some .crate).toFinset =
        F.filter fun c => g₀.tiles.cell c = some .place := by
    ext c
    simp only [List.mem_toFinset, List.mem_filter, Finset.mem_filter, hF,
      decide_eq_true_eq, hcounted.tiles, hcounted.cells, Game.IsCrate]
    constructor
    · rintro ⟨-, hplace, hcrate⟩
      exact ⟨hcrate, hplace⟩
    · rintro ⟨hcrate, hplace⟩
      exact ⟨mem_cells_of_isText hload ((cell_tiles_iff hload c).1.mp hplace), hplace, hcrate⟩
  have hlength := List.toFinset_card_of_nodup ((nodup_cells g).filter fun c =>
    g.tiles.cell c = some .place ∧ g.boxes.cell c = some .crate)
  rw [hplaces] at hlength
  have hsplit := Finset.card_filter_add_card_filter_not (s := F)
    (fun c => g₀.tiles.cell c = some .place)
  rw [Game.cratesRemaining, foldlM_remaining hcounted.columns htiles, ← hlength,
    hcounted.crateCount]
  congr 1
  omega

/-- In a game that is come to without going back over a push at the edge of the
grid, the count is right when there is no crate on the start of a player who
stood on a place, and only then. -/
theorem countsRemaining_iff (hload : loadLevel levels wanted = .ok g₀)
    (hreached : Reached g₀ g) :
    CountsRemaining levels g₀ g ↔ ∀ c, g.IsCrate c → ¬ IsText levels g₀ 88 c := by
  classical
  obtain ⟨F, hF, -⟩ := (hreached.counted (loadLevel_counted hload)).crates
  have hcount := cratesRemaining_eq hload hreached hF
  let off := F.filter fun c => ¬ IsDestination levels g₀ c
  let counted := F.filter fun c => ¬ g₀.tiles.cell c = some .place
  have hoff : {c | g.IsCrate c ∧ ¬ IsDestination levels g₀ c}.ncard = off.card := by
    rw [← Set.ncard_coe_finset]
    congr 1
    ext c
    simp [off, hF]
  have hnone : off.card = 0 ↔ ∀ c, g.IsCrate c → IsDestination levels g₀ c := by
    rw [Finset.card_eq_zero, Finset.filter_eq_empty_iff]
    simp only [hF, not_not]
  have hsub : off ⊆ counted := by
    intro c hc
    obtain ⟨hcF, hdest⟩ := Finset.mem_filter.mp hc
    refine Finset.mem_filter.mpr ⟨hcF, fun hplace => hdest (.inl ?_)⟩
    exact (cell_tiles_iff hload c).1.mp hplace
  constructor
  · rintro ⟨n, hn, heq, -⟩ c hcrate hstart
    have hcards : counted.card = off.card := by
      rw [hcount] at hn
      rw [← Except.ok.inj hn, hoff] at heq
      exact_mod_cast heq
    have hsame : off = counted := Finset.eq_of_subset_of_card_le hsub hcards.le
    have hcounted : c ∈ counted := by
      refine Finset.mem_filter.mpr ⟨(hF c).mpr hcrate, ?_⟩
      rw [(cell_tiles_iff hload c).2.mpr hstart]
      decide
    rw [← hsame] at hcounted
    exact (Finset.mem_filter.mp hcounted).2 (.inr hstart)
  · intro hstart
    have hsame : counted = off := by
      apply Finset.filter_congr
      intro c hc
      rw [(cell_tiles_iff hload c).1, IsDestination, or_iff_left (hstart c ((hF c).mp hc))]
    refine ⟨off.card, ?_, by rw [hoff], ?_⟩
    · rw [hcount]
      exact congrArg (fun G : Finset (ℤ × ℤ) => Except.ok (G.card : ℤ)) hsame
    · rw [← hnone]
      exact Int.natCast_eq_zero

theorem Reached.of_moves (h : Reached g₀ g) (ds : List Dir) {g' : Game}
    (hrun : g.run (ds.map .move) = .ok g') : Reached g₀ g' := by
  induction ds generalizing g with
  | nil =>
      obtain rfl := Except.ok.inj hrun
      exact h
  | cons d ds ih =>
      obtain ⟨g₁, hexec, hrun⟩ := bind_eq_ok_iff.mp hrun
      exact ih (.step (c := .move d) h trivial hexec) hrun

/-- After a push onto the only place nothing remains. -/
theorem oneCrate_countsRemaining :
    ∃ g₀ g, loadLevel [oneCrate] 1 = .ok g₀ ∧ g₀.run [.move .right] = .ok g ∧
      CountsRemaining [oneCrate] g₀ g := by
  have hcheck : (do
      let g₀ ← loadLevel [oneCrate] 1
      let _ ← g₀.run [.move .right]
      return g₀.cells.all fun c => g₀.tiles.cell c ≠ some Tile.start) = .ok true := by decide
  obtain ⟨g₀, hload, hcheck⟩ := bind_eq_ok_iff.mp hcheck
  obtain ⟨g, hrun, hcheck⟩ := bind_eq_ok_iff.mp hcheck
  have hreached : Reached g₀ g := Reached.of_moves .start [.right] hrun
  refine ⟨g₀, g, hload, hrun, (countsRemaining_iff hload hreached).mpr fun c _ hstart => ?_⟩
  have htile := List.all_eq_true.mp (Except.ok.inj hcheck) c (mem_cells_of_isText hload hstart)
  rw [(cell_tiles_iff hload c).2.mpr hstart] at htile
  revert htile
  decide

/-- A crate that is pushed off the grid stays there when the push is undone. -/
example : (do
    let g₀ ← loadLevel [lit "#O\nx\n"] 1
    let g ← g₀.run [.move .up, .undo]
    return (g.boxes.cell (1, 0), g.boxes.cell (1, 1))) =
      .ok (some Box.crate, some Box.crate) := by decide

/-- A player who starts on the only place. -/
def startPlace : Bytes := lit "*****\n*X# *\n*   *\n*****\n"

/-- Round the crate, and back. -/
def aroundCrate : List Command :=
  [.move .down, .move .right, .move .right, .move .up, .move .left]

/-- The crate is on the place from which the player started, and counted. -/
theorem not_countsRemaining :
    ¬ ∀ (levels : List Bytes) (wanted : ℤ) (g₀ g : Game) (commands : List Command),
      loadLevel levels wanted = .ok g₀ → g₀.run commands = .ok g →
        CountsRemaining levels g₀ g := by
  intro hclaim
  have hcheck : (do
      let g₀ ← loadLevel [startPlace] 1
      let g ← g₀.run aroundCrate
      let n ← g.cratesRemaining
      return (n, closedCheck [(2, 2), (3, 2), (4, 2), (2, 3), (3, 3), (4, 3)] g₀,
        g.cells.filter fun c => g.boxes.cell c = some Box.crate,
        g₀.tiles.cell (2, 2))) = .ok (1, true, [(2, 2)], some .start) := by decide
  obtain ⟨g₀, hload, hcheck⟩ := bind_eq_ok_iff.mp hcheck
  obtain ⟨g, hrun, hcheck⟩ := bind_eq_ok_iff.mp hcheck
  obtain ⟨n, hn, hcheck⟩ := bind_eq_ok_iff.mp hcheck
  obtain ⟨rfl, hclosed, hcrates, htile⟩ : n = 1 ∧ _ ∧ _ ∧ _ := by
    simpa only [Prod.mk.injEq] using Except.ok.inj hcheck
  obtain ⟨g', hrun', hsound⟩ := (loadLevel_sound hload).run
    (enclosed_of_closedCheck hclosed) aroundCrate
  obtain rfl := Except.ok.inj (hrun.symm.trans hrun')
  obtain ⟨n, hn', -, hzero⟩ := hclaim _ 1 g₀ g aroundCrate hload hrun
  obtain rfl := Except.ok.inj (hn.symm.trans hn')
  have hall : ∀ c, g.IsCrate c → IsDestination [startPlace] g₀ c := by
    intro c hc
    have hmem : c ∈ g.cells.filter fun c => g.boxes.cell c = some Box.crate :=
      List.mem_filter.mpr ⟨hsound.playing.laid.crates c hc, decide_eq_true hc⟩
    rw [hcrates, List.mem_singleton] at hmem
    rw [hmem]
    exact .inr ((cell_tiles_iff hload (2, 2)).2.mp htile)
  exact absurd (hzero.mpr hall) one_ne_zero

end Remaining

end LuaAttic.Sokoban
