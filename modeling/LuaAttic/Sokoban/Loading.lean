import LuaAttic.Sokoban.Play

/-!
# Loading a level

What the level that has been loaded has to do with its text: each tile is at a
place of its own, and the columns are those of the longest line.
-/

namespace LuaAttic.Sokoban

open LuaAttic.Lua LuaAttic.Support

/-! ## The tiles of a level -/

/-- Where a tile is. -/
def place (t : ℤ × ℤ × UInt8) : ℤ × ℤ := (t.1, t.2.1)

/-- The tiles of some lines. -/
def tilesOf (lines : List Bytes) : List (ℤ × ℤ × UInt8) :=
  (lines.mapIdx fun y line =>
    line.mapIdx fun x c => ((x + 1 : ℤ), (y + 1 : ℤ), c)).flatten

theorem mem_tilesOf_iff {lines : List Bytes} {t : ℤ × ℤ × UInt8} :
    t ∈ tilesOf lines ↔ ∃ y x : ℕ, ∃ row, lines[y]? = some row ∧
      row[x]? = some t.2.2 ∧ t.1 = x + 1 ∧ t.2.1 = y + 1 := by
  simp only [tilesOf, List.mem_flatten, List.mem_mapIdx]
  constructor
  · rintro ⟨_, ⟨y, hy, rfl⟩, ht⟩
    obtain ⟨x, hx, rfl⟩ := List.mem_mapIdx.mp ht
    exact ⟨y, x, _, List.getElem?_eq_getElem hy, List.getElem?_eq_getElem hx, rfl, rfl⟩
  · rintro ⟨y, x, row, hrow, hc, h1, h2⟩
    obtain ⟨hy, rfl⟩ := List.getElem?_eq_some_iff.mp hrow
    obtain ⟨hx, hc⟩ := List.getElem?_eq_some_iff.mp hc
    refine ⟨_, ⟨y, hy, rfl⟩, List.mem_mapIdx.mpr ⟨x, hx, ?_⟩⟩
    rw [hc, ← h1, ← h2]

theorem pairwise_tilesOf (lines : List Bytes) :
    (tilesOf lines).Pairwise fun t t' => place t ≠ place t' := by
  rw [tilesOf, List.pairwise_flatten]
  constructor
  · intro row hrow
    obtain ⟨y, hy, rfl⟩ := List.mem_mapIdx.mp hrow
    rw [List.pairwise_iff_getElem]
    intro i j hi hj hij h
    rw [List.getElem_mapIdx, List.getElem_mapIdx] at h
    have hx : (i + 1 : ℤ) = j + 1 := congrArg Prod.fst h
    omega
  · rw [List.pairwise_iff_getElem]
    intro i j hi hj hij t ht t' ht' h
    rw [List.getElem_mapIdx] at ht ht'
    obtain ⟨x, hx, rfl⟩ := List.mem_mapIdx.mp ht
    obtain ⟨x', hx', rfl⟩ := List.mem_mapIdx.mp ht'
    have hy : (i + 1 : ℤ) = j + 1 := congrArg Prod.snd h
    omega

/-- The line of a tile has tiles in all columns before it. -/
theorem exists_tile_before {lines : List Bytes} {t : ℤ × ℤ × UInt8}
    (ht : t ∈ tilesOf lines) {x : ℤ} (hx : 1 ≤ x) (hle : x ≤ t.1) :
    ∃ t' ∈ tilesOf lines, t'.1 = x := by
  obtain ⟨y, x', row, hrow, hc, h1, -⟩ := mem_tilesOf_iff.mp ht
  have hlt : x.toNat - 1 < row.length := by
    have hlt' := (List.getElem?_eq_some_iff.mp hc).1
    omega
  refine ⟨(x, y + 1, row[x.toNat - 1]), mem_tilesOf_iff.mpr ?_, rfl⟩
  refine ⟨y, x.toNat - 1, row, hrow, List.getElem?_eq_getElem hlt, ?_, rfl⟩
  simp only
  omega

/-! ## What has been loaded -/

section Loading

variable {done : List (ℤ × ℤ × UInt8)} {l l' : Loading}

/-- What has been loaded from some tiles. -/
structure Loaded (done : List (ℤ × ℤ × UInt8)) (l : Loading) : Prop where
  inside : ∀ t ∈ done, t.1 ≤ l.sizex ∧ t.2.1 ≤ l.sizey
  widest : l.sizex = 0 ∨ ∃ t ∈ done, t.1 = l.sizex
  boxes : ∀ x, (l.boxes x).isSome ↔ ∃ t ∈ done, t.1 = x
  tiles : ∀ x, (l.tiles x).isSome ↔ ∃ t ∈ done, t.1 = x
  cell : ∀ c b, l.boxes.cell c = some b ↔
    ∃ t ∈ done, place t = c ∧ boxOf t.2.2 = some b
  player : ∀ p, l.pl = some p → ∃ t ∈ done, place t = p ∧ (t.2.2 = 120 ∨ t.2.2 = 88)
  crates : l.crateCount = (done.filter fun t => t.2.2 = 35).length

theorem loaded_nil : Loaded [] {} where
  inside _ h := absurd h List.not_mem_nil
  widest := .inl rfl
  boxes _ := by simp
  tiles _ := by simp
  cell _ _ := by simp [Grid.cell]
  player _ h := nomatch h
  crates := rfl

theorem isSome_addColumn {α : Type} (t : Grid α) (x x' : ℤ) :
    (t.addColumn x x').isSome ↔ (t x').isSome ∨ x' = x := by
  by_cases h : x' = x
  · subst h
    simp [Grid.addColumn]
  · simp [Grid.addColumn, h]

theorem cell_addColumn {α : Type} (t : Grid α) (x : ℤ) (c : ℤ × ℤ) :
    (t.addColumn x).cell c = t.cell c := by
  by_cases h : c.1 = x
  · subst h
    cases hx : t c.1 <;> simp [Grid.addColumn, Grid.cell, hx]
  · simp [Grid.addColumn, Grid.cell, h]

/-- Setting a cell of a column that has been added. -/
theorem set_addColumn {α : Type} (t : Grid α) (x y : ℤ) (v : Option α) :
    ∃ t', (t.addColumn x).set x y v = .ok t' ∧
      (∀ x', (t' x').isSome ↔ (t x').isSome ∨ x' = x) ∧
      ∀ c, t'.cell c = if c = (x, y) then v else t.cell c := by
  have hx : (t.addColumn x (x, y).1).isSome := (isSome_addColumn t x x).mpr (.inr rfl)
  refine ⟨_, set_eq hx v, fun x' => ?_, fun c => ?_⟩
  · rw [isSome_mapCells]
    exact isSome_addColumn t x x'
  · cases hc : (t.addColumn x c.1).isSome with
    | true => rw [cell_mapCells hc, cell_addColumn]
    | false =>
        have hne : c ≠ (x, y) := by
          rintro rfl
          rw [hx] at hc
          cases hc
        rw [if_neg hne, cell_of_isNone (by simpa using hc), ← cell_addColumn t x,
          cell_of_isNone hc]

/-- What a tile changes. -/
structure TileLoaded (l : Loading) (x y : ℤ) (c : UInt8) (l' : Loading) : Prop where
  sizex : l'.sizex = max x.toNat l.sizex
  sizey : l'.sizey = max y.toNat l.sizey
  crateCount : l'.crateCount = if c = 35 then l.crateCount + 1 else l.crateCount
  boxes : ∀ x', (l'.boxes x').isSome ↔ (l.boxes x').isSome ∨ x' = x
  tiles : ∀ x', (l'.tiles x').isSome ↔ (l.tiles x').isSome ∨ x' = x
  cell : ∀ c', l'.boxes.cell c' =
    if c' = (x, y) ∧ (boxOf c).isSome then boxOf c else l.boxes.cell c'
  player : l'.pl = l.pl ∨ l'.pl = some (x, y) ∧ (c = 120 ∨ c = 88)

theorem isSome_boxOf (c : UInt8) : (boxOf c).isSome ↔ c = 42 ∨ c = 35 := by
  unfold boxOf
  split
  · simp [*]
  · split <;> simp [*]

theorem isSome_tileOf (c : UInt8) : (tileOf c).isSome ↔ c = 79 ∨ c = 88 := by
  unfold tileOf
  split
  · simp [*]
  · split <;> simp [*]

theorem putPlayer_cases {x y : ℤ} {c : UInt8} (h : l.putPlayer x y c = .ok l') :
    ∃ pl, l' = { l with pl := pl } ∧
      (pl = l.pl ∨ pl = some (x, y) ∧ (c = 120 ∨ c = 88)) := by
  unfold Loading.putPlayer at h
  split at h
  · next hplayer =>
      split at h
      · exact ⟨_, (Except.ok.inj h).symm, .inr ⟨rfl, hplayer⟩⟩
      · cases h
  · exact ⟨_, (Except.ok.inj h).symm, .inl rfl⟩

theorem putTile_cases {x y : ℤ} {c : UInt8} {t : Grid Tile}
    (ht : l.tiles = t.addColumn x) (h : l.putTile x y c = .ok l') :
    ∃ tiles, l' = { l with tiles := tiles } ∧
      (∀ x', (tiles x').isSome ↔ (t x').isSome ∨ x' = x) ∧
      ∀ c', tiles.cell c' = if c' = (x, y) ∧ (tileOf c).isSome then tileOf c else t.cell c' := by
  unfold Loading.putTile at h
  split at h
  · next htile =>
      obtain ⟨tiles, htiles, hcolumns, hcell⟩ := set_addColumn t x y (tileOf c)
      rw [ht, htiles] at h
      refine ⟨tiles, (Except.ok.inj h).symm, hcolumns, ?_⟩
      simpa only [(isSome_tileOf c).mpr htile, and_true] using hcell
  · next htile =>
      refine ⟨l.tiles, (Except.ok.inj h).symm, ?_, fun c' => ?_⟩
      · rw [ht]
        exact isSome_addColumn t x
      · rw [if_neg fun hc => htile ((isSome_tileOf c).mp hc.2), ht, cell_addColumn]

theorem putBox_cases {x y : ℤ} {c : UInt8} {t : Grid Box}
    (ht : l.boxes = t.addColumn x) (h : l.putBox x y c = .ok l') :
    ∃ boxes, l' = { l with boxes := boxes } ∧
      (∀ x', (boxes x').isSome ↔ (t x').isSome ∨ x' = x) ∧
      ∀ c', boxes.cell c' = if c' = (x, y) ∧ (boxOf c).isSome then boxOf c else t.cell c' := by
  unfold Loading.putBox at h
  split at h
  · next hbox =>
      obtain ⟨boxes, hboxes, hcolumns, hcell⟩ := set_addColumn t x y (boxOf c)
      rw [ht, hboxes] at h
      refine ⟨boxes, (Except.ok.inj h).symm, hcolumns, ?_⟩
      simpa only [(isSome_boxOf c).mpr hbox, and_true] using hcell
  · next hbox =>
      refine ⟨l.boxes, (Except.ok.inj h).symm, ?_, fun c' => ?_⟩
      · rw [ht]
        exact isSome_addColumn t x
      · rw [if_neg fun hc => hbox ((isSome_boxOf c).mp hc.2), ht, cell_addColumn]

theorem tile_loaded {x y : ℤ} {c : UInt8} (h : l.tile x y c = .ok l') :
    TileLoaded l x y c l' := by
  obtain ⟨l₁, hplayer, h⟩ := bind_eq_ok_iff.mp h
  obtain ⟨l₂, htile, hbox⟩ := bind_eq_ok_iff.mp h
  obtain ⟨pl, rfl, hpl⟩ := putPlayer_cases hplayer
  obtain ⟨tiles, rfl, htiles, -⟩ := putTile_cases rfl htile
  obtain ⟨boxes, rfl, hboxes, hcell⟩ := putBox_cases rfl hbox
  refine ⟨rfl, rfl, ?_, hboxes, htiles, hcell, hpl⟩
  by_cases hplace : c = 79 ∨ c = 88
  · have hne : c ≠ 35 := by
      rintro rfl
      revert hplace
      decide
    simp [Loading.count, hplace, hne]
  · simp [Loading.count, hplace]

/-- A cell that is set at a place where there was none. -/
theorem cell_snoc {α : Type} {t t' : Grid α} {f : UInt8 → Option α}
    (ht : ∀ c b, t.cell c = some b ↔ ∃ e ∈ done, place e = c ∧ f e.2.2 = some b) {x y : ℤ}
    {a : UInt8} (hnew : ∀ e ∈ done, place e ≠ (x, y))
    (hcell : ∀ c, t'.cell c = if c = (x, y) ∧ (f a).isSome then f a else t.cell c)
    (c : ℤ × ℤ) (b : α) :
    t'.cell c = some b ↔
      ∃ e ∈ done ++ [(x, y, a)], place e = c ∧ f e.2.2 = some b := by
  rw [hcell]
  constructor
  · intro hb
    split at hb
    · next hc => exact ⟨(x, y, a), by simp, hc.1.symm, hb⟩
    · obtain ⟨e, he, hplace⟩ := (ht c b).mp hb
      exact ⟨e, List.mem_append_left _ he, hplace⟩
  · rintro ⟨e, he, rfl, hb⟩
    rcases List.mem_append.mp he with he | he
    · rw [if_neg fun hc => hnew e he hc.1]
      exact (ht _ b).mpr ⟨e, he, rfl, hb⟩
    · obtain rfl := List.mem_singleton.mp he
      rw [if_pos ⟨rfl, by rw [hb]; rfl⟩]
      exact hb

theorem loaded_snoc (hl : Loaded done l) {x y : ℤ} {c : UInt8} (hx : 1 ≤ x)
    (hnew : ∀ t ∈ done, place t ≠ (x, y)) (h : TileLoaded l x y c l') :
    Loaded (done ++ [(x, y, c)]) l' where
  inside t ht := by
    rw [h.sizex, h.sizey]
    rcases List.mem_append.mp ht with ht | ht
    · obtain ⟨h1, h2⟩ := hl.inside t ht
      omega
    · obtain rfl := List.mem_singleton.mp ht
      simp only
      omega
  widest := by
    rw [h.sizex]
    refine .inr ?_
    rcases le_total l.sizex x.toNat with hle | hle
    · refine ⟨(x, y, c), by simp, ?_⟩
      simp only
      omega
    · rcases hl.widest with hzero | ⟨t, ht, heq⟩
      · omega
      · exact ⟨t, List.mem_append_left _ ht, by omega⟩
  boxes x' := by
    rw [h.boxes, hl.boxes]
    simp [or_and_right, exists_or, eq_comm]
  tiles x' := by
    rw [h.tiles, hl.tiles]
    simp [or_and_right, exists_or, eq_comm]
  cell := cell_snoc hl.cell hnew h.cell
  player p hp := by
    rcases h.player with hold | ⟨hnew', hc⟩
    · obtain ⟨t, ht, hplace⟩ := hl.player p (hold ▸ hp)
      exact ⟨t, List.mem_append_left _ ht, hplace⟩
    · exact ⟨(x, y, c), by simp, Option.some.inj (hnew'.symm.trans hp), hc⟩
  crates := by
    rw [h.crateCount, hl.crates, List.filter_append, List.length_append]
    by_cases hc : c = 35 <;> simp [hc]

theorem foldlM_loaded {ts : List (ℤ × ℤ × UInt8)} (hx : ∀ t ∈ ts, 1 ≤ t.1)
    (hplaces : ts.Pairwise fun t t' => place t ≠ place t')
    (h : ts.foldlM (fun l t => l.tile t.1 t.2.1 t.2.2) ({} : Loading) = .ok l) :
    Loaded ts l := by
  induction ts using List.reverseRecOn generalizing l with
  | nil =>
      obtain rfl := Except.ok.inj h
      exact loaded_nil
  | append_singleton ts t ih =>
      rw [List.foldlM_append] at h
      obtain ⟨l₁, hl₁, h⟩ := bind_eq_ok_iff.mp h
      rw [List.pairwise_append] at hplaces
      have hl := ih (fun t' ht' => hx t' (List.mem_append_left _ ht')) hplaces.1 hl₁
      have htile : l₁.tile t.1 t.2.1 t.2.2 = .ok l := by simpa using h
      exact loaded_snoc hl (hx t (by simp))
        (fun t' ht' => hplaces.2.2 t' ht' t List.mem_cons_self) (tile_loaded htile)

end Loading

end LuaAttic.Sokoban
