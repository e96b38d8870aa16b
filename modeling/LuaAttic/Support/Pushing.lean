import Mathlib.Data.Finset.Card
import Mathlib.Data.Set.Basic
import Mathlib.Logic.Relation

/-!
# Pushing puzzles

A player moves over cells, and pushes a crate that is in the way if there is
nothing behind it.  The cells and the directions can be anything.
-/

namespace LuaAttic.Support

/-- Where the player and the crates are. -/
@[ext]
structure Scene (P : Type*) where
  player : P
  crates : Finset P

variable {P D : Type*} [DecidableEq P] {go : D → P → P} {walls : Set P}
  {s s' : Scene P}

/-- One move: over free space, or with a crate. -/
def Legal (go : D → P → P) (walls : Set P) (s s' : Scene P) : Prop :=
  ∃ d, go d s.player ∉ walls ∧ s'.player = go d s.player ∧
    (go d s.player ∉ s.crates ∧ s'.crates = s.crates ∨
      go d s.player ∈ s.crates ∧ go d (go d s.player) ∉ walls ∧
        go d (go d s.player) ∉ s.crates ∧
        s'.crates = insert (go d (go d s.player)) (s.crates.erase (go d s.player)))

/-- Nothing is where something else is. -/
structure Scene.Valid (walls : Set P) (s : Scene P) : Prop where
  player_wall : s.player ∉ walls
  player_crate : s.player ∉ s.crates
  crate_wall : ∀ c ∈ s.crates, c ∉ walls

/-- The cells that can be come to without passing a wall. -/
def Reach (go : D → P → P) (walls : Set P) : P → P → Prop :=
  Relation.ReflTransGen fun p q => (∃ d, q = go d p) ∧ q ∉ walls

theorem Legal.valid (hvalid : s.Valid walls) (h : Legal go walls s s') :
    s'.Valid walls := by
  obtain ⟨d, hwall, hplayer, ⟨hfree, hcrates⟩ | ⟨hcrate, hbehind, hspace, hcrates⟩⟩ := h
  · refine ⟨hplayer ▸ hwall, ?_, ?_⟩
    · rwa [hplayer, hcrates]
    · rw [hcrates]
      exact hvalid.crate_wall
  · refine ⟨hplayer ▸ hwall, ?_, ?_⟩
    · rw [hplayer, hcrates, Finset.mem_insert, not_or]
      refine ⟨fun heq => hspace (heq ▸ hcrate), ?_⟩
      exact Finset.notMem_erase _ _
    · intro c hc
      rw [hcrates, Finset.mem_insert] at hc
      rcases hc with rfl | hc
      · exact hbehind
      · exact hvalid.crate_wall c (Finset.mem_of_mem_erase hc)

theorem Legal.card_crates (h : Legal go walls s s') : s'.crates.card = s.crates.card := by
  obtain ⟨d, -, -, ⟨-, hcrates⟩ | ⟨hcrate, -, hspace, hcrates⟩⟩ := h
  · rw [hcrates]
  · have hnot : go d (go d s.player) ∉ s.crates.erase (go d s.player) := fun hmem =>
      hspace (Finset.mem_of_mem_erase hmem)
    rw [hcrates, Finset.card_insert_of_notMem hnot, Finset.card_erase_of_mem hcrate]
    exact Nat.succ_pred_eq_of_pos (Finset.card_pos.mpr ⟨_, hcrate⟩)

/-- The player is where it can come to, and no crate is outside of an area. -/
structure Scene.Within (go : D → P → P) (walls : Set P) (start : P) (area : Set P)
    (s : Scene P) : Prop where
  player : Reach go walls start s.player
  crates : ∀ c ∈ s.crates, c ∈ area

theorem Legal.within {start : P} {area : Set P}
    (harea : ∀ c, Reach go walls start c → c ∈ area)
    (hwithin : s.Within go walls start area) (h : Legal go walls s s') :
    s'.Within go walls start area := by
  obtain ⟨d, hwall, hplayer, hmove⟩ := h
  have hreach : Reach go walls start (go d s.player) := hwithin.player.tail ⟨⟨d, rfl⟩, hwall⟩
  refine ⟨hplayer ▸ hreach, ?_⟩
  rcases hmove with ⟨-, hcrates⟩ | ⟨-, hbehind, -, hcrates⟩
  · rw [hcrates]
    exact hwithin.crates
  · intro c hc
    rw [hcrates, Finset.mem_insert] at hc
    rcases hc with rfl | hc
    · exact harea _ (hreach.tail ⟨⟨d, rfl⟩, hbehind⟩)
    · exact hwithin.crates c (Finset.mem_of_mem_erase hc)

end LuaAttic.Support
