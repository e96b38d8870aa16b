import Mathlib.Algebra.BigOperators.Group.List.Basic
import Mathlib.Algebra.Order.Ring.Int
import Mathlib.Data.List.Chain

/-!
# Breaking words into lines

Words are put on lines one after another, with one space between two words of a
line.  A line of several words must fit; a word that does not fit has a line of its
own.  Putting each word on the last line as long as it fits takes the fewest lines.
-/

namespace LuaAttic.Support

variable {α : Type*} (w : α → ℕ)

/-! ## The width of a line -/

/-- The width of words with a space after each of them. -/
def spacedWidth (ws : List α) : ℕ := (ws.map fun x => w x + 1).sum

/-- The width of words with a space between each two of them. -/
def lineWidth (ws : List α) : ℕ := (ws.map w).sum + (ws.length - 1)

@[simp] theorem spacedWidth_nil : spacedWidth w [] = 0 := rfl

@[simp] theorem spacedWidth_cons (x : α) (ws : List α) :
    spacedWidth w (x :: ws) = w x + 1 + spacedWidth w ws := by
  simp [spacedWidth]

theorem spacedWidth_append (ws ws' : List α) :
    spacedWidth w (ws ++ ws') = spacedWidth w ws + spacedWidth w ws' := by
  simp [spacedWidth]

theorem lineWidth_cons (x : α) (ws : List α) :
    lineWidth w (x :: ws) = w x + spacedWidth w ws := by
  induction ws with
  | nil => simp [lineWidth]
  | cons y ws ih =>
      simp only [lineWidth, List.map_cons, List.sum_cons, List.length_cons,
        spacedWidth_cons] at ih ⊢
      omega

/-! ## Breakings -/

variable (L : Int)

/-- The words are broken into lines of width `L`. -/
structure Breaks (ws : List α) (gs : List (List α)) : Prop where
  flatten : gs.flatten = ws
  ne_nil : ∀ g ∈ gs, g ≠ []
  fits : ∀ g ∈ gs, 2 ≤ g.length → (lineWidth w g : Int) ≤ L

/-- How many lines are begun for words that follow on a line with some room left, if
each word is put on the last line as long as it fits. -/
def linesBegun : Int → List α → ℕ
  | _, [] => 0
  | room, x :: ws =>
      if (w x : Int) + 1 ≤ room then linesBegun (room - (w x + 1)) ws
      else linesBegun (L - w x) ws + 1

/-- The fewest lines that words are broken into. -/
def fewestLines : List α → ℕ
  | [] => 0
  | x :: ws => linesBegun w L (L - w x) ws + 1

variable {w L} {ws : List α} {gs : List (List α)}

theorem Breaks.tail {g : List α} (h : Breaks w L ws (g :: gs)) :
    Breaks w L gs.flatten gs :=
  ⟨rfl, fun g' hg => h.ne_nil g' (List.mem_cons_of_mem _ hg),
    fun g' hg => h.fits g' (List.mem_cons_of_mem _ hg)⟩

/-- Without the first word the lines are not more. -/
theorem Breaks.exists_tail {x : α} (h : Breaks w L (x :: ws) gs) :
    ∃ gs', Breaks w L ws gs' ∧ gs'.length ≤ gs.length := by
  obtain ⟨hws, hne, hfits⟩ := h
  obtain ⟨g, gs, rfl⟩ : ∃ g gs', gs = g :: gs' := by
    cases gs with
    | nil => cases hws
    | cons g gs => exact ⟨g, gs, rfl⟩
  obtain ⟨y, g, rfl⟩ := List.exists_cons_of_ne_nil (hne g List.mem_cons_self)
  obtain ⟨rfl, rfl⟩ := List.cons.inj hws
  have htail : Breaks w L gs.flatten gs := Breaks.tail ⟨rfl, hne, hfits⟩
  cases g with
  | nil => exact ⟨gs, htail, Nat.le_succ _⟩
  | cons z g =>
      refine ⟨(z :: g) :: gs, ⟨rfl, ?_, ?_⟩, le_refl _⟩
      · intro g' hg'
        rcases List.mem_cons.mp hg' with rfl | hg'
        · exact List.cons_ne_nil z g
        · exact htail.ne_nil g' hg'
      · intro g' hg' hlen
        rcases List.mem_cons.mp hg' with rfl | hg'
        · have hline := hfits _ List.mem_cons_self (by simp)
          simp only [lineWidth_cons, spacedWidth_cons] at hline ⊢
          omega
        · exact htail.fits g' hg' hlen

theorem linesBegun_of_fits {x : α} {room : Int} (h : (w x : Int) + 1 ≤ room) :
    linesBegun w L room (x :: ws) = linesBegun w L (room - (w x + 1)) ws := by
  rw [linesBegun, if_pos h]

theorem linesBegun_of_not_fits {x : α} {room : Int} (h : ¬ (w x : Int) + 1 ≤ room) :
    linesBegun w L room (x :: ws) = fewestLines w L (x :: ws) := by
  rw [linesBegun, if_neg h, fewestLines]

/-- The words that fit, and a breaking of the other ones. -/
theorem exists_linesBegun (room : Int) (ws : List α) :
    ∃ a gs, a ++ gs.flatten = ws ∧ (a ≠ [] → (spacedWidth w a : Int) ≤ room) ∧
      Breaks w L gs.flatten gs ∧ gs.length = linesBegun w L room ws := by
  induction ws generalizing room with
  | nil => exact ⟨[], [], rfl, fun h => absurd rfl h, ⟨rfl, by simp, by simp⟩, rfl⟩
  | cons x ws ih =>
      by_cases hfits : (w x : Int) + 1 ≤ room
      · obtain ⟨a, gs, rfl, hroom, hgs, hlen⟩ := ih (room - (w x + 1))
        refine ⟨x :: a, gs, rfl, fun _ => ?_, hgs, by rw [linesBegun_of_fits hfits, hlen]⟩
        rw [spacedWidth_cons]
        by_cases ha : a = []
        · subst ha
          simp only [spacedWidth_nil]
          omega
        · have hle := hroom ha
          omega
      · obtain ⟨a, gs, rfl, hroom, hgs, hlen⟩ := ih (L - w x)
        refine ⟨[], (x :: a) :: gs, rfl, fun h => absurd rfl h, ⟨rfl, ?_, ?_⟩, ?_⟩
        · intro g hg
          rcases List.mem_cons.mp hg with rfl | hg
          · exact List.cons_ne_nil x a
          · exact hgs.ne_nil g hg
        · intro g hg hlen
          rcases List.mem_cons.mp hg with rfl | hg
          · have ha : a ≠ [] := by
              rintro rfl
              simp at hlen
            have hle := hroom ha
            rw [lineWidth_cons]
            push_cast
            omega
          · exact hgs.fits g hg hlen
        · rw [linesBegun, if_neg hfits, List.length_cons, hlen]

theorem exists_breaks_fewestLines (ws : List α) :
    ∃ gs, Breaks w L ws gs ∧ gs.length = fewestLines w L ws := by
  cases ws with
  | nil => exact ⟨[], ⟨rfl, by simp, by simp⟩, rfl⟩
  | cons x ws =>
      -- a line without room left
      have hnot : ¬ (w x : Int) + 1 ≤ 0 := by omega
      obtain ⟨a, gs, hws, hroom, hgs, hlen⟩ := exists_linesBegun (w := w) (L := L) 0 (x :: ws)
      have ha : a = [] := by
        by_contra ha
        have hpos : 0 < spacedWidth w a := by
          obtain ⟨y, b, rfl⟩ := List.exists_cons_of_ne_nil ha
          rw [spacedWidth_cons]
          omega
        have hle := hroom ha
        omega
      subst ha
      exact ⟨gs, ⟨hws, hgs.ne_nil, hgs.fits⟩, hlen.trans (linesBegun_of_not_fits hnot)⟩

/-- Where the words up to some one fit, a breaking of the words behind it has at least
as many lines as are begun. -/
theorem linesBegun_le (room : Int) {a : List α} (hws : ws = a ++ gs.flatten)
    (hroom : a ≠ [] → (spacedWidth w a : Int) ≤ room) (hgs : Breaks w L gs.flatten gs) :
    linesBegun w L room ws ≤ gs.length := by
  induction ws generalizing room a gs with
  | nil => exact Nat.zero_le _
  | cons x ws ih =>
      -- the line that the first word is on
      cases a with
      | cons y a =>
          obtain ⟨rfl, rfl⟩ := List.cons.inj hws
          have hle := hroom (List.cons_ne_nil x a)
          rw [spacedWidth_cons] at hle
          push_cast at hle
          have hpos : (0 : Int) ≤ spacedWidth w a := Int.natCast_nonneg _
          rw [linesBegun_of_fits (by omega)]
          exact ih _ rfl (fun _ => by omega) hgs
      | nil =>
          obtain ⟨g, gs, rfl⟩ : ∃ g gs', gs = g :: gs' := by
            cases gs with
            | nil => cases hws
            | cons g gs => exact ⟨g, gs, rfl⟩
          obtain ⟨y, g, rfl⟩ := List.exists_cons_of_ne_nil (hgs.ne_nil g List.mem_cons_self)
          obtain ⟨rfl, rfl⟩ := List.cons.inj hws
          have hg : g ≠ [] → (spacedWidth w g : Int) ≤ L - w x := by
            intro hne
            have hfits := hgs.fits _ List.mem_cons_self
              (by simpa [Nat.one_le_iff_ne_zero] using hne)
            rw [lineWidth_cons] at hfits
            push_cast at hfits
            omega
          by_cases hfits : (w x : Int) + 1 ≤ room
          · obtain ⟨gs', hgs', hlen⟩ := Breaks.exists_tail hgs
            rw [linesBegun_of_fits hfits]
            exact (ih _ (a := []) hgs'.flatten.symm (fun h => absurd rfl h)
              ⟨rfl, hgs'.ne_nil, hgs'.fits⟩).trans hlen
          · rw [linesBegun, if_neg hfits]
            exact Nat.succ_le_succ (ih _ rfl hg hgs.tail)

/-- No breaking has fewer lines. -/
theorem fewestLines_le (h : Breaks w L ws gs) : fewestLines w L ws ≤ gs.length := by
  obtain ⟨rfl, hne, hfits⟩ := h
  cases hws : gs.flatten with
  | nil => exact Nat.zero_le _
  | cons x ws =>
      have hnot : ¬ (w x : Int) + 1 ≤ 0 := by omega
      rw [← linesBegun_of_not_fits hnot]
      exact linesBegun_le 0 (a := []) hws.symm (fun h => absurd rfl h) ⟨rfl, hne, hfits⟩

/-! ## Less room on the first line -/

theorem linesBegun_eq_zero_iff (room : Int) (ws : List α) :
    linesBegun w L room ws = 0 ↔ ws = [] ∨ (spacedWidth w ws : Int) ≤ room := by
  induction ws generalizing room with
  | nil => simp [linesBegun]
  | cons x ws ih =>
      have hpos : (0 : Int) ≤ spacedWidth w ws := Int.natCast_nonneg _
      have hwide : (spacedWidth w (x :: ws) : Int) = w x + 1 + spacedWidth w ws := by
        rw [spacedWidth_cons]
        push_cast
        rfl
      rw [linesBegun, hwide]
      split_ifs with hfits
      · rw [ih]
        constructor
        · rintro (rfl | hle)
          · simp only [spacedWidth_nil]
            omega
          · exact .inr (by omega)
        · rintro (h | hle)
          · cases h
          · exact .inr (by omega)
      · refine iff_of_false not_false ?_
        rintro (h | hle)
        · cases h
        · omega

theorem linesBegun_of_no_room {room : Int} (h : room ≤ 0) (ws : List α) :
    linesBegun w L room ws = fewestLines w L ws := by
  cases ws with
  | nil => rfl
  | cons x ws => exact linesBegun_of_not_fits (by omega)

theorem fewestLines_tail_le (x : α) (ws : List α) :
    fewestLines w L ws ≤ fewestLines w L (x :: ws) := by
  obtain ⟨gs, hgs, hlen⟩ := exists_breaks_fewestLines (w := w) (L := L) (x :: ws)
  obtain ⟨gs', hgs', hle⟩ := hgs.exists_tail
  exact (fewestLines_le hgs').trans (hle.trans_eq hlen)

/-- One column less costs a line exactly when words fill the line and the last one of
them then begins a line that is not begun without it. -/
theorem linesBegun_pred_iff (room : Int) (ws : List α) :
    linesBegun w L (room - 1) ws = linesBegun w L room ws ↔
      ∀ k < ws.length, (spacedWidth w (ws.take (k + 1)) : Int) = room →
        fewestLines w L (ws.drop k) ≤ fewestLines w L (ws.drop (k + 1)) := by
  induction ws generalizing room with
  | nil => simp [linesBegun]
  | cons x ws ih =>
      have htake : ∀ k, (spacedWidth w ((x :: ws).take (k + 1)) : Int) =
          w x + 1 + spacedWidth w (ws.take k) := by
        intro k
        rw [List.take_succ_cons, spacedWidth_cons]
        push_cast
        rfl
      have hpos : ∀ k < ws.length, 1 ≤ spacedWidth w (ws.take (k + 1)) := by
        intro k hk
        obtain ⟨y, ws, rfl⟩ := List.exists_cons_of_length_pos (Nat.zero_lt_of_lt hk)
        rw [List.take_succ_cons, spacedWidth_cons]
        omega
      rcases lt_trichotomy ((w x : Int) + 1) room with hlt | heq | hgt
      · -- it fits in any case
        have hroom : room - 1 - (w x + 1) = room - (w x + 1) - 1 := by omega
        rw [linesBegun_of_fits (by omega), linesBegun_of_fits (by omega), hroom, ih]
        constructor
        · intro h k hk hwidth
          rw [htake] at hwidth
          cases k with
          | zero =>
              simp only [List.take_zero, spacedWidth_nil] at hwidth
              omega
          | succ k => exact h k (Nat.lt_of_succ_lt_succ hk) (by omega)
        · intro h k hk hwidth
          exact h (k + 1) (Nat.succ_lt_succ hk) (by rw [htake]; omega)
      · -- it fits only with the last column
        have hfull : room - (w x + 1) = 0 := by omega
        rw [linesBegun_of_not_fits (by omega), linesBegun_of_fits (by omega), hfull,
          linesBegun_of_no_room (le_refl 0)]
        constructor
        · intro h k hk hwidth
          rw [htake] at hwidth
          cases k with
          | zero => exact h.le
          | succ k =>
              have hone := hpos k (Nat.lt_of_succ_lt_succ hk)
              omega
        · intro h
          have hle := h 0 (Nat.succ_pos _) (by rw [htake]; simpa using heq)
          exact le_antisymm hle (fewestLines_tail_le x ws)
      · have hnot : ¬ (w x : Int) + 1 ≤ room - 1 := by omega
        rw [linesBegun_of_not_fits hnot, linesBegun_of_not_fits (by omega)]
        refine iff_of_true rfl fun k hk hwidth => ?_
        rw [htake] at hwidth
        omega

end LuaAttic.Support
