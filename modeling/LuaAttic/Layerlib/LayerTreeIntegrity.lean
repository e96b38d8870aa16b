import Mathlib.Data.Finset.Lattice.Fold
import Mathlib.Data.List.Perm.Basic
import Mathlib.Order.Lattice.Nat
import LuaAttic.Layerlib.LayerStore
import LuaAttic.Layerlib.MinSizes

/-!
# The layers of a window are a tree

New layers are leaves, freeing a layer takes away what is below it, and moving a
layer within its parent reorders a child list.  A layer that is moved to another
parent keeps the id of the parent that it had, so then the two sides disagree.
-/

namespace LuaAttic.Layerlib

open LuaAttic.Support LuaAttic.Terra

namespace Window

variable {low : Low} {w : Window} {id parent : ℕ}

theorem init_sound : init.Sound := by
  have hlive (id : ℕ) : id ∈ init.live ↔ id = 0 := by
    by_cases h : id = 0 <;> simp [live, init, Slot.init, Slot.freed, h]
  have hparent (id : ℕ) : init.links.parent id = 0 := by
    by_cases h : id = 0 <;>
      simp [links, getParent, init, Slot.init, Slot.freed, h]
  have hchildren (id : ℕ) : init.links.children id = [] := by
    by_cases h : id = 0 <;> simp [links, init, Slot.init, Slot.freed, h]
  refine ⟨⟨⟨?_, ?_, ?_⟩, (hlive 0).mpr rfl, hparent 0, ?_, ?_⟩, ?_⟩
  · intro n hn hne
    exact absurd ((hlive n).mp hn) hne
  · intro p c hc
    rw [hchildren p] at hc
    exact absurd hc List.not_mem_nil
  · intro n hn
    exact ⟨0, (hlive n).mp hn⟩
  · intro p
    rw [hchildren p]
    exact List.not_mem_nil
  · intro p _
    exact hchildren p
  · intro n hn
    rw [(hlive n).mp hn]
    exact Finset.mem_singleton_self 0

/-! ## Indices -/

theorem getChildCount_nonneg (w : Window) (id : ℕ) : 0 ≤ w.getChildCount id :=
  Int.natCast_nonneg _

section Index

variable (hlow : low.Lawful) (h : w.Sound) (hid : id ∈ w.live) (hne : id ≠ 0)

include h hid hne in
theorem mem_childIds : id ∈ (w.slots (w.getParent id)).childIds :=
  h.toConsistent.mem_children hid hne

include hlow h hid hne

theorem getIndex_eq :
    w.getIndex low id = (w.slots (w.getParent id)).childIds.idxOf id :=
  hlow.find_eq _ _ (mem_childIds h hid hne)

theorem remove_getIndex :
    low.remove (w.slots (w.getParent id)).childIds (w.getIndex low id) =
      (w.slots (w.getParent id)).childIds.erase id := by
  have hlt := List.idxOf_lt_length_of_mem (mem_childIds h hid hne)
  rw [getIndex_eq hlow h hid hne,
    hlow.remove_eq _ _ (Int.natCast_nonneg _) (Int.ofNat_lt.mpr hlt),
    Int.toNat_natCast, List.eraseIdx_idxOf_eq_erase]

/-- Moving a child to an index reorders the children. -/
theorem move_getIndex_perm (i : Int) :
    (low.move (w.slots (w.getParent id)).childIds (w.getIndex low id)
        (clamp i 0 (w.getChildCount (w.getParent id) - 1))).Perm
      (w.slots (w.getParent id)).childIds := by
  have hmem := mem_childIds h hid hne
  have hlt := List.idxOf_lt_length_of_mem hmem
  have hcount : 0 ≤ w.getChildCount (w.getParent id) - 1 := by
    rw [getChildCount]
    omega
  obtain ⟨hle, hge⟩ := clamp_bounds i hcount
  rw [getChildCount] at hge
  rw [getIndex_eq hlow h hid hne, hlow.move_eq _ _ _ id (Int.natCast_nonneg _)
    (by rw [Int.toNat_natCast]; exact List.getElem?_idxOf hmem) hle
    (by rw [getChildCount]; omega), Int.toNat_natCast, List.eraseIdx_idxOf_eq_erase]
  refine (List.perm_insertIdx _ _ ?_).trans (List.perm_cons_erase hmem).symm
  rw [List.length_erase_of_mem hmem, getChildCount]
  omega

end Index

/-- Inserting a child adds it to the children. -/
theorem insert_perm (hlow : low.Lawful) (w : Window) (parent : ℕ) (i : Int)
    (id : ℕ) :
    (low.insert (w.slots parent).childIds (clamp i 0 (w.getChildCount parent))
      id).Perm (id :: (w.slots parent).childIds) := by
  obtain ⟨hle, hge⟩ := clamp_bounds i (w.getChildCount_nonneg parent)
  rw [hlow.insert_eq _ _ _ hle hge]
  refine List.perm_insertIdx _ _ ?_
  rw [getChildCount] at hge ⊢
  omega

/-! ## New layers -/

theorem newLayer_isSome_iff (low : Low) (w : Window) (parent : ℕ) (i : Int) :
    (w.newLayer low parent i).isSome ↔ parent ∈ w.live := by
  by_cases hparent : (w.slots parent).inWindow
  · rw [newLayer, if_pos hparent]
    exact iff_of_true rfl hparent
  · rw [newLayer, if_neg hparent]
    exact iff_of_false Bool.false_ne_true hparent

/-- A new layer before it is put into the child list of its parent. -/
def allocated (w : Window) (new parent : ℕ) : Window :=
  ({ w with used := insert new w.used } : Window).setSlot new
    { Slot.init with parentId := parent }

section Allocated

variable {new : ℕ}

theorem slots_allocated_self :
    (w.allocated new parent).slots new = ⟨true, parent, []⟩ :=
  slots_setSlot_self

theorem slots_allocated_of_ne {i : ℕ} (hi : i ≠ new) :
    (w.allocated new parent).slots i = w.slots i :=
  slots_setSlot_of_ne hi

theorem live_allocated : (w.allocated new parent).live = insert new w.live := by
  ext i
  by_cases hi : i = new
  · simp [live, hi, slots_allocated_self]
  · simp [live, hi, slots_allocated_of_ne hi]

/-- A layer with a fresh id in the child list of its parent is a leaf. -/
theorem addChild_sound (h : w.Sound) (hparent : parent ∈ w.live)
    (hfresh : new ∉ w.used) {ids : List ℕ}
    (hids : ids.Perm (new :: ((w.allocated new parent).slots parent).childIds)) :
    ((w.allocated new parent).setChildIds parent ids).Sound := by
  have hnew : new ∉ w.live := fun hl => hfresh (h.mem_used new hl)
  have hne : parent ≠ new := fun heq => hnew (heq ▸ hparent)
  have hlive : ((w.allocated new parent).setChildIds parent ids).live =
      insert new w.live := by
    rw [live_setChildIds, live_allocated]
  refine ⟨?_, ?_⟩
  · rw [hlive]
    refine h.toRooted.insert hnew hparent ?_ ?_ ?_ ?_
    · rw [parent_setChildIds]
      simp [links, getParent, slots_allocated_self]
    · intro i hi
      rw [parent_setChildIds]
      simp [links, getParent, slots_allocated_of_ne hi]
    · rw [children_setChildIds_self, links]
      rwa [slots_allocated_of_ne hne] at hids
    · intro i hi
      rw [children_setChildIds_of_ne hi]
      by_cases hin : i = new
      · rw [hin, h.childless new hnew]
        simp [links, slots_allocated_self]
      · simp [links, slots_allocated_of_ne hin]
  · rw [hlive]
    rintro i (rfl | hi)
    · exact Finset.mem_insert_self _ _
    · exact Finset.mem_insert_of_mem (h.mem_used i hi)

end Allocated

theorem newLayer_sound (hlow : low.Lawful) (h : w.Sound) {i : Int} {w' : Window}
    (hw : w.newLayer low parent i = some (w', id)) : w'.Sound := by
  have hparent : parent ∈ w.live := by
    rw [← newLayer_isSome_iff low w parent i, hw]
    rfl
  have hin : (w.slots parent).inWindow := hparent
  rw [newLayer, if_pos hin] at hw
  obtain ⟨rfl, -⟩ := Prod.mk.inj (Option.some.inj hw)
  exact addChild_sound h hparent (hlow.alloc_notMem _) (insert_perm hlow _ _ _ _)

/-! ## Moving layers -/

theorem setChildIds_perm_sound (h : w.Sound) {ids : List ℕ}
    (hids : ids.Perm (w.slots id).childIds) : (w.setChildIds id ids).Sound := by
  refine ⟨?_, ?_⟩
  · rw [live_setChildIds]
    refine h.toRooted.perm parent_setChildIds fun p => ?_
    by_cases hp : p = id
    · rw [hp, children_setChildIds_self]
      exact hids
    · rw [children_setChildIds_of_ne hp]
  · rw [live_setChildIds]
    exact h.mem_used

theorem move_isSome_iff (low : Low) (w : Window) (id parent : ℕ) (i : Int) :
    (w.move low id parent i).isSome ↔ id ∈ w.live ∧ parent ∈ w.live := by
  by_cases hlive : (w.slots id).inWindow ∧ (w.slots parent).inWindow
  · rw [move, if_pos hlive]
    refine iff_of_true ?_ hlive
    split_ifs <;> rfl
  · rw [move, if_neg hlive]
    exact iff_of_false Bool.false_ne_true hlive

section Move

variable (hlow : low.Lawful) (h : w.Sound) (hne : id ≠ 0) {i : Int} {w' : Window}

include hlow h hne

theorem move_sound (hw : w.move low id (w.getParent id) i = some w') :
    w'.Sound := by
  have hlive : id ∈ w.live ∧ w.getParent id ∈ w.live := by
    rw [← move_isSome_iff low w id _ i, hw]
    rfl
  have hin : (w.slots id).inWindow ∧ (w.slots (w.getParent id)).inWindow := hlive
  rw [move, if_pos hin, if_pos rfl] at hw
  obtain rfl := Option.some.inj hw
  exact setChildIds_perm_sound h (move_getIndex_perm hlow h hlive.1 hne i)

/-- A layer that is moved to another parent is not in the child list of the
layer that its parent id is that of. -/
theorem move_not_integrity (hparent : parent ≠ w.getParent id)
    (hw : w.move low id parent i = some w') : ¬ w'.Integrity := by
  have hlive : id ∈ w.live ∧ parent ∈ w.live := by
    rw [← move_isSome_iff low w id parent i, hw]
    rfl
  have hin : (w.slots id).inWindow ∧ (w.slots parent).inWindow := hlive
  rw [move, if_pos hin, if_neg hparent] at hw
  obtain rfl := Option.some.inj hw
  intro hintegrity
  have hmem := hintegrity.mem_children (n := id)
    (by rw [live_setChildIds, live_setChildIds]; exact hlive.1) hne
  rw [parent_setChildIds, parent_setChildIds] at hmem
  have hnodup : (w.slots (w.getParent id)).childIds.Nodup :=
    h.children_nodup (w.getParent id)
  rw [show w.links.parent id = w.getParent id from rfl,
    children_setChildIds_of_ne hparent.symm, children_setChildIds_self,
    remove_getIndex hlow h hlive.1 hne, hnodup.mem_erase_iff] at hmem
  exact hmem.1 rfl

/-- Moving a layer keeps the tree exactly if the layer stays in its parent. -/
theorem move_integrity_iff (hw : w.move low id parent i = some w') :
    w'.Integrity ↔ parent = w.getParent id := by
  constructor
  · intro hintegrity
    by_contra hparent
    exact move_not_integrity hlow h hne hparent hw hintegrity
  · rintro rfl
    exact (move_sound hlow h hne hw).toConsistent

end Move

/-! ## Freeing layers -/

open Classical in
/-- The window with some layers freed. -/
noncomputable def clear (w : Window) (ids : Set ℕ) : Window :=
  { w with slots := fun i => if i ∈ ids then Slot.freed else w.slots i }

section Clear

variable {s t : Set ℕ} {i : ℕ}

theorem slots_clear_of_mem (hi : i ∈ s) : (w.clear s).slots i = Slot.freed :=
  if_pos hi

theorem slots_clear_of_notMem (hi : i ∉ s) : (w.clear s).slots i = w.slots i :=
  if_neg hi

theorem clear_empty : w.clear ∅ = w := by
  simp [clear]

theorem clear_clear : (w.clear s).clear t = w.clear (s ∪ t) := by
  rw [clear, clear, clear]
  congr 1
  funext i
  by_cases hs : i ∈ s <;> by_cases ht : i ∈ t <;> simp [hs, ht]

theorem setSlot_freed : w.setSlot id Slot.freed = w.clear {id} := by
  rw [setSlot, clear]
  congr 1
  funext i
  by_cases hi : i = id <;> simp [hi]

theorem live_clear : (w.clear s).live = w.live \ s := by
  ext i
  by_cases hi : i ∈ s
  · simp [live, slots_clear_of_mem hi, Slot.freed, hi]
  · simp [live, slots_clear_of_notMem hi, hi]

end Clear

/-- The layers below a layer, itself included. -/
def below (w : Window) (id : ℕ) : Set ℕ := w.links.below w.live id

section Free

variable {w₀ : Window} (h : w₀.links.Rooted 0 w₀.live)

include h

/-- The loop over children frees all that is below them, if each call does. -/
theorem foldlM_freeLayer {depth : ℕ} {cs : List ℕ}
    (hsub : ∀ c ∈ cs, c ∈ w₀.links.children id)
    (hnodup : cs.Nodup)
    (hfree : ∀ c ∈ cs, ∀ w : Window, (∀ n ∈ w₀.below c, w.slots n = w₀.slots n) →
      freeLayer depth c w = some (w.clear (w₀.below c))) (w : Window)
    (hw : ∀ c ∈ cs, ∀ n ∈ w₀.below c, w.slots n = w₀.slots n) :
    cs.foldlM (fun w c => freeLayer depth c w) w =
      some (w.clear {n | ∃ c ∈ cs, n ∈ w₀.below c}) := by
  induction cs generalizing w with
  | nil => simp [clear_empty]
  | cons c cs ih =>
      obtain ⟨hc, hcs⟩ := List.nodup_cons.mp hnodup
      have hrest : ∀ d ∈ cs, ∀ n ∈ w₀.below d,
          (w.clear (w₀.below c)).slots n = w₀.slots n := by
        intro d hd n hn
        have hne : d ≠ c := fun heq => hc (heq ▸ hd)
        have hdisj : Disjoint (w₀.below d) (w₀.below c) :=
          h.disjoint_below (hsub d (List.mem_cons_of_mem c hd))
            (hsub c List.mem_cons_self) hne
        rw [slots_clear_of_notMem (Set.disjoint_left.mp hdisj hn)]
        exact hw d (List.mem_cons_of_mem c hd) n hn
      have htail := ih (fun d hd => hsub d (List.mem_cons_of_mem c hd)) hcs
        (fun d hd => hfree d (List.mem_cons_of_mem c hd)) (w.clear (w₀.below c)) hrest
      have hunion : w₀.below c ∪ {n | ∃ d ∈ cs, n ∈ w₀.below d} =
          {n | ∃ d ∈ c :: cs, n ∈ w₀.below d} := by
        ext n
        simp
      rw [List.foldlM_cons, hfree c List.mem_cons_self w (hw c List.mem_cons_self)]
      refine htail.trans ?_
      rw [clear_clear, hunion]

/-- Freeing a layer of a tree frees all that is below it. -/
theorem freeLayer_eq (depth : ℕ) (hid : id ∈ w₀.live) (hne : id ≠ 0)
    (hdepth : ∀ n ∈ w₀.live, ∀ k, w₀.links.parent^[k] n = id → k < depth)
    (w : Window) (hw : ∀ n ∈ w₀.below id, w.slots n = w₀.slots n) :
    freeLayer depth id w = some (w.clear (w₀.below id)) := by
  -- by induction on the depth; a child has one level less below it
  induction depth generalizing id w with
  | zero => exact absurd (hdepth id hid 0 rfl) (Nat.not_lt_zero 0)
  | succ depth ih =>
      have hself := hw id (Links.self_mem_below hid)
      have hin : (w.slots id).inWindow := by
        rw [hself]
        exact hid
      have hsub (c : ℕ) (hc : c ∈ w₀.links.children id) :
          w₀.below c ⊆ w₀.below id := fun n hn =>
        (h.mem_below_iff hid).mpr (Or.inr ⟨c, hc, hn⟩)
      have hloop := foldlM_freeLayer h (fun c hc => hc) (h.children_nodup id)
        (fun c hc => by
          obtain ⟨hlive, hroot, hparent⟩ := h.of_mem_children hc
          refine ih hlive hroot fun n hn k hk => ?_
          refine Nat.lt_of_succ_lt_succ (hdepth n hn (k + 1) ?_)
          rw [Function.iterate_succ_apply', hk, hparent]) w
        (fun c hc n hn => hw n (hsub c hc hn))
      have hbelow : {n | ∃ c ∈ w₀.links.children id, n ∈ w₀.below c} ∪ {id} =
          w₀.below id := by
        ext n
        rw [below, h.mem_below_iff hid, or_comm]
        rfl
      have hchildren : (w.slots id).childIds = w₀.links.children id := by
        rw [hself]
        rfl
      rw [freeLayer, if_pos hin, hchildren, hloop]
      refine congrArg some ?_
      rw [setSlot_freed, clear_clear, hbelow]

end Free

theorem freeAndDeallocate_eq (hlow : low.Lawful) (h : w.Sound) (hid : id ∈ w.live)
    (hne : id ≠ 0) :
    w.freeAndDeallocate low id = some
      { (w.setChildIds (w.getParent id)
            ((w.slots (w.getParent id)).childIds.erase id)).clear (w.below id) with
        used := w.used.erase id } := by
  have hin : (w.slots id).inWindow := hid
  have hdepth (n : ℕ) (hn : n ∈ w.live) (k : ℕ) (hk : w.links.parent^[k] n = id) :
      k < w.used.card :=
    h.lt_card_of_iterate_eq h.mem_used hne hn hk
  have hparent : w.getParent id ∉ w.below id := h.parent_notMem_below hne
  have hslots : ∀ n ∈ w.below id,
      (w.setChildIds (w.getParent id)
        ((w.slots (w.getParent id)).childIds.erase id)).slots n = w.slots n := by
    intro n hn
    exact slots_setSlot_of_ne fun heq => hparent (heq ▸ hn)
  have hfree := freeLayer_eq h.toRooted w.used.card hid hne hdepth _ hslots
  rw [freeAndDeallocate, if_pos hin]
  simp only [remove_getIndex hlow h hid hne]
  rw [release]
  change (freeLayer w.used.card id _).bind _ = _
  rw [hfree]
  rfl

theorem freeAndDeallocate_sound (hlow : low.Lawful) (h : w.Sound)
    (hid : id ∈ w.live) (hne : id ≠ 0) {w' : Window}
    (hw : w.freeAndDeallocate low id = some w') : w'.Sound := by
  rw [freeAndDeallocate_eq hlow h hid hne] at hw
  obtain rfl := Option.some.inj hw
  set ids := (w.slots (w.getParent id)).childIds.erase id
  have hlive : ((w.setChildIds (w.getParent id) ids).clear (w.below id)).live =
      w.live \ w.below id := by
    rw [live_clear, live_setChildIds]
  refine ⟨?_, ?_⟩
  · change Links.Rooted _ 0
      ((w.setChildIds (w.getParent id) ids).clear (w.below id)).live
    rw [hlive]
    refine h.toRooted.prune hid hne ?_ ?_ ?_
    · intro n hn
      have hclear :=
        slots_clear_of_notMem (w := w.setChildIds (w.getParent id) ids) hn
      have hsame : (w.setChildIds (w.getParent id) ids).links.parent n =
          w.links.parent n := congrFun parent_setChildIds n
      rw [← hsame]
      exact congrArg Slot.parentId hclear
    · intro n hn
      have hclear :=
        slots_clear_of_notMem (w := w.setChildIds (w.getParent id) ids) hn
      refine (congrArg Slot.childIds hclear).trans ?_
      by_cases hp : n = w.getParent id
      · rw [hp]
        exact children_setChildIds_self
      · refine (children_setChildIds_of_ne hp).trans (List.erase_of_not_mem ?_).symm
        exact fun hmem => hp ((h.mem_children_iff hid hne).mp hmem)
    · intro n hn
      exact congrArg Slot.childIds (slots_clear_of_mem hn)
  · intro n hn
    change n ∈ ((w.setChildIds (w.getParent id) ids).clear (w.below id)).live at hn
    rw [hlive] at hn
    have hnid : n ≠ id := by
      rintro rfl
      exact hn.2 (Links.self_mem_below hid)
    exact Finset.mem_erase_of_ne_of_mem hnid (h.mem_used n hn.1)

theorem freeAndDeallocate_isSome_iff (hlow : low.Lawful) (h : w.Sound)
    (hne : id ≠ 0) : (w.freeAndDeallocate low id).isSome ↔ id ∈ w.live := by
  by_cases hin : (w.slots id).inWindow
  · rw [freeAndDeallocate_eq hlow h hin hne]
    exact iff_of_true rfl hin
  · rw [freeAndDeallocate, if_neg hin]
    exact iff_of_false Bool.false_ne_true hin

end Window

/-! ## Runs -/

/-- A layer is only moved within its parent, and the view is not moved or
freed. -/
def LayerOp.KeepsParent (w : Window) : LayerOp → Prop
  | .newLayer _ _ => True
  | .move id parent _ => id ≠ 0 ∧ parent = w.getParent id
  | .free id => id ≠ 0

/-- The layers that an operation is given are live. -/
def LayerOp.OnLive (w : Window) : LayerOp → Prop
  | .newLayer parent _ => parent ∈ w.live
  | .move id parent _ => id ∈ w.live ∧ parent ∈ w.live
  | .free id => id ∈ w.live

/-- After a run that has stopped, nothing is asked for. -/
def KeepsParent : Option Window → LayerOp → Prop
  | none, _ => True
  | some w, op => op.KeepsParent w

instance LayerOp.decidableKeepsParent (w : Window) :
    (op : LayerOp) → Decidable (op.KeepsParent w)
  | .newLayer _ _ => inferInstanceAs (Decidable True)
  | .move id parent _ =>
      inferInstanceAs (Decidable (id ≠ 0 ∧ parent = w.getParent id))
  | .free id => inferInstanceAs (Decidable (id ≠ 0))

instance decidableKeepsParent :
    (s : Option Window) → (op : LayerOp) → Decidable (KeepsParent s op)
  | none, _ => inferInstanceAs (Decidable True)
  | some w, op => op.decidableKeepsParent w

namespace Window

variable {low : Low} {w w' : Window} {op : LayerOp}

/-- Operations that keep the parents return for live layers. -/
theorem exec_isSome_iff (hlow : low.Lawful) (h : w.Sound) (hop : op.KeepsParent w) :
    (w.exec low op).isSome ↔ op.OnLive w := by
  cases op with
  | newLayer parent i =>
      rw [exec, Option.isSome_map]
      exact newLayer_isSome_iff low w parent i
  | move id parent i => exact move_isSome_iff low w id parent i
  | free id => exact freeAndDeallocate_isSome_iff hlow h hop

theorem exec_sound (hlow : low.Lawful) (h : w.Sound) (hop : op.KeepsParent w)
    (hw : w.exec low op = some w') : w'.Sound := by
  have hlive : op.OnLive w := by
    rw [← exec_isSome_iff hlow h hop, hw]
    rfl
  cases op with
  | newLayer parent i =>
      obtain ⟨⟨w', id⟩, hnew, rfl⟩ := Option.map_eq_some_iff.mp hw
      exact newLayer_sound hlow h hnew
  | move id parent i =>
      obtain ⟨hne, rfl⟩ := hop
      exact move_sound hlow h hne hw
  | free id => exact freeAndDeallocate_sound hlow h hlive hop hw

/-- The layers are a tree, unless the run has stopped. -/
def SoundState (s : Option Window) : Prop := ∀ w ∈ s, w.Sound

theorem step_sound (hlow : low.Lawful) {s : Option Window} (h : SoundState s)
    (hop : KeepsParent s op) : SoundState (step low s op) := by
  intro w' hw'
  obtain ⟨w, hw, hexec⟩ := Option.bind_eq_some_iff.mp hw'
  subst hw
  exact exec_sound hlow (h w rfl) hop hexec

theorem sound_of_run (hlow : low.Lawful) {ops : List LayerOp}
    (hops : AllAllowed (step low) KeepsParent ops (some init)) {w : Window}
    (hw : run (step low) ops (some init) = some w) : w.Sound := by
  have hinit : SoundState (some init) := by
    rintro w ⟨⟩
    exact init_sound
  have hrun : SoundState (run (step low) ops (some init)) :=
    run_invariant (fun s op h hop => step_sound hlow h hop) hinit hops
  exact hrun w hw

/-- As long as layers are only moved within their parents, the layers of a
window are a tree after every part of a run. -/
theorem integrity_of_run (hlow : low.Lawful) {ops : List LayerOp}
    (hops : AllAllowed (step low) KeepsParent ops (some init))
    {part : List LayerOp} (hpart : part <+: ops) {w : Window}
    (hw : run (step low) part (some init) = some w) : w.Integrity := by
  obtain ⟨rest, rfl⟩ := hpart
  have hallowed := ((allAllowed_append part rest (some init)).mp hops).1
  exact (sound_of_run hlow hallowed hw).toConsistent

end Window

/-! ## Two children of the view -/

/-- Arrays as lists, and a free list that gives the next id. -/
def listLow : Low where
  insert l i v := l.insertIdx i.toNat v
  remove l i := l.eraseIdx i.toNat
  move l i j :=
    match l[i.toNat]? with
    | some v => (l.eraseIdx i.toNat).insertIdx j.toNat v
    | none => l
  find l v := if v ∈ l then l.idxOf v else -1
  alloc used := used.sup (fun id => id) + 1

theorem listLow_lawful : listLow.Lawful where
  insert_eq _ _ _ _ _ := rfl
  remove_eq _ _ _ _ := rfl
  move_eq l i j v _ hv _ _ := by simp only [listLow, hv]
  find_eq l v hv := if_pos hv
  alloc_notMem used hmem :=
    absurd (Finset.le_sup (f := fun id => id) hmem) (Nat.not_succ_le_self _)

namespace Window

/-- Three layers, the third one in the first, which is moved to the other end
of the child list of the view and freed. -/
theorem integrity_of_movedWithin :
    ∃ w, run (step listLow) [.newLayer 0 0, .newLayer 0 1, .newLayer 1 (-1),
        .move 1 0 1, .free 1] (some init) = some w ∧ w.Integrity := by
  have hops : AllAllowed (step listLow) KeepsParent [.newLayer 0 0, .newLayer 0 1,
      .newLayer 1 (-1), .move 1 0 1, .free 1] (some init) := by decide
  have hsome : (run (step listLow) [.newLayer 0 0, .newLayer 0 1, .newLayer 1 (-1),
      .move 1 0 1, .free 1] (some init)).isSome := by decide
  obtain ⟨w, hw⟩ := Option.isSome_iff_exists.mp hsome
  exact ⟨w, hw, integrity_of_run listLow_lawful hops (List.prefix_refl _) hw⟩

/-- The first of two children of the view is moved to the second one: it is in
the child list of that, and its parent is still the view. -/
theorem movedToSibling_not_integrity :
    ∃ w, run (step listLow) [.newLayer 0 0, .newLayer 0 1, .move 1 2 0]
        (some init) = some w ∧
      (w.slots 1).parentId = 0 ∧ (w.slots 0).childIds = [2] ∧
      (w.slots 2).childIds = [1] ∧ ¬ w.Integrity := by
  have hslots : (run (step listLow) [.newLayer 0 0, .newLayer 0 1, .move 1 2 0]
      (some init)).map (fun w => (w.slots 1, w.slots 0, w.slots 2)) =
      some (⟨true, 0, []⟩, ⟨true, 0, [2]⟩, ⟨true, 0, [1]⟩) := by decide
  obtain ⟨w, hw, heq⟩ := Option.map_eq_some_iff.mp hslots
  simp only [Prod.mk.injEq] at heq
  obtain ⟨h1, h0, h2⟩ := heq
  refine ⟨w, hw, by rw [h1], by rw [h0], by rw [h2], ?_⟩
  intro hintegrity
  have hlive : 1 ∈ w.live := by simp [live, h1]
  have hmem := hintegrity.mem_children hlive (by decide)
  simp [links, getParent, h1, h0] at hmem

end Window

/-!
## The tree that a window is laid out as

Layouts go over the tree of a layer by its child lists.  As long as the layers of
a window are a tree, the tree of the view has every live layer once, so its ids
are different ones.
-/

namespace Window

variable (settings : ℕ → Layer) (layouts : ℕ → Layout)

/-- The tree below a layer, as deep as the given number of levels. -/
def tree (w : Window) : ℕ → ℕ → LayerTree
  | 0, id => .node { settings id with id := id } (layouts id) []
  | depth + 1, id =>
      .node { settings id with id := id } (layouts id)
        ((w.slots id).childIds.map (w.tree depth))

/-- The tree of the view. -/
def viewTree (w : Window) : LayerTree :=
  w.tree settings layouts (w.used.card + 1) 0

variable {w : Window} {id depth : ℕ} (h : w.Sound)

/-- The tree has the layers below the given one, each of them once. -/
structure Spans (w : Window) (id : ℕ) (t : LayerTree) : Prop where
  mem_ids : ∀ i, i ∈ t.ids ↔ i ∈ w.below id
  nodup : t.ids.Nodup

section Spans

include h

theorem spans_succ (hid : id ∈ w.live)
    (hchildren : ∀ c ∈ w.links.children id,
      w.Spans c (w.tree settings layouts depth c)) :
    w.Spans id (w.tree settings layouts (depth + 1) id) := by
  have hids : (w.tree settings layouts (depth + 1) id).ids =
      id :: (w.links.children id).flatMap
        fun c => (w.tree settings layouts depth c).ids := by
    rw [tree, ids_node, List.flatMap_map]
    rfl
  constructor
  · intro i
    rw [hids, List.mem_cons, List.mem_flatMap, below, h.mem_below_iff hid]
    refine or_congr Iff.rfl (exists_congr fun c => and_congr_right fun hc => ?_)
    exact (hchildren c hc).mem_ids i
  · rw [hids, List.nodup_cons, List.nodup_flatMap]
    refine ⟨?_, fun c hc => (hchildren c hc).nodup, ?_⟩
    · intro hmem
      obtain ⟨c, hc, hself⟩ := List.mem_flatMap.mp hmem
      exact h.notMem_below_child hid hc (((hchildren c hc).mem_ids id).mp hself)
    · refine (h.children_nodup id).imp_of_mem fun {c d} hc hd hne => ?_
      intro i hi hi'
      exact Set.disjoint_left.mp (h.disjoint_below hc hd hne)
        (((hchildren c hc).mem_ids i).mp hi) (((hchildren d hd).mem_ids i).mp hi')

theorem spans_tree (hid : id ∈ w.live) (hne : id ≠ 0)
    (hdepth : ∀ n ∈ w.live, ∀ k, w.links.parent^[k] n = id → k < depth) :
    w.Spans id (w.tree settings layouts depth id) := by
  induction depth generalizing id with
  | zero => exact absurd (hdepth id hid 0 rfl) (Nat.not_lt_zero 0)
  | succ depth ih =>
      refine spans_succ settings layouts h hid fun c hc => ?_
      obtain ⟨hlive, hroot, hparent⟩ := h.of_mem_children hc
      refine ih hlive hroot fun n hn k hk => ?_
      refine Nat.lt_of_succ_lt_succ (hdepth n hn (k + 1) ?_)
      rw [Function.iterate_succ_apply', hk, hparent]

/-- The tree of the view has every live layer once. -/
theorem viewTree_spec :
    (w.viewTree settings layouts).ids.Nodup ∧
      ∀ i, i ∈ (w.viewTree settings layouts).ids ↔ i ∈ w.live := by
  have hspans : w.Spans 0 (w.viewTree settings layouts) := by
    refine spans_succ settings layouts h h.root_mem fun c hc => ?_
    obtain ⟨hlive, hroot, -⟩ := h.of_mem_children hc
    exact spans_tree settings layouts h hlive hroot fun n hn k hk =>
      h.lt_card_of_iterate_eq h.mem_used hroot hn hk
  refine ⟨hspans.nodup, fun i => (hspans.mem_ids i).trans ?_⟩
  exact ⟨fun hi => hi.1, fun hi => ⟨hi, h.reaches i hi⟩⟩

end Spans

/-- After every run in which layers are only moved within their parents, the
tree that is laid out has every live layer once. -/
theorem viewTree_of_run {low : Low} (hlow : low.Lawful) {ops : List LayerOp}
    (hops : AllAllowed (step low) KeepsParent ops (some init))
    (hw : run (step low) ops (some init) = some w) :
    (w.viewTree settings layouts).ids.Nodup ∧
      ∀ i, i ∈ (w.viewTree settings layouts).ids ↔ i ∈ w.live :=
  viewTree_spec settings layouts (sound_of_run hlow hops hw)

end Window

end LuaAttic.Layerlib
