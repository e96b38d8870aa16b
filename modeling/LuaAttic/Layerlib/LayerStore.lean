import LuaAttic.Support.RootedTree
import LuaAttic.Support.Run
import LuaAttic.Terra.Basic

/-!
# The layers of a window (`layerlib_layer.t`)

A window keeps its layers in an array with a list of free slots.  A layer holds
the id of its parent and the ids of its children; the layer with id zero is the
view that all others are in, and its own parent.  The arrays of ids and the free
list are of another module, `low`.
-/

namespace LuaAttic.Layerlib

open LuaAttic.Support LuaAttic.Terra

/-! ## What is used of `low` -/

/-- Operations on arrays of ids, and the next id that the free list gives. -/
structure Low where
  insert : List ℕ → Int → ℕ → List ℕ
  remove : List ℕ → Int → List ℕ
  move : List ℕ → Int → Int → List ℕ
  find : List ℕ → ℕ → Int
  alloc : Finset ℕ → ℕ

/-- The operations do what they are for; nothing is said of indices that are
out of range. -/
structure Low.Lawful (low : Low) : Prop where
  insert_eq : ∀ l i v, 0 ≤ i → i ≤ l.length →
    low.insert l i v = l.insertIdx i.toNat v
  remove_eq : ∀ l i, 0 ≤ i → i < l.length → low.remove l i = l.eraseIdx i.toNat
  move_eq : ∀ l i j v, 0 ≤ i → l[i.toNat]? = some v → 0 ≤ j → j < l.length →
    low.move l i j = (l.eraseIdx i.toNat).insertIdx j.toNat v
  find_eq : ∀ l v, v ∈ l → low.find l v = l.idxOf v
  alloc_notMem : ∀ used, low.alloc used ∉ used

/-! ## Windows -/

/-- What a layer holds of the tree. -/
structure Slot where
  /-- `window` and `lib` are set -/
  inWindow : Bool
  parentId : ℕ
  childIds : List ℕ
  deriving DecidableEq

/-- `Layer:init` -/
def Slot.init : Slot := ⟨true, 0, []⟩

/-- What `Layer:free` leaves. -/
def Slot.freed : Slot := ⟨false, 0, []⟩

structure Window where
  slots : ℕ → Slot
  /-- the ids that are not in the free list -/
  used : Finset ℕ

namespace Window

variable (low : Low) (w : Window)

def init : Window where
  slots := Function.update (fun _ => Slot.freed) 0 Slot.init
  used := {0}

def setSlot (id : ℕ) (slot : Slot) : Window :=
  { w with slots := Function.update w.slots id slot }

def setChildIds (id : ℕ) (childIds : List ℕ) : Window :=
  w.setSlot id { w.slots id with childIds := childIds }

def getChildCount (id : ℕ) : Int := (w.slots id).childIds.length

def getParent (id : ℕ) : ℕ := (w.slots id).parentId

def getIndex (id : ℕ) : Int := low.find (w.slots (w.getParent id)).childIds id

/-- `Window:new_layer`, also with the id of the layer -/
def newLayer (parentId : ℕ) (i : Int) : Option (Window × ℕ) :=
  if (w.slots parentId).inWindow then
    let id := low.alloc w.used
    let w := { w with used := insert id w.used }
    let w := w.setSlot id { Slot.init with parentId := parentId }
    let count := w.getChildCount parentId
    let i := if i < 0 then count - i + 1 else i
    let i := clamp i 0 count
    some (w.setChildIds parentId (low.insert (w.slots parentId).childIds i id), id)
  else none

/-- `Layer:free`, where the calls are nested no deeper than the given number.
A layer that is in itself is called without end. -/
def freeLayer : ℕ → ℕ → Window → Option Window
  | 0, _, _ => none
  | depth + 1, id, w =>
      if (w.slots id).inWindow then do
        let w ← (w.slots id).childIds.foldlM (fun w c => freeLayer depth c w) w
        return w.setSlot id Slot.freed
      else none

/-- The free list frees a layer that it takes back.  In a tree the calls are not
nested deeper than there are layers. -/
def release (id : ℕ) : Option Window := do
  let w ← freeLayer w.used.card id w
  return { w with used := w.used.erase id }

/-- `Layer:free_and_deallocate` -/
def freeAndDeallocate (id : ℕ) : Option Window :=
  if (w.slots id).inWindow then
    let parent := w.getParent id
    let w := w.setChildIds parent
      (low.remove (w.slots parent).childIds (w.getIndex low id))
    w.release id
  else none

/-- `Layer:move` -/
def move (id parent : ℕ) (i : Int) : Option Window :=
  if (w.slots id).inWindow ∧ (w.slots parent).inWindow then
    if parent = w.getParent id then
      let i := clamp i 0 (w.getChildCount parent - 1)
      some (w.setChildIds parent
        (low.move (w.slots parent).childIds (w.getIndex low id) i))
    else
      let i := clamp i 0 (w.getChildCount parent)
      let old := w.getParent id
      let w := w.setChildIds old
        (low.remove (w.slots old).childIds (w.getIndex low id))
      some (w.setChildIds parent (low.insert (w.slots parent).childIds i id))
  else none

end Window

/-- What is done to the layers of a window. -/
inductive LayerOp
  | newLayer (parent : ℕ) (i : Int)
  | move (id parent : ℕ) (i : Int)
  | free (id : ℕ)

/-- Nothing is returned when an assertion fails or a layer is used that is not
in the window. -/
def Window.exec (low : Low) (w : Window) : LayerOp → Option Window
  | .newLayer parent i => (w.newLayer low parent i).map Prod.fst
  | .move id parent i => w.move low id parent i
  | .free id => w.freeAndDeallocate low id

/-- A run stops where an operation returns nothing. -/
def Window.step (low : Low) (w : Option Window) (op : LayerOp) : Option Window :=
  w.bind fun w => w.exec low op

/-! ## The tree of layers -/

namespace Window

variable (w : Window)

def links : Links ℕ := ⟨w.getParent, fun id => (w.slots id).childIds⟩

/-- The layers that are initialized and not freed. -/
def live : Set ℕ := {id | (w.slots id).inWindow}

/-- Every live layer but the view is in one child list, once, and that is the
list of its parent; the ids in child lists are those of live layers; and the
parents of a live layer lead to the view. -/
def Integrity : Prop := w.links.Consistent 0 w.live

/-- The layers are a tree, and the free list has none of them. -/
structure Sound : Prop extends w.links.Rooted 0 w.live where
  mem_used : ∀ id ∈ w.live, id ∈ w.used

/-! ## Changing slots -/

section Slots

variable {w} {id i : ℕ} {slot : Slot} {childIds : List ℕ}

@[simp] theorem slots_setSlot_self : (w.setSlot id slot).slots id = slot := by
  simp [setSlot]

theorem slots_setSlot_of_ne (h : i ≠ id) :
    (w.setSlot id slot).slots i = w.slots i := by
  simp [setSlot, h]

theorem live_setChildIds : (w.setChildIds id childIds).live = w.live := by
  ext i
  by_cases h : i = id
  · subst h
    simp [live, setChildIds]
  · simp only [live, setChildIds, Set.mem_ofPred_eq, slots_setSlot_of_ne h]

theorem parent_setChildIds :
    (w.setChildIds id childIds).links.parent = w.links.parent := by
  funext i
  by_cases h : i = id
  · subst h
    simp [links, getParent, setChildIds]
  · simp only [links, getParent, setChildIds, slots_setSlot_of_ne h]

@[simp] theorem children_setChildIds_self :
    (w.setChildIds id childIds).links.children id = childIds := by
  simp [links, setChildIds]

theorem children_setChildIds_of_ne (h : i ≠ id) :
    (w.setChildIds id childIds).links.children i = w.links.children i := by
  simp only [links, setChildIds, slots_setSlot_of_ne h]

end Slots

end Window

end LuaAttic.Layerlib
