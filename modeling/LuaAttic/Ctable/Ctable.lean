import Mathlib.Data.Rat.Floor
import LuaAttic.Support.Iteration
import LuaAttic.Support.Program

/-!
# Hash tables in an array (`ctable.lua`)

The entries are kept in the order of their hashes, from the slots on that these are scaled
to.  Twice as many slots are allocated as the size asks for, so that entries can be moved
on.  A slot is free when its hash is `HASH_MAX`.

Numbers are exact.  Reading past the slots is an error here; in the source it is not
checked.
-/

namespace LuaAttic.Ctable

open LuaAttic.Support
open MonadExcept (ofExcept)

/-- `HASH_MAX` -/
def hashMax : ℕ := 0xFFFFFFFF

/-- The parameters of a table; keys are compared byte by byte. -/
structure Params (K : Type) where
  hashFn : K → ℕ
  initialSize : ℚ := 8
  maxOccupancyRate : ℚ := 9 / 10
  minOccupancyRate : ℚ := 0

structure Entry (K V : Type) where
  hash : ℕ
  key : K
  value : V

/-- The slots, of which there are `count`, and the fields that change. -/
structure CTable (K V : Type) where
  entries : ℕ → Entry K V
  size : ℚ
  occupancy : ℕ
  maxDisplacement : ℕ

inductive Failure
  /-- `key is already present in ctable` -/
  | keyPresent
  /-- `key not found in ctable` -/
  | keyNotFound
  /-- the assertions on the hash in `add` -/
  | badHash
  /-- the assertion on the size in `resize` -/
  | badSize
  /-- the assertions on the entry in `remove_ptr` -/
  | badEntry
  /-- a slot is read that is not there -/
  | outOfBounds
  /-- an entry that is moved makes the table grow again -/
  | growsAgain
  deriving DecidableEq

/-- `updates_allowed` -/
inductive Updates
  | none
  | allowed
  | required
  deriving DecidableEq

/-- `hash_to_index(hash, size / HASH_MAX)` -/
def hashToIndex (size : ℚ) (hash : ℕ) : ℕ := ⌊hash * (size / hashMax) + 1 / 2⌋.toNat

section

variable {K V : Type}

/-- `occupancy_hi` -/
def Params.occupancyHi (o : Params K) (size : ℚ) : ℤ := ⌈size * o.maxOccupancyRate⌉

/-- `occupancy_lo` -/
def Params.occupancyLo (o : Params K) (size : ℚ) : ℤ := ⌊size * o.minOccupancyRate⌋

namespace CTable

/-- How many slots are allocated. -/
def count (t : CTable K V) : ℕ := ⌊t.size * 2⌋.toNat

/-- `entries[index]` -/
def read (t : CTable K V) (index : ℕ) : Except Failure (Entry K V) :=
  if index < t.count then .ok (t.entries index) else .error .outOfBounds

/-- A loop that goes on from a slot while a condition holds. -/
def skipWhile (t : CTable K V) (cond : Entry K V → Bool) (index : ℕ) : Except Failure ℕ :=
  if index < t.count then
    if cond (t.entries index) then t.skipWhile cond (index + 1) else .ok index
  else .error .outOfBounds
termination_by t.count - index

/-- `entries[index] = entry` -/
def setEntry (t : CTable K V) (index : ℕ) (entry : Entry K V) : CTable K V :=
  { t with entries := Function.update t.entries index entry }

/-- `max_displacement = max(max_displacement, displacement)` -/
def displace (t : CTable K V) (displacement : ℕ) : CTable K V :=
  { t with maxDisplacement := max t.maxDisplacement displacement }

/-- The entries from `index` on are moved by one, up to a free slot. -/
def moveUp (t : CTable K V) (index : ℕ) : ℕ → CTable K V
  | 0 => t
  | empty + 1 =>
      if index < empty + 1 then
        let entry := t.entries empty
        ((t.setEntry (empty + 1) entry).displace (empty + 1 - hashToIndex t.size entry.hash)).moveUp
          index empty
      else t

/-- The slot `index` is free now: the entries after it that are not at home are moved back. -/
def moveDown (t : CTable K V) (index : ℕ) : Except Failure (CTable K V) :=
  if h : index + 1 < t.count then
    let entry := t.entries (index + 1)
    if entry.hash = hashMax ∨ hashToIndex t.size entry.hash = index + 1 then .ok t
    else
      ((t.setEntry index entry).setEntry (index + 1) { entry with hash := hashMax }).moveDown
        (index + 1)
  else .error .outOfBounds
termination_by t.count - index
decreasing_by
  change t.count - (index + 1) < t.count - index
  omega

end CTable

variable [DecidableEq K]

/-- `lookup_ptr(key)` -/
def lookupPtr (o : Params K) (t : CTable K V) (key : K) : Except Failure (Option ℕ) := do
  let hash := o.hashFn key
  let start := hashToIndex t.size hash
  let entry ← t.read start
  -- the fast path, in case it is found directly
  if hash = entry.hash ∧ key = entry.key then return some start
  else
    let index ← t.skipWhile (fun e => e.hash < hash) start
    -- the loop ends at the key or after the hash
    let index ← t.skipWhile (fun e => e.hash = hash ∧ key ≠ e.key) index
    if (t.entries index).hash = hash then return some index else return none

abbrev Program (K V : Type) := EStateM Failure (CTable K V)

/-- `insert(hash, key, value, updates_allowed)`, after the table has grown. -/
def insertEntry (hash : ℕ) (key : K) (value : V) (updates : Updates) : Program K V ℕ := do
  let t ← get
  let start := hashToIndex t.size hash
  let index ← ofExcept (t.skipWhile (fun e => e.hash < hash) start)
  let index ← ofExcept (t.skipWhile (fun e => e.hash = hash ∧ key ≠ e.key) index)
  (if (t.entries index).hash = hash then
      if updates = .none then throw .keyPresent
      else do
        set (t.setEntry index { t.entries index with key := key, value := value })
        return index
    else
      if updates = .required then throw .keyNotFound
      else do
        let t := t.displace (index - start)
        let t ← (if (t.entries index).hash ≠ hashMax then do
            let empty ← ofExcept (t.skipWhile (fun e => e.hash ≠ hashMax) index)
            return t.moveUp index empty
          else return t)
        set { t.setEntry index ⟨hash, key, value⟩ with occupancy := t.occupancy + 1 }
        return index)

/-- An entry of the old slots is put into the new ones. -/
def reinsert (o : Params K) (entry : Entry K V) : Program K V Unit := do
  let t ← get
  (if entry.hash = hashMax then pure ()
    else if (t.occupancy + 1 : ℤ) > o.occupancyHi t.size then throw .growsAgain
    else do
      let _ ← insertEntry entry.hash entry.key entry.value .none)

/-- The loop over the old slots. -/
def reinsertAll (o : Params K) : List (Entry K V) → Program K V Unit
  | [] => pure ()
  | entry :: rest => do
      reinsert o entry
      reinsertAll o rest

/-- New slots, which are all free. -/
def blank [Inhabited K] [Inhabited V] (size : ℚ) : CTable K V where
  entries _ := ⟨hashMax, default, default⟩
  size := size
  occupancy := 0
  maxDisplacement := 0

variable [Inhabited K] [Inhabited V]

/-- `resize(size)` -/
def resize (o : Params K) (size : ℚ) : Program K V Unit := do
  let t ← get
  (if ¬ size ≥ t.occupancy / o.maxOccupancyRate then throw .badSize
    else do
      set (blank size : CTable K V)
      reinsertAll o ((List.range t.count).map t.entries))

/-- `new(params)` -/
def new (o : Params K) : Program K V Unit := do
  set (blank 0 : CTable K V)
  resize o o.initialSize

/-- `insert(hash, key, value, updates_allowed)` -/
def insert (o : Params K) (hash : ℕ) (key : K) (value : V) (updates : Updates) :
    Program K V ℕ := do
  let t ← get
  (if (t.occupancy + 1 : ℤ) > o.occupancyHi t.size then resize o (t.size * 2) else pure ())
  insertEntry hash key value updates

/-- `add(key, value, updates_allowed)` -/
def add (o : Params K) (key : K) (value : V) (updates : Updates) : Program K V ℕ :=
  let hash := o.hashFn key
  if hash < hashMax then insert o hash key value updates else throw .badHash

/-- `update(key, value)` -/
def update (o : Params K) (key : K) (value : V) : Program K V ℕ := add o key value .required

/-- `remove_ptr(entry)` -/
def removePtr (o : Params K) (index : ℕ) : Program K V Unit := do
  let t ← get
  (if ¬ ((index : ℚ) ≤ t.size + t.maxDisplacement ∧ (t.entries index).hash ≠ hashMax) then
      throw .badEntry
    else do
      let t := { t.setEntry index { t.entries index with hash := hashMax } with
        occupancy := t.occupancy - 1 }
      let t ← ofExcept (t.moveDown index)
      set t
      (if (t.occupancy : ℤ) < o.occupancyLo t.size then resize o (t.size / 2) else pure ()))

/-- `remove(key, missing_allowed)` -/
def remove (o : Params K) (key : K) (missingAllowed : Bool) : Program K V Bool := do
  let t ← get
  let ptr ← ofExcept (lookupPtr o t key)
  match ptr with
  | none => if missingAllowed then return false else throw .keyNotFound
  | some index => do
      removePtr o index
      return true

/-! ## Going through a table -/

/-- The variables of the loop of `selfcheck`. -/
structure Checked where
  prev : ℕ := 0
  occupancy : ℕ := 0
  maxDisplacement : ℕ := 0

/-- One slot; `fail` is any of the errors that the checks raise. -/
def checkSlot (o : Params K) (t : CTable K V) (c : Checked) (i : ℕ) : Option Checked :=
  let entry := t.entries i
  if entry.hash ≠ hashMax then
    let index := hashToIndex t.size entry.hash
    if o.hashFn entry.key = entry.hash ∧
        (if c.prev = hashMax then index = i else c.prev ≤ entry.hash) then
      some ⟨entry.hash, c.occupancy + 1, max c.maxDisplacement (i - index)⟩
    else none
  else some { c with prev := entry.hash }

/-- `selfcheck()`: none when a check fails. -/
def selfcheck (o : Params K) (t : CTable K V) : Option Unit := do
  let c ← (List.range t.count).foldlM (checkSlot o t) {}
  guard (c.occupancy = t.occupancy ∧ c.maxDisplacement ≤ t.maxDisplacement)

/-- `next_entry`: the slots after the one before, up to `max_entry`.  The loop reads one slot
more than that. -/
def nextEntry (t : CTable K V) (maxEntry : ℚ) (entry : ℤ) : Except Failure (Option ℤ) :=
  if (entry : ℚ) ≤ maxEntry then
    let next := (entry + 1).toNat
    if h : next < t.count ∧ 0 ≤ entry + 1 then
      if (t.entries next).hash ≠ hashMax then .ok (some (entry + 1))
      else nextEntry t maxEntry (entry + 1)
    else .error .outOfBounds
  else .ok none
termination_by (t.count - entry).toNat
decreasing_by omega

/-- `iterate()`: the function that the loop calls with the entry before. -/
def iterate (t : CTable K V) (entry : Option ℤ) (_ : Unit) :
    Except Failure (Option ℤ × Unit) :=
  (nextEntry t (t.size + t.maxDisplacement) (entry.getD (-1))).map fun e => (e, ())

end

end LuaAttic.Ctable
