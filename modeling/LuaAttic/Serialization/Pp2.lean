import Mathlib.Data.Finset.Card
import Mathlib.Data.Rat.Floor
import LuaAttic.Lua.Chars
import LuaAttic.Lua.Tables
import LuaAttic.Support.Extended
import LuaAttic.Support.Sorting

/-!
# Printing tables (`pp2.lua`)

A value is written as source text.  The tables that are being written are marked in
`parents`, and the keys of a table are sorted by what is written for them, with the same
marks.  The modules that the file requires are not in the sources: `memoize`, `concat` and
the checks of options are as they are documented, and what `pformat` formats is given.

The tables are those of a finite graph, without metatables.
-/

namespace LuaAttic.Serialization

open LuaAttic.Lua LuaAttic.Support

/-! ## Values -/

inductive Value (T : Type)
  | nil
  | boolean (b : Bool)
  | number (x : Extended ℚ)
  | string (s : Bytes)
  | table (t : T)
  deriving DecidableEq

/-- The tables: neither nil nor nan is a key, and nil is no value. -/
structure Heap (T : Type) where
  tables : T → Table (Value T) (Value T)
  key_ne_nil : ∀ t, .nil ∉ (tables t).keys
  key_ne_nan : ∀ t, .number .nan ∉ (tables t).keys
  ne_nil : ∀ t k, (tables t).get k ≠ some .nil

/-- The functions of the module `pformat`; only strings are identifiers. -/
structure Formatter where
  isIdentifier : Bytes → Bool
  formatString : Bytes → UInt8 → Bytes
  formatNumber : Extended ℚ → Bytes

variable {T : Type}

/-- The place of `type(v)` in the order of the names. -/
def Value.type : Value T → ℕ
  | .boolean _ => 0
  | .nil => 1
  | .number _ => 2
  | .string _ => 3
  | .table _ => 4

/-- `t[k]` -/
def Heap.index (heap : Heap T) (t : T) (k : Value T) : Value T :=
  ((heap.tables t).get k).getD .nil

/-- The values that `ipairs(t)` goes through. -/
def Heap.ipairs (heap : Heap T) (t : T) : List (Value T) :=
  let elements := (List.range (heap.tables t).keys.length).map fun i =>
    heap.index t (.number (.num (i + 1)))
  elements.takeWhile fun v =>
    match v with
    | .nil => false
    | _ => true

/-! ## Options -/

inductive Quote
  | double
  | single
  deriving DecidableEq

def Quote.byte : Quote → UInt8
  | .double => 34
  | .single => 39

inductive Cycles
  | skip
  | abort
  | replace
  deriving DecidableEq

inductive Indent
  | inline
  | tree
  | compact
  deriving DecidableEq

/-- The options that are used; a function that is a filter does nothing else. -/
structure Options (T : Type) where
  maxdepth : ℕ := 100
  cycles : Cycles := .replace
  cycleValue : Bytes := lit "--cycle--"
  quote : Quote := .single
  splitLines : Bool := true
  sorted : Bool := true
  space : Bytes := lit "  "
  tab : Bytes := lit "   "
  endComma : Bool := false
  indent : Indent := .inline
  maxcount : ℕ := 2
  /-- whether `filter(k, v, parents)` is true; `pass` returns the key -/
  filter : Value T → Value T → Finset T → Bool := fun k _ _ =>
    match k with
    | .nil => false
    | .boolean b => b
    | _ => true

/-! ## Programs -/

inductive Failure (T : Type)
  /-- `cycle detected at level %d (key '%s', value '%s')` -/
  | cycleDetected (level : ℕ) (k v : Value T)
  /-- `maximum depth %d reached` -/
  | maximumDepth (maxdepth : ℕ)
  /-- `invalid order function for sorting` -/
  | invalidOrder

/-- A call of `write_table`, of which the source keeps no record: whether it is to compare
keys, whether the table is marked, and whether another call for it has not ended. -/
structure Entry (T : Type) where
  table : T
  compared : Bool
  marked : Bool
  inside : Bool

/-- The variables of `pwrite` and `pformat_recursive`, the marks that all of them share, and
the calls of `write_table`: all of them, and those that have not ended, latest first. -/
structure State (T : Type) where
  parents : Finset T
  size : ℕ
  indent : ℕ
  buf : Bytes
  lines : List Bytes
  reprs : List (Value T × Bytes)
  entries : List (Entry T)
  writing : List T

def State.initial : State T where
  parents := ∅
  size := 0
  indent := 0
  buf := []
  lines := []
  reprs := []
  entries := []
  writing := []

abbrev Writer (T : Type) := EStateM (Failure T) (State T)

section Writing

variable (pf : Formatter) (o : Options T)

def Options.comma : Bytes := lit "," ++ o.space

def Options.equals : Bytes := o.space ++ lit "=" ++ o.space

def write (s : Bytes) : Writer T Unit :=
  modify fun st => { st with size := st.size + s.length, buf := st.buf ++ s }

def writeline : Writer T Unit :=
  modify fun st => { st with size := 0, buf := [], lines := st.lines ++ [st.buf] }

/-- `indentinline(count)`; a count is not divided by zero. -/
def indentinline (count : Option ℕ) : Writer T Unit := do
  let st ← get
  (if o.indent = .inline ∧ ∀ n ∈ count, o.maxcount ≠ 0 ∧ n % o.maxcount = 0 then do
      writeline
      write (List.replicate st.indent 32)
    else pure ())

def indenttree (depth : ℕ) : Writer T Unit :=
  if o.indent = .tree then do
    writeline
    write (rep o.tab depth)
  else pure ()

/-! ## Strings -/

/-- `write_str`, the function for a string that is not split. -/
def writeStr (s : Bytes) : Writer T Unit := do
  write [o.quote.byte]
  write (pf.formatString s o.quote.byte)
  write [o.quote.byte]

def isNewline (c : UInt8) : Bool := c == 10 || c == 13

/-- A string is split after the newlines that are followed by something else. -/
def splitAtLines : Bytes → List Bytes
  | [] => [[]]
  | c :: s =>
      let pieces := splitAtLines s
      if isNewline c ∧ ∃ d ∈ s.head?, ¬ isNewline d then [c] :: pieces
      else pieces.modifyHead (c :: ·)

def writePieces (depth : ℕ) : List Bytes → Writer T Unit
  | [] => pure ()
  | [s] => writeStr pf o s
  | s :: rest => do
      writeStr pf o s
      write (lit "..")
      indenttree o depth
      indentinline o none
      writePieces depth rest

def writeString (depth : ℕ) (s : Bytes) : Writer T Unit :=
  if o.splitLines then writePieces pf o depth (splitAtLines s) else writeStr pf o s

end Writing

/-! ## Values and pairs -/

section Tables

variable [DecidableEq T] (pf : Formatter) (o : Options T) (heap : Heap T)
  (sort : List (Value T) → Sorting (Value T))

/-- `parents[v]` -/
def State.marks (st : State T) : Value T → Bool
  | .table t => t ∈ st.parents
  | _ => false

variable (writeTable : Bool → T → Writer T Unit) (depth : ℕ)

/-- `write_value(v)`, which may be called to compare keys. -/
def writeValue (compared : Bool) : Value T → Writer T Unit
  | .nil => write (lit "nil")
  | .boolean b => write (if b then lit "true" else lit "false")
  | .number x => write (pf.formatNumber x)
  | .string s => writeString pf o depth s
  | .table t => writeTable compared t

/-- The key of a pair; a nil key signals an implicit key. -/
def writeKey (k : Value T) : Writer T Unit :=
  match k with
  | .nil => pure ()
  | .string s =>
      if pf.isIdentifier s then do
        write s
        write o.equals
      else do
        write (lit "[")
        writeString pf o depth s
        write (lit "]")
        write o.equals
  | k => do
      write (lit "[")
      writeValue pf o writeTable depth false k
      write (lit "]")
      write o.equals

/-- The part of `write_pair` that writes. -/
def writeItem (k v : Value T) (first : Bool) (count : ℕ) : Writer T Unit := do
  (if first then pure () else do
    write o.comma
    indentinline o (some count))
  indenttree o depth
  writeKey pf o writeTable depth k
  writeValue pf o writeTable depth false v

/-- The cycle value stands for what is marked. -/
def State.replaced (st : State T) (v : Value T) : Value T :=
  if st.marks v then .string o.cycleValue else v

def writePair (k v : Value T) (first : Bool) (count : ℕ) : Writer T Bool := do
  let st ← get
  (if st.marks k || st.marks v then
      match o.cycles with
      | .abort => throw (.cycleDetected depth k v)
      | .skip => return false
      | .replace => do
          writeItem pf o writeTable depth (st.replaced o k) (st.replaced o v) first count
          return true
    else do
      writeItem pf o writeTable depth k v first count
      return true)

/-! ## Comparing keys -/

/-- `pformat_recursive(v, opt, parents, depth, size)`, with the lines and buffer of its own
that it has, and the variables of its own call of `pwrite`. -/
def pformatRecursive (compared : Bool) (v : Value T) : Writer T Bytes := do
  let st ← get
  modify fun st => { st with indent := st.size, buf := [], lines := [], reprs := [] }
  writeValue pf o writeTable depth compared v
  let st' ← get
  modify fun st' => { st' with
    size := st.size
    indent := st.indent
    buf := st.buf
    lines := st.lines
    reprs := st.reprs }
  return (lit "\n").intercalate (st'.lines ++ [st'.buf])

/-- `repr(v)` -/
def repr (v : Value T) : Writer T Bytes := do
  let st ← get
  match st.reprs.lookup v with
  | some s => return s
  | none => do
      let s ← pformatRecursive pf o writeTable depth true v
      modify fun st => { st with reprs := (v, s) :: st.reprs }
      return s

/-- The order function of the keys. -/
def lessThan (t : T) (a b : Value T) : Writer T Bool :=
  if a.type ≠ b.type then return a.type < b.type
  else
    match a, b with
    | .boolean _, .boolean b => return b
    | .table _, .table _ => do
        let ra ← repr pf o writeTable depth a
        let rb ← repr pf o writeTable depth b
        (if ra = rb then do
            let va ← repr pf o writeTable depth (heap.index t a)
            let vb ← repr pf o writeTable depth (heap.index t b)
            return va < vb
          else return ra < rb)
    | .number x, .number y => return x < y
    | .string x, .string y =>
        if pf.isIdentifier x ≠ pf.isIdentifier y then return pf.isIdentifier x
        else return x < y
    | _, _ => return false

/-- `table.sort(keylist, ..)` -/
def sortKeys (t : T) (keylist : List (Value T)) : Writer T (List (Value T)) := do
  match ← (sort keylist).run (lessThan pf o heap writeTable depth t) with
  | some keylist => return keylist
  | none => throw .invalidOrder

/-! ## Tables -/

/-- The variables of the loops of `write_table`. -/
structure Items where
  first : Bool := true
  maxn : Option ℕ := none
  count : ℕ := 0

def Items.next (items : Items) : Items :=
  { items with first := false, count := items.count + 1 }

/-- Is a key in the array part? -/
def Items.implicit (items : Items) (k : Value T) : Bool :=
  match items.maxn, k with
  | some maxn, .number (.num q) => q = ⌊q⌋ ∧ 1 ≤ q ∧ q ≤ maxn
  | _, _ => false

/-- The loop over the array part, from an index on. -/
def writeArray (startIndent : ℕ) : ℕ → List (Value T) → Items → Writer T Items
  | _, [], items => return items
  | k, v :: rest, items => do
      let st ← get
      let items := { items with maxn := some k }
      (if o.filter (.number (.num k)) v st.parents then do
          modify fun st => { st with indent := startIndent }
          let written ← writePair pf o writeTable depth .nil v items.first items.count
          (if written then writeArray startIndent (k + 1) rest items.next else return items)
        else return items)

/-- The loop over keys that are not sorted. -/
def writeKeys (t : T) : List (Value T) → Items → Writer T Items
  | [], items => return items
  | k :: rest, items => do
      let st ← get
      let v := heap.index t k
      (if ¬ items.implicit k ∧ o.filter k v st.parents then do
          let written ← writePair pf o writeTable depth k v items.first items.count
          writeKeys t rest (if written then items.next else items)
        else writeKeys t rest items)

/-- The loop over keys that are sorted. -/
def writeSorted (startIndent : ℕ) (t : T) : List (Value T) → Items → Writer T Items
  | [], items => return items
  | k :: rest, items => do
      modify fun st => { st with indent := startIndent }
      let written ← writePair pf o writeTable depth k (heap.index t k) items.first items.count
      writeSorted startIndent t rest (if written then items.next else items)

/-- The array part and then the other keys. -/
def writeItems (startIndent : ℕ) (t : T) : Writer T Items := do
  let items ← writeArray pf o writeTable depth startIndent 1 (heap.ipairs t) {}
  (if o.sorted then do
      let st ← get
      let keylist := (heap.tables t).keys.filter fun k =>
        ¬ items.implicit k ∧ o.filter k (heap.index t k) st.parents
      let keylist ← sortKeys pf o heap sort writeTable depth t keylist
      writeSorted pf o heap writeTable depth startIndent t keylist items
    else writeKeys pf o heap writeTable depth t (heap.tables t).keys items)

def State.enter (compared : Bool) (t : T) (st : State T) : State T :=
  { st with
    entries := ⟨t, compared, t ∈ st.parents, t ∈ st.writing⟩ :: st.entries
    writing := t :: st.writing }

def State.mark (t : T) (st : State T) : State T := { st with parents := insert t st.parents }

def State.unmark (t : T) (st : State T) : State T := { st with parents := st.parents.erase t }

def State.leave (st : State T) : State T := { st with writing := st.writing.tail }

/-- The end of `write_table`. -/
def closeTable (t : T) (items : Items) : Writer T Unit := do
  (if ¬ items.first ∧ o.endComma then write o.comma else pure ())
  modify (State.unmark t)
  (if items.first then pure () else indenttree o (depth - 1))
  write (lit "\x7d")
  modify State.leave

end Tables

section Formatting

variable [DecidableEq T] (pf : Formatter) (o : Options T) (heap : Heap T)
  (sort : List (Value T) → Sorting (Value T))

/-- `write_table(t)` where so many levels are left. -/
def writeTable : ℕ → Bool → T → Writer T Unit
  | 0, compared, t => do
      modify (State.enter compared t)
      write (lit "\x7b")
      throw (.maximumDepth o.maxdepth)
  | left + 1, compared, t => do
      let depth := o.maxdepth - left
      modify (State.enter compared t)
      write (lit "\x7b")
      let st ← get
      modify (State.mark t)
      let items ← writeItems pf o heap sort (writeTable left) depth st.size t
      closeTable o depth t items

/-- `pformat(v, opt)` -/
def pformat (v : Value T) : EStateM.Result (Failure T) (State T) Bytes :=
  pformatRecursive pf o (writeTable pf o heap sort o.maxdepth) 0 false v State.initial

/-- The calls of `write_table` in a run. -/
def calls : EStateM.Result (Failure T) (State T) Bytes → List (Entry T)
  | .ok _ st => st.entries
  | .error _ st => st.entries

end Formatting

end LuaAttic.Serialization
