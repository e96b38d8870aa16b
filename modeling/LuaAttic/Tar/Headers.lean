import LuaAttic.Lua.Chars
import LuaAttic.Support.Fallible

/-!
# Headers of tar archives (`tar.lua`)

A header is a block of fields at fixed offsets.  It is read from a string, and
written into a buffer that is then given to a function.
-/

namespace LuaAttic.Tar

open LuaAttic.Lua LuaAttic.Support

/-- `blocksize` -/
def blocksize : ℕ := 512

/-- A header table. -/
structure Header where
  name : Option Bytes := none
  mode : Option ℕ := none
  uid : Option ℕ := none
  gid : Option ℕ := none
  size : Option ℕ := none
  mtime : Option ℕ := none
  checksum : Option ℕ := none
  type : Option Bytes := none
  typeflag : Option Bytes := none
  linkname : Option Bytes := none
  magic : Option Bytes := none
  version : Option Bytes := none
  uname : Option Bytes := none
  gname : Option Bytes := none
  devmajor : Option ℕ := none
  devminor : Option ℕ := none
  prefix_ : Option Bytes := none
  deriving DecidableEq, Repr

/-- `typeflags` -/
def typeflags : List (Bytes × Bytes) :=
  [(lit "file", lit "0"),
   (lit "link", lit "1"),
   (lit "symlink", lit "2"),
   (lit "character", lit "3"),
   (lit "block", lit "4"),
   (lit "directory", lit "5"),
   (lit "fifo", lit "6"),
   (lit "contiguous", lit "7"),
   (lit "global_ex_header", lit "g"),
   (lit "next_file_ex_header", lit "x"),
   (lit "long_name", lit "L"),
   (lit "long_linkname", lit "K")]

/-- `typeflag_names` -/
def typeflagNames : List (Bytes × Bytes) :=
  ([0], lit "file") :: typeflags.map Prod.swap

/-! ## Parsing -/

/-- `nullterm(s)`: a nonempty string up to a NUL. -/
def nullterm (s : Bytes) : Option Bytes :=
  let t := s.takeWhile (· ≠ 0)
  if t = [] then none else some t

def isOctalDigit (b : UInt8) : Bool := 0x30 ≤ b && b ≤ 0x37

/-- `octal_tonumber(s)`: spaces can stand around the digits. -/
def octalTonumber (s : Option Bytes) : Option ℕ :=
  s.bind fun s =>
    let digits := ((s.dropWhile isSpace).reverse.dropWhile isSpace).reverse
    if digits ≠ [] ∧ digits.all isOctalDigit then
      some (digits.foldl (fun n b => 8 * n + (b.toNat - 0x30)) 0)
    else none

/-- `checksum(block)`: eight spaces stand for the sum itself. -/
def checksum (block : Bytes) : ℕ :=
  256 + ((sub block 1 148).map UInt8.toNat).sum + ((sub block 157 500).map UInt8.toNat).sum

/-- `zero_filled(block)` -/
def zeroFilled (block : Bytes) : Bool := block.all (· == 0)

/-- `assert(v)` -/
def assert (v : Bool) : Except Error Unit :=
  if v then .ok () else .error .assertionFailed

/-- `parse_header_block(block)` -/
def parseHeaderBlock (block : Bytes) : Except Error Header := do
  let typeflag := sub block 157 157
  let header : Header := {
    name := nullterm (sub block 1 100)
    mode := octalTonumber (nullterm (sub block 101 108))
    uid := octalTonumber (nullterm (sub block 109 116))
    gid := octalTonumber (nullterm (sub block 117 124))
    size := octalTonumber (nullterm (sub block 125 136))
    mtime := octalTonumber (nullterm (sub block 137 148))
    checksum := octalTonumber (nullterm (sub block 149 156))
    type := some ((typeflagNames.lookup typeflag).getD typeflag)
    linkname := nullterm (sub block 158 257)
    magic := nullterm (sub block 258 263)
    version := some (sub block 264 265)
    uname := nullterm (sub block 266 297)
    gname := nullterm (sub block 298 329)
    devmajor := octalTonumber (nullterm (sub block 330 337))
    devminor := octalTonumber (nullterm (sub block 338 345))
    prefix_ := nullterm (sub block 346 500) }
  assert (header.magic = some (lit "ustar") ∨ header.magic = some (lit "ustar "))
  assert (header.version = some (lit "00") ∨ header.version = some (lit " " ++ [0]))
  assert (some (checksum block) = header.checksum)
  return header

/-- `padding_size(filesize)` -/
def paddingSize (filesize : ℕ) : ℕ :=
  (filesize + blocksize - 1) / blocksize * blocksize - filesize

/-- `readsize(size)`, which reads as many bytes as it is asked for. -/
def readsize (size : ℕ) : Program Bytes Bytes := do
  let input ← get
  MonadExcept.ofExcept (assert (size ≤ input.length))
  set (input.drop size)
  return input.take size

/-- `skipsize(size)` -/
def skipsize (size : ℕ) : Program Bytes Unit :=
  modify fun input => input.drop size

/-- `read_data_blocks(header, readsize, skipsize)` -/
def readDataBlocks (header : Header) : Program Bytes Bytes := do
  let size ← MonadExcept.ofExcept (nonNil .badArgument header.size)
  let data ← readsize size
  skipsize (paddingSize size)
  return data

/-- The loop of `read_header_blocks`, which ends with the input. -/
def readHeaderBlocksFrom :
    ℕ → Option Bytes → Option Bytes → Program Bytes (Option Header)
  | 0, _, _ => throw .assertionFailed
  | n + 1, longName, longLinkname => do
      let block ← readsize blocksize
      if zeroFilled block then return none
      let header ← MonadExcept.ofExcept (parseHeaderBlock block)
      if header.typeflag = some (lit "long_name") then
        let data ← readDataBlocks header
        readHeaderBlocksFrom n (nullterm data) longLinkname
      else if header.typeflag = some (lit "long_linkname") then
        let data ← readDataBlocks header
        readHeaderBlocksFrom n longName (nullterm data)
      else
        return some { header with
          name := longName.or header.name
          linkname := longLinkname.or header.linkname }

/-- `read_header_blocks(readsize, skipsize)` -/
def readHeaderBlocks : Program Bytes (Option Header) := do
  let input ← get
  readHeaderBlocksFrom (input.length + 1) none none

/-! ## Formatting -/

/-- The buffer of a block, and what has been written. -/
structure Output where
  block : Bytes := List.replicate blocksize 0
  written : Bytes := []

/-- `write(data)` -/
def write (data : Bytes) : Program Output Unit :=
  modify fun o => { o with written := o.written ++ data }

/-- `offset`, which is not one of the arguments: a global variable that is not
set. -/
def globalOffset : Option ℕ := none

/-- `t`, which is not one of the arguments: a global variable that is not set. -/
def globalT : Option Header := none

/-- `write_string(block, offset1, offset2, s)` -/
def writeString (offset1 offset2 : ℕ) (s : Option Bytes) : Program Output Unit := do
  let s := s.getD []
  if s = [] then return
  MonadExcept.ofExcept (assert (s.length ≤ offset2 - offset1 + 1))
  let offset ← MonadExcept.ofExcept (nonNil .nilArith globalOffset)
  modify fun o => { o with
    block := o.block.take (offset - 1) ++ s ++ o.block.drop (offset - 1 + s.length) }

/-- `string.format('%o', n)` -/
def formatOctal (n : ℕ) : Bytes := (Nat.toDigits 8 n).map Char.toUInt8

/-- `write_octal(block, offset1, offset2, n)` -/
def writeOctal (offset1 offset2 : ℕ) (n : Option ℕ) : Program Output Unit :=
  writeString offset1 offset2 (some ((n.map formatOctal).getD []))

/-- `block_checksum(block)` -/
def blockChecksum (block : Bytes) : ℕ :=
  256 + ((block.take 148).map UInt8.toNat).sum +
    (((block.drop 156).take 344).map UInt8.toNat).sum

/-- `write_header_block(header, block, write)` -/
def writeHeaderBlock (_header : Header) : Program Output Unit := do
  modify fun o => { o with block := List.replicate blocksize 0 }
  let t ← MonadExcept.ofExcept (nonNil .nilIndex globalT)
  writeString 1 100 t.name
  writeOctal 101 108 t.mode
  writeOctal 109 116 t.gid
  writeOctal 125 136 (some (t.size.getD 0))
  writeOctal 137 148 t.mtime
  writeString 157 157 ((typeflags.lookup (t.type.getD (lit "file"))).or t.type)
  writeString 158 257 t.linkname
  writeString 258 263 (some (lit "ustar"))
  writeString 264 265 (some (lit "00"))
  writeString 266 297 t.uname
  writeString 298 329 t.gname
  writeOctal 330 337 t.devmajor
  writeOctal 338 345 t.devminor
  writeString 346 500 t.prefix_
  let o ← get
  writeOctal 149 156 (some (blockChecksum o.block))
  let o ← get
  write o.block

/-- `write_block_padding(filesize, block, write)` -/
def writeBlockPadding (filesize : ℕ) : Program Output Unit := do
  let size := paddingSize filesize
  modify fun o => { o with block := List.replicate size 0 ++ o.block.drop size }
  let o ← get
  write (o.block.take size)

/-- `write_data_blocks_string(s, block, write)` -/
def writeDataBlocksString (s : Bytes) : Program Output Unit := do
  write s
  writeBlockPadding s.length

/-- `write_header_blocks(header, block, write)` -/
def writeHeaderBlocks (header : Header) : Program Output Unit := do
  let name ← MonadExcept.ofExcept (nonNil .nilIndex header.name)
  let header ←
    if 100 < name.length then do
      writeHeaderBlock { type := some (lit "long_name"), size := some name.length }
      writeDataBlocksString name
      pure { header with name := none }
    else pure header
  let linkname ← MonadExcept.ofExcept (nonNil .nilIndex header.linkname)
  let header ←
    if 100 < linkname.length then do
      writeHeaderBlock { type := some (lit "long_linkname"), size := some linkname.length }
      writeDataBlocksString linkname
      pure { header with linkname := none }
    else pure header
  writeHeaderBlock header

/-!
## Headers are not read back

A header cannot be written: the function for a block takes the fields from a
variable that is not set.  A header that comes from elsewhere is returned as it
is, also when it stands for the long name of the next one.
-/

/-! ### Writing -/

theorem writeHeaderBlock_raises (header : Header) (o : Output) :
    ∃ e o', writeHeaderBlock header o = .error e o' ∧ o'.written = o.written :=
  ⟨.nilIndex, _, rfl, rfl⟩

/-- What follows a step that raises is not done. -/
theorem raises_bind {α β : Type} {m : Program Output α} {f : α → Program Output β}
    {o : Output} (h : ∃ e o', m o = .error e o' ∧ o'.written = o.written) :
    ∃ e o', (m >>= f) o = .error e o' ∧ o'.written = o.written := by
  obtain ⟨e, o', hm, hwritten⟩ := h
  exact ⟨e, o', bind_of_error hm, hwritten⟩

/-- No header is written, and no byte of one. -/
theorem writeHeaderBlocks_raises (header : Header) (o : Output) :
    ∃ e o', writeHeaderBlocks header o = .error e o' ∧ o'.written = o.written := by
  unfold writeHeaderBlocks
  cases hname : header.name with
  | none => exact ⟨.nilIndex, o, rfl, rfl⟩
  | some name =>
      simp only [nonNil, ofExcept_ok_bind]
      by_cases hlong : 100 < name.length
      · rw [if_pos hlong]
        exact raises_bind (writeHeaderBlock_raises _ o)
      · rw [if_neg hlong]
        cases hlinkname : header.linkname with
        | none =>
            simp only [pure_bind, hlinkname]
            exact ⟨.nilIndex, o, rfl, rfl⟩
        | some linkname =>
            simp only [pure_bind, hlinkname, ofExcept_ok_bind]
            by_cases hlong' : 100 < linkname.length
            · rw [if_pos hlong']
              exact raises_bind (writeHeaderBlock_raises _ o)
            · rw [if_neg hlong']
              exact writeHeaderBlock_raises header o

/-! ### Reading -/

section Reading

variable {block : Bytes} {header : Header}

/-- A header has no `typeflag`, whatever its type is. -/
theorem parseHeaderBlock_typeflag (h : parseHeaderBlock block = .ok header) :
    header.typeflag = none := by
  obtain ⟨_, _, h₁⟩ := bind_eq_ok_iff.mp h
  obtain ⟨_, _, h₂⟩ := bind_eq_ok_iff.mp h₁
  obtain ⟨_, _, h₃⟩ := bind_eq_ok_iff.mp h₂
  obtain rfl := Except.ok.inj h₃
  rfl

/-- The first block that is not empty is returned as a header, be it one with
the long name of the next. -/
theorem readHeaderBlocks_first (hlength : block.length = blocksize)
    (hzero : zeroFilled block = false) (hparse : parseHeaderBlock block = .ok header)
    (rest : Bytes) : readHeaderBlocks (block ++ rest) = .ok (some header) rest := by
  have hread : readsize blocksize (block ++ rest) = .ok block rest := by
    have hle : assert (blocksize ≤ (block ++ rest).length) = .ok () := by
      rw [List.length_append, hlength, assert, if_pos]
      exact decide_eq_true (Nat.le_add_right _ _)
    rw [readsize, get_bind_apply, hle, ofExcept_ok_bind, set_bind_apply, ← hlength,
      List.take_left, List.drop_left, pure_apply]
  have htype := parseHeaderBlock_typeflag hparse
  rw [readHeaderBlocks, get_bind_apply, readHeaderBlocksFrom, bind_of_ok hread]
  simp only [hzero, hparse, htype, Bool.false_eq_true, if_false, ofExcept_ok_bind,
    reduceCtorEq, Option.none_or]
  cases header
  cases htype
  rfl

end Reading

/-! ### The round trip -/

/-- The fields that are written, with their defaults. -/
structure SameFields (header header' : Header) : Prop where
  name : header'.name = header.name
  linkname : header'.linkname = header.linkname
  type : header'.type = some (header.type.getD (lit "file"))
  size : header'.size = some (header.size.getD 0)
  mode : header'.mode = header.mode
  uid : header'.uid = header.uid
  gid : header'.gid = header.gid
  mtime : header'.mtime = header.mtime
  uname : header'.uname = header.uname
  gname : header'.gname = header.gname
  devmajor : header'.devmajor = header.devmajor
  devminor : header'.devminor = header.devminor
  prefix_ : header'.prefix_ = header.prefix_

/-- The bytes of a header are read back, whatever follows them. -/
def RoundTrips (header : Header) : Prop :=
  ∃ o, writeHeaderBlocks header {} = .ok () o ∧
    ∀ rest, ∃ header', readHeaderBlocks (o.written ++ rest) = .ok (some header') rest ∧
      SameFields header header'

/-- No header is read back. -/
theorem header_never_read_back (header : Header) : ¬ RoundTrips header := by
  rintro ⟨o, hok, -⟩
  obtain ⟨e, o', herror, -⟩ := writeHeaderBlocks_raises header {}
  rw [herror] at hok
  cases hok

/-- Neither is a file with a short name and a link. -/
theorem file_header_not_read_back :
    ¬ RoundTrips { name := some (lit "a"), linkname := some (lit "b"), mode := some 420,
                   uid := some 0, gid := some 0, size := some 1, mtime := some 0 } :=
  fun ⟨_, hok, _⟩ => nomatch hok

end LuaAttic.Tar
