import LuaAttic.Lua.Basic
import LuaAttic.Lua.Chars
import LuaAttic.Support.Ledger

/-!
# System calls (`mmap2.lua`)

The calls that the POSIX part of the module makes.  What the system answers may
depend on everything that was asked before.
-/

namespace LuaAttic.Mmap

open LuaAttic.Lua LuaAttic.Support

inductive Platform
  | linux
  | osx
  deriving DecidableEq, Repr

/-- A call with its arguments; a file descriptor, an offset and an address are
numbers. -/
inductive Call
  | open_ (path : Bytes) (oflags perms : ℕ)
  | shm_open (name : Bytes) (oflags perms : ℕ)
  | shm_unlink (name : Bytes)
  | close (fd : ℤ)
  | fsync (fd : ℤ)
  | lseek (fd offset : ℤ) (whence : ℕ)
  | ftruncate (fd length : ℤ)
  | posix_fallocate (fd offset len : ℤ)
  /-- `fcntl(fd, F_PREALLOCATE, store)` -/
  | preallocate (fd : ℤ) (fst_flags fst_posmode : ℕ) (fst_offset fst_length : ℤ)
  | mmap (addr : Option (BitVec 64)) (length : ℤ) (prot flags : ℕ) (fd offset : ℤ)
  | munmap (addr length : ℤ)
  | msync (addr length : ℤ) (flags : ℕ)
  deriving DecidableEq, Repr

/-- The calls so far, each with its answer. -/
abbrev Log := List (Call × ℤ)

/-- The operating system. -/
structure System where
  platform : Platform
  pagesize : ℤ
  answer : Log → Call → ℤ
  errno : Log → ℤ
  strerror : ℤ → String

namespace System

variable (sys : System)

/-- The system is asked. -/
def call (c : Call) : Program Log ℤ := ask sys.answer c

def osx : Bool := sys.platform = .osx

/-! ## Error reporting -/

/-- What stands for an error number: its name, or the number. -/
inductive Code
  | named (name : String)
  | number (errno : ℤ)
  deriving DecidableEq, Repr

/-- `nil, errmsg, errcode` -/
structure Failure where
  errmsg : String
  errcode : Code
  deriving DecidableEq, Repr

def EDQUOT : ℤ := if sys.osx then 69 else 122

/-- `errcodes[errno] or errno` -/
def errcode (errno : ℤ) : Code :=
  if errno = 2 then .named "not_found"
  else if errno = 12 then .named "out_of_mem"
  else if errno = 22 then .named "file_too_short"
  else if errno = 27 ∨ errno = 28 ∨ errno = sys.EDQUOT then .named "disk_full"
  else .number errno

/-- `reterr(errno)` -/
def reterr (errno : ℤ) : Failure := ⟨sys.strerror errno, sys.errcode errno⟩

/-- `reterr()` -/
def reterrLast : Program Log Failure := do
  return sys.reterr (sys.errno (← get))

/-! ## Opening -/

/-- `open(path, access_write, access_exec, shm)` -/
def openFile (path : Bytes) (accessWrite accessExec shm : Bool) :
    Program Log (Except Failure ℤ) := do
  let O_CREAT := if sys.osx then 0x200 else 0o100
  let oflags := if accessWrite then 2 ||| O_CREAT else 0
  let perms := 0o444 + (if accessWrite then 0o222 else 0) + if accessExec then 0o111 else 0
  let fd ← sys.call (if shm then .shm_open path oflags perms else .open_ path oflags perms)
  if fd = -1 then return .error (← sys.reterrLast)
  return .ok fd

/-! ## The size of a file -/

def SEEK_SET : ℕ := 0

def SEEK_CUR : ℕ := 1

def SEEK_END : ℕ := 2

/-- `fallocate(fd, size, current_size)` where it is built on `posix_fallocate64` -/
def fallocateLinux (fd size currentSize : ℤ) : Program Log (Except Failure Unit) := do
  let err ← sys.call (.posix_fallocate fd 0 size)
  if err ≠ 0 then
    let _ ← sys.call (.ftruncate fd currentSize)
    return .error (sys.reterr err)
  return .ok ()

/-- `C.mmap_ftruncate(fd, size) == 0`, or the error -/
def ftruncate (fd size : ℤ) : Program Log (Except Failure Unit) := do
  let ret ← sys.call (.ftruncate fd size)
  if ret = 0 then return .ok ()
  return .error (← sys.reterrLast)

/-- `fallocate(fd, size)` where it is built on `fcntl` -/
def fallocateOsx (fd size : ℤ) : Program Log (Except Failure Unit) := do
  let ret ← sys.call (.preallocate fd 2 3 0 size)
  if ret = -1 then
    -- too fragmented, allocate non-contiguous space
    let ret ← sys.call (.preallocate fd 4 3 0 size)
    if ret = -1 then return .error (← sys.reterrLast)
    else sys.ftruncate fd size
  else sys.ftruncate fd size

def fallocate (fd size currentSize : ℤ) : Program Log (Except Failure Unit) :=
  if sys.osx then sys.fallocateOsx fd size else sys.fallocateLinux fd size currentSize

/-- The seek position is restored. -/
def restore (fd ofs size : ℤ) : Program Log (Except Failure ℤ) := do
  let ofs1 ← sys.call (.lseek fd ofs SEEK_SET)
  if ofs1 = -1 then return .error (← sys.reterrLast)
  if ofs1 ≠ ofs then throw .assertionFailed
  return .ok size

def setsize (fd size : ℤ) : Program Log (Except Failure ℤ) := do
  if size < 0 then throw .assertionFailed
  let ofs ← sys.call (.lseek fd 0 SEEK_CUR)
  if ofs = -1 then return .error (← sys.reterrLast)
  let currentSize ← sys.call (.lseek fd 0 SEEK_END)
  if currentSize = -1 then return .error (← sys.reterrLast)
  let ok ← if currentSize < size then sys.fallocate fd size currentSize
    else sys.ftruncate fd size
  match ok with
  | .error e => return .error e
  | .ok () => sys.restore fd ofs size

def getsize (fd : ℤ) : Program Log (Except Failure ℤ) := do
  let ofs ← sys.call (.lseek fd 0 SEEK_CUR)
  if ofs = -1 then return .error (← sys.reterrLast)
  let size ← sys.call (.lseek fd 0 SEEK_END)
  if size = -1 then return .error (← sys.reterrLast)
  sys.restore fd ofs size

/-- `mmap.filesize(fd, size)`, where `fd` is a number or nil -/
def filesize (fd : Option ℤ) (size : Option ℤ) : Program Log (Except Failure ℤ) :=
  match fd, size with
  | none, _ => throw .badArgument
  | some fd, some size => sys.setsize fd size
  | some fd, none => sys.getsize fd

end System

/-!
## Arguments of `mmap.map` (`mmap2.lua`)

Alignment to pages, and the checks that are made before anything is opened.
-/

/-! ### Alignment -/

/-- `bit.band(x, y)` of numbers, which takes 32 bits of each -/
def band (x y : ℤ) : ℤ := (BitVec.ofInt 32 x &&& BitVec.ofInt 32 y).toInt

/-- `bit.bnot(x)` of a number -/
def bnot (x : ℤ) : ℤ := (~~~BitVec.ofInt 32 x).toInt

namespace System

variable (sys : System)

/-- `mmap.aligned_size(size, dir)` of a number; `left` says if `dir` starts with
an `l`. -/
def alignedSize (size : ℤ) (left : Bool) : ℤ :=
  let size := if left then size else size + sys.pagesize - 1
  band size (bnot (sys.pagesize - 1))

/-- `mmap.aligned_size(size, dir)` of a 64 bit integer, of which only the low word
is aligned -/
def alignedSize64 (size : BitVec 64) (left : Bool) : BitVec 64 :=
  let hi := size.extractLsb' 32 32
  let lo := size.extractLsb' 0 32
  hi ++ BitVec.ofInt 32 (sys.alignedSize lo.toNat left)

/-- `mmap.aligned_addr(addr, dir)` -/
def alignedAddr (addr : BitVec 64) (left : Bool) : BitVec 64 := sys.alignedSize64 addr left

/-! ### Parsing -/

/-- A `file` argument: the name of a file, an open file with its descriptor, or
something else. -/
inductive FileArg
  | name (path : Bytes)
  | handle (fd : ℤ)
  | other
  deriving DecidableEq, Repr

/-- The arguments as they are given. -/
structure Args where
  file : Option FileArg := none
  access : Option Bytes := none
  size : Option ℤ := none
  offset : Option ℤ := none
  addr : Option (BitVec 64) := none
  tagname : Option Bytes := none
  deriving DecidableEq, Repr

/-- The arguments as they are used. -/
structure Parsed where
  file : Option FileArg
  accessWrite : Bool
  accessExec : Bool
  accessCopy : Bool
  size : Option ℤ
  offset : ℤ
  addr : Option (BitVec 64)
  tagname : Option Bytes
  deriving DecidableEq, Repr

/-- `assert(cond)` -/
def check (cond : Bool) : Except Error Unit :=
  if cond then .ok () else .error .assertionFailed

/-- `parse_access(access)` -/
def parseAccess (access : Bytes) : Except Error (Bool × Bool × Bool) := do
  check (access.all fun b => b ∈ lit "rwcx")
  let write := access.any fun b => b ∈ lit "w"
  let copy := access.any fun b => b ∈ lit "c"
  let exec := access.any fun b => b ∈ lit "x"
  check (!(write && copy))
  return (write, exec, copy)

/-- `check_tagname(tagname)` -/
def checkTagname (tagname : Bytes) : Except Error Unit :=
  check (tagname.all fun b => b ∉ lit "/\\")

/-- `parse_args(...)` -/
def parseArgs (args : Args) : Except Error Parsed := do
  let offset := if args.file.isSome then args.offset.getD 0 else 0
  let (accessWrite, accessExec, accessCopy) ← parseAccess (args.access.getD [])
  check (args.file.isSome || args.size.isSome)
  check (!(args.file.isSome && args.tagname.isSome))
  check (args.size.all fun size => 0 < size)
  check (0 ≤ offset)
  check (offset = sys.alignedSize offset false)
  check (args.addr.all fun addr => addr ≠ 0)
  check (args.addr.all fun addr => addr = sys.alignedAddr addr false)
  args.tagname.forM checkTagname
  return {
    file := args.file
    accessWrite := accessWrite
    accessExec := accessExec
    accessCopy := accessCopy
    size := args.size
    offset := offset
    addr := args.addr
    tagname := args.tagname }

end System

/-!
## File mapping (`mmap2.lua`)

`mmap.map` and the functions of what it returns.
-/

namespace System

variable (sys : System)

/-- What `mmap.map` returns; `close` is the descriptor that the local function
`close` closes, where there is one. -/
structure Mapped where
  addr : ℤ
  size : ℤ
  protect : ℕ
  close : Option ℤ
  tagname : Option Bytes
  deriving DecidableEq, Repr

/-- `protect_bits(access_write, access_exec, access_copy)` -/
def protectBits (accessWrite accessExec accessCopy : Bool) : ℕ :=
  1 ||| ((if accessWrite || accessCopy then 2 else 0) ||| if accessExec then 4 else 0)

/-- `if close then close() end` -/
def closing (close : Option ℤ) : Program Log Unit :=
  match close with
  | none => return
  | some fd => do
      let _ ← sys.call (.close fd)

/-- The descriptor, and the one that `close` closes. -/
def openArg (p : Parsed) : Program Log (Except Failure (Option ℤ × Option ℤ)) :=
  match p.file with
  | some (.name path) => do
      match ← sys.openFile path p.accessWrite p.accessExec false with
      | .error e => return .error e
      | .ok fd => return .ok (some fd, some fd)
  | some (.handle fd) => return .ok (some fd, none)
  | some .other | none =>
      match p.tagname with
      | none => return .ok (none, none)
      | some tagname => do
          match ← sys.openFile (lit "/" ++ tagname) p.accessWrite p.accessExec true with
          | .error e => return .error e
          | .ok fd => return .ok (some fd, none)

def tooShort : Failure := ⟨"File too short", .named "file_too_short"⟩

/-- The size where it is not given: that of the entire file. -/
def entireSize (p : Parsed) (fd close : Option ℤ) : Program Log (Except Failure ℤ) := do
  match ← sys.filesize fd none with
  | .error e =>
      sys.closing close
      return .error e
  | .ok filesize =>
      if filesize = 0 then
        sys.closing close
        return .error tooShort
      else return .ok (filesize - p.offset)

/-- The size of a writable file, which is extended if it is too short. -/
def extendedSize (p : Parsed) (fd close : Option ℤ) (size : ℤ) :
    Program Log (Except Failure ℤ) := do
  match ← sys.filesize fd none with
  | .error _ => throw .nilCompare
  | .ok filesize =>
      if filesize < p.offset + size then
        match ← sys.filesize fd (some (p.offset + size)) with
        | .error e =>
            sys.closing close
            return .error e
        | .ok _ => return .ok size
      else return .ok size

/-- The size of a file that is only read. -/
def checkedSize (p : Parsed) (fd close : Option ℤ) (size : ℤ) :
    Program Log (Except Failure ℤ) := do
  match ← sys.filesize fd none with
  | .error e =>
      sys.closing close
      return .error e
  | .ok filesize =>
      -- nothing is closed here
      if filesize < p.offset + size then return .error tooShort
      else return .ok size

/-- The size of shared memory, which is set if it is writable. -/
def sharedSize (p : Parsed) (fd : Option ℤ) (size : ℤ) : Program Log (Except Failure ℤ) :=
  if p.accessWrite then do
    match fd with
    | none => throw .badArgument
    | some fd =>
        match ← sys.ftruncate fd size with
        | .error e => return .error e
        | .ok () => return .ok size
  else return .ok size

/-- Missing sizes and size mismatches. -/
def mapSize (p : Parsed) (fd close : Option ℤ) : Program Log (Except Failure ℤ) :=
  match p.file, p.size with
  | some _, none => sys.entireSize p fd close
  | some _, some size =>
      if p.accessWrite then sys.extendedSize p fd close size
      else sys.checkedSize p fd close size
  | none, some size => sys.sharedSize p fd size
  | none, none => throw .badArgument

/-- The buffers are flushed. -/
def sync (p : Parsed) (fd close : Option ℤ) : Program Log (Except Failure Unit) :=
  match p.file, fd with
  | none, _ => return .ok ()
  | some _, none => throw .badArgument
  | some _, some fd => do
      let ret ← sys.call (.fsync fd)
      if ret = -1 then
        let err := sys.errno (← get)
        sys.closing close
        return .error (sys.reterr err)
      else return .ok ()

/-- The file, the shared memory or nothing is mapped. -/
def mapMemory (p : Parsed) (fd close : Option ℤ) (size : ℤ) :
    Program Log (Except Failure Mapped) := do
  let protect := protectBits p.accessWrite p.accessExec p.accessCopy
  let MAP_ANON := if sys.osx then 0x1000 else 0x20
  let flags := (if p.accessCopy then 2 else 1) |||
    ((if fd.isSome then 0 else MAP_ANON) ||| if p.addr.isSome then 0x10 else 0)
  let addr ← sys.call (.mmap p.addr size protect flags (fd.getD (-1)) p.offset)
  if addr = -1 then
    let err := sys.errno (← get)
    sys.closing close
    return .error (sys.reterr err)
  else
    return .ok {
      addr := addr
      size := size
      protect := protect
      close := close
      tagname := p.tagname.map (lit "/" ++ ·) }

/-- What follows once there is a descriptor or none. -/
def mapFd (p : Parsed) (fd close : Option ℤ) : Program Log (Except Failure Mapped) := do
  match ← sys.mapSize p fd close with
  | .error e => return .error e
  | .ok size =>
      match ← sys.sync p fd close with
      | .error e => return .error e
      | .ok () => sys.mapMemory p fd close size

/-- `mmap.map(...)` -/
def map (args : Args) : Program Log (Except Failure Mapped) := do
  let p ← MonadExcept.ofExcept (sys.parseArgs args)
  match ← sys.openArg p with
  | .error e => return .error e
  | .ok (fd, close) => sys.mapFd p fd close

/-! ### The functions of a mapping -/

/-- `map:flush(async, addr, sz)` -/
def flush (m : Mapped) (async : Bool) (addr : Option ℤ) (sz : Option ℤ) :
    Program Log (Except Failure Unit) := do
  let addr := (sys.alignedAddr (BitVec.ofInt 64 (addr.getD m.addr)) true).toInt
  let MS_SYNC := if sys.osx then 0x10 else 4
  let flags := (if async then 1 else MS_SYNC) ||| 2
  let ret ← sys.call (.msync addr (sz.getD m.size) flags)
  if ret = 0 then return .error (← sys.reterrLast)
  return .ok ()

/-- `map:free()` -/
def free (m : Mapped) : Program Log Unit := do
  let _ ← sys.call (.munmap m.addr m.size)
  sys.closing m.close

/-- `map:unlink()` -/
def unlink (m : Mapped) : Program Log Unit :=
  match m.tagname with
  | none => throw .assertionFailed
  | some tagname => do
      let _ ← sys.call (.shm_unlink tagname)

end System

end LuaAttic.Mmap
