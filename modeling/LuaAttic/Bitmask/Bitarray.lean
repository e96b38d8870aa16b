import Mathlib.Algebra.Order.Monoid.WithTop
import Mathlib.Data.Int.ConditionallyCompleteOrder
import Mathlib.Data.Rat.Floor
import Mathlib.Order.WithBotTop
import LuaAttic.Support.BitRuns

/-!
# Bit arrays (`bitmask.lua`)

A bit array keeps the bits of a row in `stride` bytes.  Its bytes are in a buffer
that is replaced by a longer one of zeros when it becomes too short, and is kept,
with what it holds, otherwise.

Places are computed with fractions of bytes, which are exact here: they are
multiples of an eighth.  Bytes are signed and the operations on bits are those of
32-bit integers.  What an operation does to the array is the list of its stores, each
of which knows the indices that it reads and writes.
-/

namespace LuaAttic.Bitmask

open LuaAttic.Support

/-! ## Numbers -/

/-- A coordinate or a size, which may be infinite. -/
abbrev Extent := WithBot (WithTop ℤ)

/-- The integer that an extent is. -/
def Extent.toInt (x : Extent) : ℤ := (x.unbotD 0).untopD 0

def clamp {α : Type*} [LinearOrder α] (x x0 x1 : α) : α := min (max x x0) x1

/-- A number as an index: what is after the point is cut off. -/
def trunc (x : ℚ) : ℤ := if 0 ≤ x then ⌊x⌋ else ⌈x⌉

def tobit (x : ℚ) : BitVec 32 := BitVec.ofInt 32 (trunc x)

def shl (x n : BitVec 32) : BitVec 32 := x <<< (n.toNat % 32)

def shr (x n : BitVec 32) : BitVec 32 := x >>> (n.toNat % 32)

def band (x y : BitVec 32) : BitVec 32 := x &&& y

def bor (x y : BitVec 32) : BitVec 32 := x ||| y

def bnot (x : BitVec 32) : BitVec 32 := ~~~x

/-! ## Stores -/

/-- What changes the bytes of an array. -/
inductive Store
  | fill (dst len : ℤ) (c : BitVec 8)
  /-- `data[dst] = bor(data[src], mask)`, or `band(data[src], bnot(mask))` -/
  | mask (dst src : ℤ) (mask : BitVec 32) (val : Bool)
  | copy (dst src len : ℤ)
  /-- The first bytes of another array. -/
  | copyFrom (data1 : Memory) (len : ℤ)

namespace Store

def exec (data : Memory) : Store → Memory
  | fill dst len c => data.fill dst len c
  | mask dst src m val =>
      let b := (data src).signExtend 32
      Function.update data dst
        ((if val then bor b m else band b (bnot m)).setWidth 8)
  | copy dst src len => data.copy data dst src len
  | copyFrom data1 len => data.copy data1 0 0 len

/-- The indices of the bytes that are written. -/
def written : Store → Set ℤ
  | fill dst len _ => Set.Ico dst (dst + len)
  | mask dst _ _ _ => {dst}
  | copy dst _ len => Set.Ico dst (dst + len)
  | copyFrom _ len => Set.Ico 0 len

/-- The indices of the bytes of the array that are read. -/
def read : Store → Set ℤ
  | fill _ _ _ => ∅
  | mask _ src _ _ => {src}
  | copy _ src len => Set.Ico src (src + len)
  | copyFrom _ _ => ∅

/-- The indices of the bytes of another array that are read. -/
def readFrom : Store → Set ℤ
  | copyFrom _ len => Set.Ico 0 len
  | _ => ∅

end Store

/-! ## Model -/

/-- The state of `growbuffer`. -/
structure Growbuffer where
  buf : Memory
  len : ℤ
  /-- Which array it is: no two are the same. -/
  id : ℕ

/-- The buffer for a length, grown by a factor of two. -/
def Growbuffer.call (self : Growbuffer) (newlen : ℤ) : Growbuffer :=
  if self.len < newlen then
    { buf := fun _ => 0
      len := max newlen (self.len * 2)
      id := self.id + 1 }
  else self

structure Bitarray where
  w : ℤ
  h : ℤ
  stride : ℤ
  /-- The array `data` is the buffer's. -/
  buffer : Growbuffer
  maxI : ℚ

namespace Bitarray

variable (self : Bitarray)

def data : Memory := self.buffer.buf

def exec (stores : List Store) : Bitarray :=
  { self with buffer := { self.buffer with buf := stores.foldl Store.exec self.data } }

/-- `bitarray:realloc` -/
def realloc (w h : ℤ) : Bitarray :=
  let w := max 0 w
  let h := max 0 h
  let stride := ⌈(w : ℚ) / 8⌉
  { w, h, stride
    buffer := self.buffer.call (stride * h)
    maxI := stride * h - 1 / 8 }

/-- `bitarray(w, h)`: there is no buffer yet. -/
def new (w h : ℤ) : Bitarray :=
  realloc
    { w := 0, h := 0, stride := 0, maxI := 0
      buffer := { buf := fun _ => 0, len := -1, id := 0 } } w h

/-- The place of a bit, in bytes. -/
def place (x y : ℤ) : ℚ := clamp (y * self.stride + x / 8) 0 self.maxI

/-- `bitarray:get` -/
def get (x y : ℤ) : Bool :=
  let i := self.place x y
  let bit := band (tobit (i * 8)) 7
  band (shr ((self.data (trunc i)).signExtend 32) bit) 1 == 1

def setStores (x y : ℤ) (val : Bool) : List Store :=
  let i := self.place x y
  let mask := shl 1 (band (tobit (i * 8)) 7)
  [.mask (trunc (i * 8)) (trunc (i / 8)) mask val]

/-- `bitarray:set` -/
def set (x y : ℤ) (val : Bool) : Bitarray := self.exec (self.setStores x y val)

/-- The stores of a row. -/
def rowStores (bi1 bi2 : ℤ) (mask0 mask1 mask2 : Option (BitVec 32)) (val : Bool) :
    List Store :=
  match mask0 with
  | some mask0 => [.mask bi2 bi2 mask0 val]
  | none =>
      [.fill bi1 (bi2 - bi1) (if val then 0xff else 0)] ++
        (mask1.toList.map fun mask1 => .mask (bi1 - 1) (bi1 - 1) mask1 val) ++
        mask2.toList.map fun mask2 => .mask bi2 bi2 mask2 val

/-- The rows from `y1` up to `y2`, with the bits from `x1` up to `x2`. -/
def rowsStores (stride x1 x2 y1 y2 : ℤ) (val : Bool) : List Store :=
  let i1 : ℚ := x1 / 8
  let i2 : ℚ := x2 / 8
  -- the first full byte, and the one after the last full byte
  let bi1 := ⌈i1⌉
  let bi2 := ⌊i2⌋
  let bytes := bi2 - bi1
  -- what is left over at the beginning and at the end
  let bits1 : ℚ := (bi1 - i1) * 8
  let bits2 : ℚ := (i2 - bi2) * 8
  let (mask0, mask1, mask2) := if bytes < 0 then
      -- all bits are on the same byte
      let bits := bits2 - (8 - bits1)
      (some (shl (shl 1 (tobit bits) - 1) (tobit (8 - bits1))), none, none)
    else
      (none, if 0 < bits1 then some (bnot (shl 1 (tobit (8 - bits1)) - 1)) else none,
        if 0 < bits2 then some (shl 1 (tobit bits2) - 1) else none)
  (Int.range y1 y2).flatMap fun y =>
    rowStores (y * stride + bi1) (y * stride + bi2) mask0 mask1 mask2 val

def rectStores (x1 y1 : ℤ) (w h : Extent) (val : Bool) : List Store :=
  let clampTo (x : Extent) (x1 : ℤ) : ℤ := Extent.toInt (clamp x 0 x1)
  let x2 := clampTo (x1 + w) self.w
  let y2 := clampTo (y1 + h) self.h
  let x1 := clampTo x1 self.w
  let y1 := clampTo y1 self.h
  let (x1, x2) := if x2 < x1 then (x2, x1) else (x1, x2)
  let (y1, y2) := if y2 < y1 then (y2, y1) else (y1, y2)
  rowsStores self.stride x1 x2 y1 y2 val

/-- `bitarray:rect` -/
def rect (x1 y1 : ℤ) (w h : Extent) (val : Bool) : Bitarray :=
  self.exec (self.rectStores x1 y1 w h val)

/-- The stores to the array, which `realloc` may have replaced. -/
def insertRowsStores (y h : ℤ) (val : Bool) : List Store :=
  let data1 := self.data
  let h1 := self.h
  let self' := self.realloc self.w (self.h + h)
  -- the contents are copied over when the data was relocated
  let relocated := if self'.buffer.id ≠ self.buffer.id then
      [Store.copyFrom data1 (self'.stride * h1)]
    else []
  let i1 := self'.stride * y
  let i2 := self'.stride * (y + h)
  let size := self'.stride * self'.h - i2
  relocated ++ [.copy i2 i1 size] ++ self'.rectStores 0 y self'.w h val

/-- `bitarray:insert_rows` -/
def insertRows (y h : ℤ) (val : Bool) : Bitarray :=
  let self' := (self.realloc self.w (self.h + h)).exec (self.insertRowsStores y h val)
  { self' with
    h := self'.h + h
    maxI := self'.stride * (self'.h + h) }

def removeRowsStores (y h : ℤ) : List Store :=
  let y := clamp y 0 self.h
  let h := clamp h 0 (self.h - y)
  let i1 := self.stride * y
  let i2 := self.stride * (y + h)
  let size := self.stride * self.h - i2
  [.copy i1 i2 size]

/-- `bitarray:remove_rows` -/
def removeRows (y h : ℤ) : Bitarray :=
  let self' := self.exec (self.removeRowsStores y h)
  let h := clamp h 0 (self.h - clamp y 0 self.h)
  { self' with
    h := self.h - h
    maxI := self.stride * (self.h - h) }

end Bitarray

end LuaAttic.Bitmask
