import Geth.Rlp.Types

/-!
# The two-pass encoder (`rlp/encode.go`)

The encoder collects string data in `EncBuf.str` and keeps the list headers apart, each with the
offset in the string data at which it belongs; a list's size is known only once its elements have
been written. `EncBuf.toBytes` interleaves the two into a buffer of exactly `EncBuf.size` bytes.
-/

namespace Geth.Rlp

/-- Go's `byte(i)` of an unsigned integer. -/
def byte (i : Nat) : UInt8 := UInt8.ofNat i

/-- `putint`: the big-endian bytes of a `uint64`, using the least number of bytes. -/
def putint (i : Nat) : Bytes :=
  if i < 2 ^ 8 then [byte i]
  else if i < 2 ^ 16 then [byte (i >>> 8), byte i]
  else if i < 2 ^ 24 then [byte (i >>> 16), byte (i >>> 8), byte i]
  else if i < 2 ^ 32 then [byte (i >>> 24), byte (i >>> 16), byte (i >>> 8), byte i]
  else if i < 2 ^ 40 then
    [byte (i >>> 32), byte (i >>> 24), byte (i >>> 16), byte (i >>> 8), byte i]
  else if i < 2 ^ 48 then
    [byte (i >>> 40), byte (i >>> 32), byte (i >>> 24), byte (i >>> 16), byte (i >>> 8), byte i]
  else if i < 2 ^ 56 then
    [byte (i >>> 48), byte (i >>> 40), byte (i >>> 32), byte (i >>> 24), byte (i >>> 16),
      byte (i >>> 8), byte i]
  else
    [byte (i >>> 56), byte (i >>> 48), byte (i >>> 40), byte (i >>> 32), byte (i >>> 24),
      byte (i >>> 16), byte (i >>> 8), byte i]

/-- The loop of `intsize`, with `size` bytes already counted; a `uint64` needs at most eight
rounds. -/
def intsizeLoop : Nat → Nat → Nat → Nat
  | 0, size, _ => size
  | fuel + 1, size, i => if i >>> 8 = 0 then size else intsizeLoop fuel (size + 1) (i >>> 8)

/-- `intsize`: the number of bytes of a `uint64`. -/
def intsize (i : Nat) : Nat := intsizeLoop 8 1 i

/-- `headsize`: the size of a list or string header for a value of the given size. -/
def headsize (size : Nat) : Nat :=
  if size < 56 then 1 else 1 + intsize size

/-- `puthead`: the bytes of a list or string header. -/
def puthead (smalltag largetag : UInt8) (size : Nat) : Bytes :=
  if size < 56 then [smalltag + byte size]
  else (largetag + byte (putint size).length) :: putint size

/-- `listhead`: while its list is open, `size` holds the size of the headers before it. -/
structure ListHead where
  offset : Nat
  size : Nat
  deriving DecidableEq, Repr

def ListHead.encode (head : ListHead) : Bytes := puthead 0xC0 0xF7 head.size

structure EncBuf where
  str : Bytes
  lheads : List ListHead
  lhsize : Nat
  deriving DecidableEq, Repr

namespace EncBuf

/-- A buffer after `reset`. -/
def empty : EncBuf := ⟨[], [], 0⟩

/-- `(*encbuf).Write`, and every `w.str = append(w.str, ...)`. -/
def write (w : EncBuf) (b : Bytes) : EncBuf := { w with str := w.str ++ b }

def size (w : EncBuf) : Nat := w.str.length + w.lhsize

def encodeStringHeader (w : EncBuf) (size : Nat) : EncBuf :=
  if size < 56 then w.write [0x80 + byte size]
  else w.write ((0xB7 + byte (putint size).length) :: putint size)

/-- `(*encbuf).encodeString`; `writeString` has the same body. -/
def encodeString (w : EncBuf) (b : Bytes) : EncBuf :=
  match b with
  | [x] => if x ≤ 0x7F then w.write [x] else (w.encodeStringHeader 1).write [x]
  | b => (w.encodeStringHeader b.length).write b

/-- `(*encbuf).list`: opens a list and returns the index of its header in `lheads`. -/
def list (w : EncBuf) : Nat × EncBuf :=
  (w.lheads.length, { w with lheads := w.lheads ++ [⟨w.str.length, w.lhsize⟩] })

/-- `(*encbuf).listEnd`: fixes the size of the header at index `lh`. -/
def listEnd (w : EncBuf) (lh : Nat) : EncBuf :=
  match w.lheads[lh]? with
  | none => w
  | some head =>
    let size := w.size - head.offset - head.size
    { w with
      lheads := w.lheads.set lh { head with size := size }
      lhsize := if size < 56 then w.lhsize + 1 else w.lhsize + (1 + intsize size) }

def writeUint (i : Nat) (w : EncBuf) : EncBuf :=
  if i = 0 then w.write [0x80]
  else if i < 128 then w.write [byte i]
  else w.write ((0x80 + byte (putint i).length) :: putint i)

def writeBool (b : Bool) (w : EncBuf) : EncBuf :=
  if b then w.write [0x01] else w.write [0x80]

mutual

/-- `writeInterface` on a tree of `[]byte` and `[]interface{}`: the writer of the dynamic type,
`writeBytes` or the slice writer of `interface{}`. -/
def writeInterface : Item → EncBuf → EncBuf
  | .str b, w => w.encodeString b
  | .list items, w =>
    let (lh, w) := w.list
    (writeInterfaces items w).listEnd lh

/-- The element loop of the slice writer of `interface{}`. -/
def writeInterfaces : List Item → EncBuf → EncBuf
  | [], w => w
  | t :: ts, w => writeInterfaces ts (writeInterface t w)

end

mutual

/-- `makeWriter`: the writer of a type. A value of another type is never passed to it. -/
def writer : GoType → GoVal → EncBuf → EncBuf
  | .bool, .bool b, w => writeBool b w
  | .uint _, .uint n, w => writeUint n w
  | .string, .str b, w => w.encodeString b
  | .slice _, .str b, w => w.encodeString b
  | .array _ _, .str b, w => w.encodeString b
  | .slice t, .list vs, w =>
    let (lh, w) := w.list
    (vs.foldl (fun w v => writer t v w) w).listEnd lh
  | .array _ t, .list vs, w =>
    let (lh, w) := w.list
    (vs.foldl (fun w v => writer t v w) w).listEnd lh
  | .struct fs, .list vs, w =>
    let (lh, w) := w.list
    (writeFields fs vs w).listEnd lh
  | .iface, .iface t, w => writeInterface t w
  | _, _, w => w

/-- The field loop of `makeStructWriter`. -/
def writeFields : Fields → List GoVal → EncBuf → EncBuf
  | .cons _ t fs, v :: vs, w => writeFields fs vs (writer t v w)
  | _, _, w => w

end

/-- Go's `copy(out[pos:], data)`: the buffer afterwards and the number of bytes copied. -/
def copyAt (out : Bytes) (pos : Nat) (data : Bytes) : Bytes × Nat :=
  let n := min data.length (out.length - pos)
  (out.take pos ++ data.take n ++ out.drop (pos + n), n)

/-- The loop of `toBytes`; `none` is the panic of a header written past the end of `out`. -/
def toBytesLoop (str : Bytes) : List ListHead → Bytes → Nat → Nat → Option Bytes
  | [], out, strpos, pos => some (copyAt out pos (str.drop strpos)).1
  | head :: heads, out, strpos, pos =>
    let (out, n) := copyAt out pos ((str.take head.offset).drop strpos)
    let pos := pos + n
    let enc := head.encode
    if pos + enc.length ≤ out.length then
      toBytesLoop str heads (copyAt out pos enc).1 (strpos + n) (pos + enc.length)
    else none

/-- `(*encbuf).toBytes`; `make` panics on a size that is no Go `int`. -/
def toBytes (w : EncBuf) : Option Bytes :=
  if w.size < 2 ^ 63 then toBytesLoop w.str w.lheads (List.replicate w.size 0) 0 0 else none

end EncBuf

/-- `EncodeToBytes` of a value of type `t`; `none` is a panic (the encoding is no Go slice). -/
def encodeToBytes (t : GoType) (v : GoVal) : Option Bytes :=
  (EncBuf.writer t v EncBuf.empty).toBytes

end Geth.Rlp
