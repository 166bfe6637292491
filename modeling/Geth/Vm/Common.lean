import Geth.Vm.Params
import Geth.State.Account
import Mathlib.Data.Int.Bitwise

/-!
# Integers of the virtual machine (`common/math`, `core/vm/common.go`)

The machine computes on `big.Int`, which is `Int` here: most opcodes cut their result down to 256
bits, but a balance or the price of gas is pushed as it is. `none` as the result of a slice is a
panic.
-/

namespace Geth

open Lib

/-- `common.BytesToAddress`: longer slices are cropped from the left, shorter ones padded. -/
def bytesToAddress (b : Bytes) : Address :=
  ⟨List.replicate (20 - b.length) 0 ++ b.drop (b.length - 20), by
    rw [List.length_append, List.length_replicate, List.length_drop]
    omega⟩

namespace Vm

/-! ## Big integers -/

/-- `math.U256`: the low 256 bits in two's complement. -/
def u256 (x : Int) : Int := x % 2 ^ 256

def s256 (x : Int) : Int := if x < 2 ^ 255 then x else x - 2 ^ 256

/-- `Uint64` of a `big.Int`: the low 64 bits of the absolute value. -/
def uint64 (x : Int) : UInt64 := UInt64.ofNat x.natAbs

/-- The conversion of a `uint64` to `int`. -/
def intOfUint64 (x : UInt64) : Int := x.toBitVec.toInt

/-- `Int64` of a `big.Int`. -/
def int64 (x : Int) : Int :=
  if x < 0 then (BitVec.ofInt 64 (-intOfUint64 (uint64 x))).toInt else intOfUint64 (uint64 x)

def bitLen (x : Int) : Nat := if x = 0 then 0 else x.natAbs.log2 + 1

theorem uint64_natCast (n : Nat) : (uint64 (n : Int)).toNat = n % 2 ^ 64 := by
  rw [uint64, Int.natAbs_natCast]
  exact UInt64.toNat_ofNat'

theorem uint64_toNat {n : Nat} (h : n < 2 ^ 64) : (uint64 (n : Int)).toNat = n := by
  rw [uint64_natCast, Nat.mod_eq_of_lt h]

theorem bitLen_le_iff (x : Int) (n : Nat) : bitLen x ≤ n ↔ x.natAbs < 2 ^ n := by
  rw [bitLen]
  split
  case isTrue h => simp [h]
  case isFalse h =>
    rw [Nat.succ_le_iff, Nat.log2_lt (Int.natAbs_ne_zero.mpr h)]

def bit (x : Int) (i : Nat) : Bool := x.testBit i

/-- The bits of one word of the exponent in `math.Exp`, with the result and the base so far. -/
def expWord : Nat → Nat → Int × Int → Int × Int
  | 0, _, acc => acc
  | n + 1, word, (result, base) =>
    let result := if word % 2 = 1 then u256 (result * base) else result
    expWord n (word / 2) (result, u256 (base * base))

/-- `math.Exp` on a platform with words of `w` bits: the result, and what is left in the base. -/
def exp (w : Nat) (base exponent : Int) : Int × Int :=
  (Nat.digits (2 ^ w) exponent.natAbs).foldl (fun acc word => expWord w word acc) (1, base)

/-- `math.Byte`: the byte at position `n` of the big-endian encoding with `padlength` bytes. -/
def byte (x : Int) (padlength : Nat) (n : Int) : Int :=
  if padlength ≤ n then 0 else (x.natAbs / 256 ^ (padlength - 1 - n).toNat % 256 : Nat)

/-- `math.ReadBits` into a buffer of `n` bytes. -/
def readBits : Nat → Nat → Bytes
  | 0, _ => []
  | n + 1, x => readBits n (x / 256) ++ [UInt8.ofNat x]

def bigToAddress (x : Int) : Address := bytesToAddress (beBytes x.natAbs)

def bigToHash (x : Int) : Hash := bytesToHash (beBytes x.natAbs)

/-- `SetBytes` of a `big.Int`. -/
def setBytes (b : Bytes) : Int := beNat b

/-! ## Machine integers -/

/-- `math.SafeAdd`; `none` is an overflow. -/
def safeAdd (x y : UInt64) : Option UInt64 :=
  if y > UInt64.ofNat (2 ^ 64 - 1) - x then none else some (x + y)

/-- `math.SafeMul`; `none` is an overflow. -/
def safeMul (x y : UInt64) : Option UInt64 :=
  if x = 0 ∨ y = 0 then some 0
  else if y > UInt64.ofNat (2 ^ 64 - 1) / x then none else some (x * y)

/-- `bigUint64`; `none` is an overflow. -/
def bigUint64 (v : Int) : Option UInt64 :=
  if bitLen v > 64 then none else some (uint64 v)

def toWordSize (size : UInt64) : UInt64 :=
  if size > UInt64.ofNat (2 ^ 64 - 1) - 31 then UInt64.ofNat (2 ^ 64 - 1) / 32 + 1
  else (size + 31) / 32

/-! ## Slices -/

/-- `b[i:j]`. -/
def slice (b : Bytes) (i j : UInt64) : Option Bytes :=
  if i ≤ j ∧ j.toNat ≤ b.length then some ((b.drop i.toNat).take (j - i).toNat) else none

/-- The most bytes that `make` allocates on a 64-bit system; it panics when asked for more. -/
def maxAlloc : Nat := 2 ^ 48

/-- The end of both paddings: `make([]byte, l)`, filled. -/
def padBytes (b : Bytes) (l : Int) (padded : Bytes) : Option Bytes :=
  if l ≤ b.length then some b else if l ≤ maxAlloc then some padded else none

def rightPadBytes (b : Bytes) (l : Int) : Option Bytes :=
  padBytes b l (b ++ List.replicate (l.toNat - b.length) 0)

def leftPadBytes (b : Bytes) (l : Int) : Option Bytes :=
  padBytes b l (List.replicate (l.toNat - b.length) 0 ++ b)

def getData (data : Bytes) (start size : UInt64) : Option Bytes :=
  let length := UInt64.ofNat data.length
  let start := if start > length then length else start
  let stop := start + size
  let stop := if stop > length then length else stop
  (slice data start stop).bind fun b => rightPadBytes b (intOfUint64 size)

def getDataBig (data : Bytes) (start size : Int) : Option Bytes :=
  let dlen : Int := data.length
  let s := min start dlen
  let e := min (s + size) dlen
  (slice data (uint64 s) (uint64 e)).bind fun b => rightPadBytes b (intOfUint64 (uint64 size))

def calcMemSize (off l : Int) : Int := if l = 0 then 0 else off + l

end Vm

end Geth
