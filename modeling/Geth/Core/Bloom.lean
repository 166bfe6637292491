import Geth.Core.Types
import Geth.State.StateDB

/-!
# Bloom filters of logs (`core/types/bloom9.go`, `core/bloombits/generator.go`)

The filter of a block is a number with 2048 bits, of which each address and each topic of a log sets
three. The generator turns the filters of a section of blocks into bit vectors, one for each of the
2048 bits. `none` is a panic.
-/

namespace Geth

open Lib

namespace Core

/-- The logs of a `types.Receipt`. -/
structure Receipt where
  logs : List State.Log

/-- `crypto.Keccak256`. -/
abbrev Keccak := Bytes → Hash

def bloomBitLength : Nat := 2048

/-- The bit that two bytes of a hash stand for. -/
def bloomIndex (b : Bytes) (i : Nat) : Nat :=
  ((b.getD (i + 1) 0).toNat + ((b.getD i 0).toNat <<< 8)) &&& 2047

/-- `bloom9`: the filter of one element. -/
def bloom9 (keccak : Keccak) (b : Bytes) : Nat :=
  [0, 2, 4].foldl (fun r i => r ||| 1 <<< bloomIndex (keccak b).val i) 0

/-- `BloomLookup`; `topic` are the `Bytes` of the element. -/
def bloomLookup (keccak : Keccak) (bin : Bloom) (topic : Bytes) : Bool :=
  let cmp := bloom9 keccak topic
  decide (beNat bin.val &&& cmp = cmp)

end Core

namespace Bloom

open Geth.Core

def setBytes (b : Bloom) (d : Bytes) : Option Bloom :=
  if h : d.length ≤ 256 then
    some ⟨b.val.take (256 - d.length) ++ d, by
      rw [List.length_append, List.length_take_of_le (by rw [b.property]; omega)]
      omega⟩
  else none

/-- The filter without elements. -/
def zero : Bloom := zeroBytes 256

/-- `BytesToBloom`. -/
def ofBytes (b : Bytes) : Option Bloom := zero.setBytes b

/-- `Add`; `Bytes` of an integer are those of its absolute value, without leading zeros. -/
def add (keccak : Keccak) (b : Bloom) (d : Int) : Option Bloom :=
  b.setBytes (beBytes (beNat b.val ||| bloom9 keccak (beBytes d.natAbs)))

def test (keccak : Keccak) (b : Bloom) (x : Int) : Bool := bloomLookup keccak b (beBytes x.natAbs)

def testBytes (keccak : Keccak) (b : Bloom) (x : Bytes) : Bool := test keccak b (beNat x)

/-- `Add` of several integers. -/
def addAll (keccak : Keccak) (b : Bloom) (ds : List Int) : Option Bloom :=
  ds.foldlM (add keccak) b

end Bloom

namespace Core

/-- The filter of one log. -/
def logBloom (keccak : Keccak) (log : State.Log) : Nat :=
  log.topics.foldl (fun bin topic => bin ||| bloom9 keccak topic.val)
    (bloom9 keccak log.address.val)

def logsBloom (keccak : Keccak) (logs : List State.Log) : Nat :=
  logs.foldl (fun bin log => bin ||| logBloom keccak log) 0

def createBloom (keccak : Keccak) (receipts : List Receipt) : Option Bloom :=
  Bloom.ofBytes (beBytes
    (receipts.foldl (fun bin receipt => bin ||| logsBloom keccak receipt.logs) 0))

/-! ## The generator -/

structure Generator where
  blooms : List Bytes
  sections : Nat
  nextBit : Nat

inductive GeneratorErr where
  | sectionCount
  | sectionOutOfBounds
  | unexpectedIndex
  | notGenerated
  deriving DecidableEq

namespace Generator

/-- `NewGenerator`. -/
def new (sections : Nat) : Except GeneratorErr Generator :=
  if sections % 8 ≠ 0 then .error .sectionCount
  else .ok ⟨List.replicate bloomBitLength (List.replicate (sections / 8) 0), sections, 0⟩

/-- Whether a filter has a bit, as `AddBloom` looks for it. -/
def hasBit (bloom : Bloom) (i : Nat) : Bool :=
  decide (bloom.val.getD (256 - 1 - i / 8) 0 &&& (1 <<< UInt8.ofNat (i % 8)) ≠ 0)

/-- `AddBloom`: each bit of the filter goes to its vector, at the position of the filter. -/
def addBloom (b : Generator) (index : Nat) (bloom : Bloom) : Except GeneratorErr Generator :=
  if b.nextBit ≥ b.sections then .error .sectionOutOfBounds
  else if b.nextBit ≠ index then .error .unexpectedIndex
  else
    let bitMask : UInt8 := 1 <<< UInt8.ofNat (7 - b.nextBit % 8)
    .ok { b with
      blooms := b.blooms.mapIdx fun i row =>
        if hasBit bloom i then row.modify (b.nextBit / 8) (· ||| bitMask) else row
      nextBit := b.nextBit + 1 }

def bitset (b : Generator) (idx : Nat) : Option (Except GeneratorErr Bytes) :=
  if b.nextBit ≠ b.sections then some (.error .notGenerated)
  else if idx ≥ b.sections then some (.error .sectionOutOfBounds)
  else b.blooms[idx]?.map .ok

/-- The filters that are added in order. -/
def addAll (b : Generator) : List Bloom → Except GeneratorErr Generator
  | [] => .ok b
  | bloom :: blooms => do
    let b ← b.addBloom b.nextBit bloom
    addAll b blooms

end Generator

end Core

end Geth
