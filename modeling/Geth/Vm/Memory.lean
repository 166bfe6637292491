import Geth.Vm.Analysis

/-!
# The memory of a frame (`core/vm/memory.go`)

`none` is a panic. A slice may reach into the capacity of the Go slice beyond the length; here it
may not, so a read or write outside of the current length shows as a panic.
-/

namespace Geth.Vm

structure Memory where
  store : Bytes
  lastGasCost : UInt64

namespace Memory

/-- `NewMemory`. -/
def new : Memory := ⟨[], 0⟩

def len (m : Memory) : Nat := m.store.length

/-- `copy(m.store[offset:offset+size], value)`. -/
def write (m : Memory) (offset size : Nat) (value : Bytes) : Memory :=
  let value := value.take size
  { m with store := m.store.take offset ++ value ++ m.store.drop (offset + value.length) }

def set (m : Memory) (offset size : UInt64) (value : Bytes) : Option Memory :=
  if size > 0 then
    if offset.toNat + size.toNat > m.len then none
    else some (m.write offset.toNat size.toNat value)
  else some m

def set32 (m : Memory) (offset : UInt64) (val : Int) : Option Memory :=
  if offset.toNat + 32 > m.len then none
  else some (m.write offset.toNat 32 (readBits 32 val.natAbs))

/-- `store[off] = b`. -/
def setByte (m : Memory) (off : Int) (b : UInt8) : Option Memory :=
  if 0 ≤ off ∧ off < m.len then some (m.write off.toNat 1 [b]) else none

def resize (m : Memory) (size : UInt64) : Memory :=
  if m.len < size.toNat then
    { m with store := m.store ++ List.replicate (size.toNat - m.len) 0 }
  else m

/-- `Get`, and `GetPtr`, whose result nobody writes to. -/
def get (m : Memory) (offset size : Int) : Option Bytes :=
  if size = 0 then some []
  else if (m.len : Int) > offset then
    if 0 ≤ offset ∧ 0 ≤ size ∧ offset + size ≤ m.len then
      some ((m.store.drop offset.toNat).take size.toNat)
    else none
  else some []

end Memory

end Geth.Vm
