import Geth.Vm.Common

/-!
# Jump destination analysis (`core/vm/analysis.go`)

A bit vector marks the bytes of a code that are arguments of a `PUSH`. The vectors are kept in a map
by the hash of their code. `none` is an index out of range.
-/

namespace Geth.Vm

/-- `bitvec`: an unset bit means that the byte is an opcode, a set bit that it is data. -/
abbrev Bitvec := Bytes

/-- Changes a byte of a bit vector. -/
def Bitvec.modify (bits : Bitvec) (i : Nat) (f : UInt8 → UInt8) : Option Bitvec :=
  (bits[i]?).map fun b => List.set bits i (f b)

namespace Bitvec

def set (bits : Bitvec) (pos : Nat) : Option Bitvec :=
  bits.modify (pos / 8) fun b => b ||| (0x80 >>> UInt8.ofNat (pos % 8))

def set8 (bits : Bitvec) (pos : Nat) : Option Bitvec :=
  (bits.modify (pos / 8) fun b => b ||| (0xff >>> UInt8.ofNat (pos % 8))).bind fun bits =>
    bits.modify (pos / 8 + 1) fun b => b ||| ~~~(0xff >>> UInt8.ofNat (pos % 8))

def codeSegment (bits : Bitvec) (pos : Nat) : Option Bool :=
  (bits[pos / 8]?).map fun b => b &&& (0x80 >>> UInt8.ofNat (pos % 8)) == 0

/-- The loop over `set8` for `n` times eight bits. -/
def set8s : Nat → Bitvec → Nat → Option Bitvec
  | 0, bits, _ => some bits
  | n + 1, bits, pc => (bits.set8 pc).bind fun bits => set8s n bits (pc + 8)

/-- The loop over `set` for `n` bits. -/
def sets : Nat → Bitvec → Nat → Option Bitvec
  | 0, bits, _ => some bits
  | n + 1, bits, pc => (bits.set pc).bind fun bits => sets n bits (pc + 1)

end Bitvec

/-- The number of argument bytes of an opcode that is a `PUSH`. -/
def pushSize (op : UInt8) : Option Nat :=
  if 0x60 ≤ op ∧ op ≤ 0x7f then some (op.toNat - 0x60 + 1) else none

/-- The loop of `codeBitmap`; a round moves `pc` on by one at least. -/
def codeBitmapLoop (code : Bytes) : Nat → Nat → Bitvec → Option Bitvec
  | 0, _, bits => some bits
  | n + 1, pc, bits =>
    match code[pc]? with
    | none => some bits
    | some op =>
      match pushSize op with
      | none => codeBitmapLoop code n (pc + 1) bits
      | some numbits =>
        (bits.set8s (numbits / 8) (pc + 1)).bind fun bits =>
          (bits.sets (numbits % 8) (pc + 1 + numbits / 8 * 8)).bind fun bits =>
            codeBitmapLoop code n (pc + 1 + numbits) bits

/-- `codeBitmap`: four bytes more than necessary, in case the code ends with a `PUSH32`. -/
def codeBitmap (code : Bytes) : Option Bitvec :=
  codeBitmapLoop code code.length 0 (List.replicate (code.length / 8 + 1 + 4) 0)

/-- `destinations`: under the hash of a code, the code whose bit vector is kept there. -/
abbrev Destinations := Hash → Option Bytes

/-- What can go wrong in a way that Go code does not handle: a panic, or (`outOfFuel`) a run of the
model that was stopped. -/
inductive Fault where
  | outOfFuel
  /-- An index beyond the stack. -/
  | stack
  /-- An access to memory beyond its length. -/
  | memory
  /-- A slice of input, code or return data out of its bounds, or one that is too long to
  allocate. -/
  | slice
  /-- The bit vector kept for one code is too short for another one. -/
  | jumpdests (analysed code : Bytes)
  /-- A precompiled contract that panics on its input. -/
  | precompile (input : Bytes)
  /-- A revision that cannot be reverted to. -/
  | revision (id : Nat)
  deriving DecidableEq

/-- `has`: whether the code has a `JUMPDEST` at `dest`, and the map after a first analysis. -/
def Destinations.has (d : Destinations) (codehash : Hash) (code : Bytes) (dest : Int) :
    Except Fault (Bool × Destinations) :=
  let udest := (uint64 dest).toNat
  if bitLen dest ≥ 63 ∨ udest ≥ code.length then .ok (false, d)
  else
    let analysed := (d codehash).getD code
    let d := Function.update d codehash (some analysed)
    if code[udest]? = some 0x5b then
      match (codeBitmap analysed).bind fun m => m.codeSegment udest with
      | none => .error (.jumpdests analysed code)
      | some segment => .ok (segment, d)
    else .ok (false, d)

end Geth.Vm
