import Geth.Vm.Machine

/-!
# Precompiled contracts (`core/vm/contracts.go`)

The prices are those of the source. What a contract computes is a primitive, apart from the copy of
data and the modular exponentiation. `none` is a panic.
-/

namespace Geth.Vm

open Lib

/-- The precompiled contracts. -/
inductive Precompile where
  | ecrecover
  | sha256hash
  | ripemd160hash
  | dataCopy
  | bigModExp
  | bn256Add
  | bn256ScalarMul
  | bn256Pairing

/-- `PrecompiledContractsHomestead` and `PrecompiledContractsByzantium`. -/
def precompiles (byzantium : Bool) (addr : Address) : Option Precompile :=
  match beNat addr.val with
  | 1 => some .ecrecover
  | 2 => some .sha256hash
  | 3 => some .ripemd160hash
  | 4 => some .dataCopy
  | 5 => if byzantium then some .bigModExp else none
  | 6 => if byzantium then some .bn256Add else none
  | 7 => if byzantium then some .bn256ScalarMul else none
  | 8 => if byzantium then some .bn256Pairing else none
  | _ => none

/-- A price for each word of the input. -/
def wordGas (input : Bytes) (perWord base : UInt64) : UInt64 :=
  UInt64.ofNat (input.length + 31) / 32 * perWord + base

namespace BigModExp

/-- The lengths of the base, of the exponent and of the modulus. -/
def lengths (input : Bytes) : Option (Int × Int × Int) := do
  let baseLen ← getData input 0 32
  let expLen ← getData input 32 32
  let modLen ← getData input 64 32
  some (setBytes baseLen, setBytes expLen, setBytes modLen)

/-- The input beyond the lengths. -/
def operands (input : Bytes) : Bytes :=
  if input.length > 96 then input.drop 96 else []

/-- The first 32 bytes of the exponent. -/
def expHead (input : Bytes) (baseLen expLen : Int) : Option Int :=
  if (input.length : Int) ≤ baseLen then some 0
  else if expLen > 32 then (getData input (uint64 baseLen) 32).map setBytes
  else (getData input (uint64 baseLen) (uint64 expLen)).map setBytes

/-- The adjusted exponent length. -/
def adjExpLen (expLen head : Int) : Int :=
  (if expLen > 32 then 8 * (expLen - 32) else 0) + (bitLen head - 1 : Nat)

/-- The complexity of a multiplication of the operands. -/
def complexity (x : Int) : Int :=
  if x ≤ 64 then x * x
  else if x ≤ 1024 then x * x / 4 + (96 * x - 3072)
  else x * x / 16 + (480 * x - 199680)

/-- `RequiredGas` of `bigModExp`. -/
def requiredGas (input : Bytes) : Option UInt64 := do
  let (baseLen, expLen, modLen) ← lengths input
  let head ← expHead (operands input) baseLen expLen
  let gas := complexity (max modLen baseLen) * max (adjExpLen expLen head) 1 / 20
  some (if bitLen gas > 64 then UInt64.ofNat (2 ^ 64 - 1) else uint64 gas)

/-- `Exp` of a `big.Int`: the power modulo `m`, by the bits of the exponent. -/
def powMod (b e m : Nat) : Nat :=
  (Nat.digits 2 e).foldr (fun bit acc => acc * acc * (if bit = 1 then b else 1) % m) (1 % m)

/-- `Run` of `bigModExp`. -/
def run (input : Bytes) : Option Bytes := do
  let (baseLen, expLen, modLen) ← lengths input
  let baseLen := uint64 baseLen
  let expLen := uint64 expLen
  let modLen := uint64 modLen
  let input := operands input
  if baseLen = 0 ∧ modLen = 0 then some []
  else do
    let base ← getData input 0 baseLen
    let exp ← getData input baseLen expLen
    let mod ← getData input (baseLen + expLen) modLen
    if beNat mod = 0 then leftPadBytes [] (intOfUint64 modLen)
    else leftPadBytes (beBytes (powMod (beNat base) (beNat exp) (beNat mod))) (intOfUint64 modLen)

end BigModExp

namespace Precompile

def requiredGas (input : Bytes) : Precompile → Option UInt64
  | ecrecover => some 3000
  | sha256hash => some (wordGas input 12 60)
  | ripemd160hash => some (wordGas input 120 600)
  | dataCopy => some (wordGas input 3 15)
  | bigModExp => BigModExp.requiredGas input
  | bn256Add => some 500
  | bn256ScalarMul => some 40000
  | bn256Pairing => some (100000 + UInt64.ofNat (input.length / 192) * 80000)

/-- The data that a primitive returns, or its error. -/
def ret : Option Bytes → Ret
  | some data => (data, none)
  | none => ([], some .badInput)

def run (crypto : Crypto) (input : Bytes) : Precompile → Option Ret
  | ecrecover => some (crypto.ecrecover input, none)
  | sha256hash => some (crypto.sha256 input, none)
  | ripemd160hash => some (crypto.ripemd160 input, none)
  | dataCopy => some (input, none)
  | bigModExp => (BigModExp.run input).map fun data => (data, none)
  | bn256Add => some (ret (crypto.bn256Add input))
  | bn256ScalarMul => some (ret (crypto.bn256ScalarMul input))
  | bn256Pairing => some (ret (crypto.bn256Pairing input))

end Precompile

def runPrecompiledContract (crypto : Crypto) (p : Precompile) (input : Bytes)
    (contract : Contract) : Except Fault (Ret × Contract) :=
  match p.requiredGas input with
  | none => .error (.precompile input)
  | some gas =>
    match contract.useGas gas with
    | none => .ok (([], some .outOfGas), contract)
    | some contract =>
      match p.run crypto input with
      | none => .error (.precompile input)
      | some ret => .ok (ret, contract)

end Geth.Vm
