import Geth.Vm.Interface
import Geth.Vm.Memory

/-!
# Contracts, frames and the machine (`core/vm/contract.go`, `evm.go`, `interpreter.go`)

`Evm` is what the frames of a call share: the state database, the depth, the flag and the return
data of the interpreter. `Machine` adds what belongs to the running frame. The fields that nothing
writes to are in `Env`.
-/

namespace Geth.Vm

open Lib State

/-- The errors of the virtual machine. -/
inductive VmErr where
  | outOfGas
  | codeStoreOutOfGas
  | depth
  | insufficientBalance
  | contractAddressCollision
  | gasUintOverflow
  | writeProtection
  | returnDataOutOfBounds
  | executionReverted
  | maxCodeSizeExceeded
  | invalidOpcode (op : UInt8)
  | stackUnderflow (len n : Nat)
  | stackLimitReached (len : Nat)
  | invalidJumpDestination (nop : UInt8) (pos : Int)
  /-- The input of a precompiled contract is not valid. -/
  | badInput
  deriving DecidableEq

/-- The primitives of the precompiled contracts and the hash function; `none` is an error. -/
structure Crypto where
  keccak : Bytes → Hash
  ecrecover : Bytes → Bytes
  sha256 : Bytes → Bytes
  ripemd160 : Bytes → Bytes
  bn256Add : Bytes → Option Bytes
  bn256ScalarMul : Bytes → Option Bytes
  bn256Pairing : Bytes → Option Bytes

/-- `Context`, `Config` and the chain configuration. `abort n` is what the `n`-th look at the flag
that `Cancel` sets finds. -/
structure Env where
  crypto : Crypto
  chainConfig : ChainConfig
  noRecursion : Bool
  enablePreimageRecording : Bool
  abort : Nat → Bool
  getHash : UInt64 → Hash
  origin : Address
  gasPrice : Int
  coinbase : Address
  gasLimit : UInt64
  blockNumber : Int
  time : Int
  difficulty : Int

namespace Env

variable (env : Env)

/-- `ChainConfig().IsHomestead(BlockNumber)`. -/
def isHomestead : Bool := env.chainConfig.isHomestead env.blockNumber

/-- `ChainConfig().IsEIP150(BlockNumber)`. -/
def isEIP150 : Bool := env.chainConfig.isEIP150 env.blockNumber

/-- `ChainConfig().IsEIP158(BlockNumber)`. -/
def isEIP158 : Bool := env.chainConfig.isEIP158 env.blockNumber

/-- `ChainConfig().IsByzantium(BlockNumber)`. -/
def isByzantium : Bool := env.chainConfig.isByzantium env.blockNumber

/-- `ChainConfig().IsConstantinople(BlockNumber)`. -/
def isConstantinople : Bool := env.chainConfig.isConstantinople env.blockNumber

/-- `gasTable` of the interpreter. -/
def gasTable : GasTable := env.chainConfig.gasTable env.blockNumber

end Env

structure Contract where
  callerAddress : Address
  self : Address
  code : Bytes
  codeHash : Hash
  codeAddr : Address
  input : Bytes
  gas : UInt64
  value : Int

namespace Contract

/-- `GetOp`: beyond the code stands `STOP`. -/
def getOp (c : Contract) (n : Nat) : UInt8 := c.code.getD n 0

/-- `UseGas`; `none` if there is not enough. -/
def useGas (c : Contract) (gas : UInt64) : Option Contract :=
  if c.gas < gas then none else some { c with gas := c.gas - gas }

end Contract

/-- `ContractRef`: who calls. -/
inductive ContractRef where
  | account (addr : Address)
  | contract (c : Contract)

def ContractRef.address : ContractRef → Address
  | account addr => addr
  | contract c => c.self

/-- The mutable part of `EVM` and `Interpreter`. `loads` counts the looks at the abort flag, `trace`
has the opcodes that a tracer is shown, the newest first. -/
structure Evm (S : Type) where
  db : S
  depth : Nat
  callGasTemp : UInt64
  readOnly : Bool
  returnData : Bytes
  jumpdests : Destinations
  loads : Nat
  trace : List UInt8

/-- The running frame with the machine around it. -/
structure Machine (S : Type) where
  pc : Nat
  stack : List Int
  mem : Memory
  contract : Contract
  evm : Evm S

namespace Machine

variable {S : Type}

/-- The machine with another state database. -/
def setDb (m : Machine S) (db : S) : Machine S := { m with evm := { m.evm with db := db } }

end Machine

/-- What a call returns. -/
structure CallResult where
  ret : Bytes
  leftOverGas : UInt64
  err : Option VmErr

/-- The five ways to run other code: `Call`, `CallCode`, `DelegateCall`, `StaticCall`, which take
the caller, the address, the input, the gas and (the first two) the value, and `Create`. -/
structure Calls (S : Type) where
  call : ContractRef → Address → Bytes → UInt64 → Int → Evm S → Except Fault (CallResult × Evm S)
  callCode : ContractRef → Address → Bytes → UInt64 → Int → Evm S →
    Except Fault (CallResult × Evm S)
  delegateCall : Contract → Address → Bytes → UInt64 → Evm S → Except Fault (CallResult × Evm S)
  staticCall : ContractRef → Address → Bytes → UInt64 → Evm S → Except Fault (CallResult × Evm S)
  create : ContractRef → Bytes → UInt64 → Int → Evm S → Except Fault (CallResult × Address × Evm S)

/-- What an operation or a run returns: data and an error. -/
abbrev Ret := Bytes × Option VmErr

/-- `executionFunc`. -/
abbrev Execution (S : Type) := Env → Calls S → Machine S → Except Fault (Ret × Machine S)

/-- `gasFunc`: the cost (`none` is an error) of an operation that needs so much memory. -/
abbrev GasFunc (S : Type) := Env → Machine S → UInt64 → Except Fault (Option UInt64 × Machine S)

abbrev MemorySizeFunc := List Int → Option Int

def createAddress (keccak : Bytes → Hash) (b : Address) (nonce : UInt64) : Address :=
  bytesToAddress
    ((keccak (Rlp.Item.list [.str b.val, .str (beBytes nonce.toNat)]).encode).val.drop 12)

end Geth.Vm
