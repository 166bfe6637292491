import Geth.Vm.Machine

/-!
# Gas and memory sizes of the operations (`core/vm/gas_table.go`, `gas.go`, `memory_table.go`)

A gas function may change the machine: the cost of the memory so far, the gas set aside for a call,
the refund counter and, through the getters, the caches of the state database.
-/

namespace Geth.Vm

open State

variable {S : Type}

/-! ## Memory sizes -/

/-- The size of memory that an operation with an offset and a length on the stack needs. -/
def memorySizeAt (off len : Nat) : MemorySizeFunc := fun stack => do
  let off ← stack[off]?
  let len ← stack[len]?
  some (calcMemSize off len)

/-- The size of memory that an access of a fixed length needs. -/
def memorySizeOf (len : Int) : MemorySizeFunc := fun stack => do
  let off ← stack[0]?
  some (calcMemSize off len)

/-- The size of memory for the input and the output of a call. -/
def memorySizeMax (x y : MemorySizeFunc) : MemorySizeFunc := fun stack => do
  let x ← x stack
  let y ← y stack
  some (max x y)

def memorySha3 : MemorySizeFunc := memorySizeAt 0 1

def memoryCallDataCopy : MemorySizeFunc := memorySizeAt 0 2

def memoryReturnDataCopy : MemorySizeFunc := memorySizeAt 0 2

def memoryCodeCopy : MemorySizeFunc := memorySizeAt 0 2

def memoryExtCodeCopy : MemorySizeFunc := memorySizeAt 1 3

def memoryMLoad : MemorySizeFunc := memorySizeOf 32

def memoryMStore8 : MemorySizeFunc := memorySizeOf 1

def memoryMStore : MemorySizeFunc := memorySizeOf 32

def memoryCreate : MemorySizeFunc := memorySizeAt 1 2

def memoryCall : MemorySizeFunc := memorySizeMax (memorySizeAt 5 6) (memorySizeAt 3 4)

def memoryDelegateCall : MemorySizeFunc := memorySizeMax (memorySizeAt 4 5) (memorySizeAt 2 3)

def memoryStaticCall : MemorySizeFunc := memorySizeMax (memorySizeAt 4 5) (memorySizeAt 2 3)

def memoryReturn : MemorySizeFunc := memorySizeAt 0 1

def memoryRevert : MemorySizeFunc := memorySizeAt 0 1

def memoryLog : MemorySizeFunc := memorySizeAt 0 1

/-! ## Gas -/

def memoryGasCost (mem : Memory) (newMemSize : UInt64) : Option UInt64 × Memory :=
  if newMemSize = 0 then (some 0, mem)
  else if newMemSize > 0xffffffffe0 then (none, mem)
  else
    let newMemSizeWords := toWordSize newMemSize
    let newMemSize := newMemSizeWords * 32
    if newMemSize > UInt64.ofNat mem.len then
      let square := newMemSizeWords * newMemSizeWords
      let linCoef := newMemSizeWords * memoryGas
      let quadCoef := square / quadCoeffDiv
      let newTotalFee := linCoef + quadCoef
      (some (newTotalFee - mem.lastGasCost), { mem with lastGasCost := newTotalFee })
    else (some 0, mem)

/-- The cost of the memory, from which `k` makes the cost of the operation. -/
def withMemoryGas (m : Machine S) (memorySize : UInt64) (k : UInt64 → Option UInt64) :
    Option UInt64 × Machine S :=
  let (gas, mem) := memoryGasCost m.mem memorySize
  (gas.bind k, { m with mem := mem })

def constGasFunc (gas : UInt64) : GasFunc S := fun _ m _ => .ok (some gas, m)

/-- A cost from the gas table. -/
def tableGas (gas : GasTable → UInt64) : GasFunc S := fun env m _ =>
    .ok (some (gas env.gasTable), m)

/-- A fixed cost on top of the memory. -/
def memoryPlusGas (gas : UInt64) : GasFunc S := fun _ m memorySize =>
  .ok (withMemoryGas m memorySize fun g => safeAdd g gas)

/-- A fixed cost on top of the memory and a cost for each word of the length on the stack. -/
def copyGasFunc (gas : Env → UInt64) (len : Nat) (perWord : UInt64) : GasFunc S :=
  fun env m memorySize =>
    match m.stack[len]? with
    | none => .error .stack
    | some len => .ok (withMemoryGas m memorySize fun g => do
        let g ← safeAdd g (gas env)
        let words ← bigUint64 len
        let words ← safeMul (toWordSize words) perWord
        safeAdd g words)

def gasCallDataCopy : GasFunc S := copyGasFunc (fun _ => gasFastestStep) 2 copyGas

def gasReturnDataCopy : GasFunc S := copyGasFunc (fun _ => gasFastestStep) 2 copyGas

def gasCodeCopy : GasFunc S := copyGasFunc (fun _ => gasFastestStep) 2 copyGas

def gasExtCodeCopy : GasFunc S := copyGasFunc (fun env => env.gasTable.extcodeCopy) 3 copyGas

def gasSha3 : GasFunc S := copyGasFunc (fun _ => sha3Gas) 1 sha3WordGas

def makeGasLog (n : UInt64) : GasFunc S := fun _ m memorySize =>
  match m.stack[1]? with
  | none => .error .stack
  | some size =>
    match bigUint64 size with
    | none => .ok (none, m)
    | some requestedSize => .ok (withMemoryGas m memorySize fun g => do
        let g ← safeAdd g logGas
        let g ← safeAdd g (n * logTopicGas)
        let memorySizeGas ← safeMul requestedSize logDataGas
        safeAdd g memorySizeGas)

def gasMLoad : GasFunc S := memoryPlusGas gasFastestStep

def gasMStore8 : GasFunc S := memoryPlusGas gasFastestStep

def gasMStore : GasFunc S := memoryPlusGas gasFastestStep

def gasCreate : GasFunc S := memoryPlusGas createGas

def gasBalance : GasFunc S := tableGas GasTable.balance

def gasExtCodeSize : GasFunc S := tableGas GasTable.extcodeSize

def gasSLoad : GasFunc S := tableGas GasTable.sLoad

def gasReturn : GasFunc S := fun _ m memorySize => .ok (withMemoryGas m memorySize some)

def gasRevert : GasFunc S := fun _ m memorySize => .ok (withMemoryGas m memorySize some)

def gasPush : GasFunc S := constGasFunc gasFastestStep

def gasSwap : GasFunc S := constGasFunc gasFastestStep

def gasDup : GasFunc S := constGasFunc gasFastestStep

def gasExp : GasFunc S := fun env m _ =>
  match m.stack[1]? with
  | none => .error .stack
  | some exponent =>
    let expByteLen := UInt64.ofNat ((bitLen exponent + 7) / 8)
    .ok (safeAdd (expByteLen * env.gasTable.expByte) gasSlowStep, m)

/-- `callGas`: the gas set aside for a call out of what is available beyond the base cost. -/
def callGas (gasTable : GasTable) (availableGas base : UInt64) (callCost : Int) : Option UInt64 :=
  let availableGas := availableGas - base
  let gas := availableGas - availableGas / 64
  if gasTable.createBySuicide > 0 ∧ (bitLen callCost > 64 ∨ gas < uint64 callCost) then some gas
  else if bitLen callCost > 64 then none
  else some (uint64 callCost)

/-- The end of the gas functions of the calls: the gas for the callee on top of the base cost. -/
def chargeCall (env : Env) (base : Option UInt64 × Machine S) (requested : Int) :
    Option UInt64 × Machine S :=
  match base with
  | (none, m) => (none, m)
  | (some gas, m) =>
    let temp := callGas env.gasTable m.contract.gas gas requested
    (temp.bind (safeAdd gas), { m with evm := { m.evm with callGasTemp := temp.getD 0 } })

variable [StateDB S]

/-- Whether `gasCall` charges for a new account. -/
def chargesNewAccount (env : Env) (db : S) (address : Address) (transfersValue : Bool) : Bool × S :=
  if env.isEIP158 then
    if transfersValue then StateDB.empty db address else (false, db)
  else
    let (exists?, db) := StateDB.exist db address
    (!exists?, db)

def gasCall : GasFunc S := fun env m memorySize =>
  match m.stack with
  | requested :: address :: value :: _ =>
    let transfersValue := decide (value ≠ 0)
    let (fresh, db) := chargesNewAccount env m.evm.db (bigToAddress address) transfersValue
    let gas := env.gasTable.calls + (if fresh then callNewAccountGas else 0) +
      (if transfersValue then callValueTransferGas else 0)
    .ok (chargeCall env (withMemoryGas (m.setDb db) memorySize (safeAdd gas)) requested)
  | _ => .error .stack

def gasCallCode : GasFunc S := fun env m memorySize =>
  match m.stack with
  | requested :: _ :: value :: _ =>
    let gas := env.gasTable.calls + (if value ≠ 0 then callValueTransferGas else 0)
    .ok (chargeCall env (withMemoryGas m memorySize (safeAdd gas)) requested)
  | _ => .error .stack

def gasDelegateCall : GasFunc S := fun env m memorySize =>
  match m.stack with
  | requested :: _ =>
    .ok (chargeCall env (withMemoryGas m memorySize fun g => safeAdd g env.gasTable.calls)
      requested)
  | _ => .error .stack

def gasStaticCall : GasFunc S := fun env m memorySize =>
  match m.stack with
  | requested :: _ =>
    .ok (chargeCall env (withMemoryGas m memorySize fun g => safeAdd g env.gasTable.calls)
      requested)
  | _ => .error .stack

def gasSStore : GasFunc S := fun _ m _ =>
  match m.stack with
  | x :: y :: _ =>
    let (val, db) := StateDB.getState m.evm.db m.contract.self (bigToHash x)
    if val = Hash.zero ∧ y ≠ 0 then .ok (some sstoreSetGas, m.setDb db)
    else if val ≠ Hash.zero ∧ y = 0 then
      .ok (some sstoreClearGas, m.setDb (StateDB.addRefund db sstoreRefundGas))
    else .ok (some sstoreResetGas, m.setDb db)
  | _ => .error .stack

/-- Whether `gasSuicide` charges for the creation of the beneficiary. -/
def chargesBeneficiary (env : Env) (db : S) (self address : Address) : Bool × S :=
  if env.isEIP158 then
    match StateDB.empty db address with
    | (true, db) =>
      let (balance, db) := StateDB.getBalance db self
      (decide (balance ≠ 0), db)
    | (false, db) => (false, db)
  else
    let (exists?, db) := StateDB.exist db address
    (!exists?, db)

def gasSuicide : GasFunc S := fun env m _ =>
  match m.stack with
  | beneficiary :: _ =>
    let (gas, db) :=
      if env.isEIP150 then
        let (fresh, db) :=
          chargesBeneficiary env m.evm.db m.contract.self (bigToAddress beneficiary)
        (env.gasTable.suicide + (if fresh then env.gasTable.createBySuicide else 0), db)
      else (0, m.evm.db)
    let (suicided, db) := StateDB.hasSuicided db m.contract.self
    .ok (some gas, m.setDb (if suicided then db else StateDB.addRefund db suicideRefundGas))
  | _ => .error .stack

end Geth.Vm
