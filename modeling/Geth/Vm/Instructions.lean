import Geth.Vm.GasTable

/-!
# Operations (`core/vm/instructions.go`)

The operations in the order of the source. A member of a family is its combinator applied to the
member's own function: `onStack` for what only rearranges the stack, `pushing` for what pushes a
value, `binary` and the like for arithmetic. Integers are values here; the pool of integers and the
pointers that the Go code reuses are left out.
-/

namespace Geth.Vm

open Lib State

variable {S : Type}

/-- The result of an operation that returns neither data nor an error. -/
def proceed (m : Machine S) : Except Fault (Ret × Machine S) := .ok (([], none), m)

/-! ## The stack -/

/-- An operation on the stack alone. -/
def onStack (f : List Int → Option (List Int)) : Execution S := fun _ _ m =>
  match f m.stack with
  | none => .error .stack
  | some stack => proceed { m with stack := stack }

/-- An operation that pushes a value. -/
def pushing (f : Env → Machine S → Int) : Execution S := fun env _ m =>
  proceed { m with stack := f env m :: m.stack }

/-- An operation on the top of the stack. -/
def unary (f : Int → Int) : Execution S := onStack fun
  | x :: st => some (f x :: st)
  | _ => none

/-- An operation on the two values on the top of the stack. -/
def binary (f : Int → Int → Int) : Execution S := onStack fun
  | x :: y :: st => some (f x y :: st)
  | _ => none

/-- An operation on the three values on the top of the stack. -/
def ternary (f : Int → Int → Int → Int) : Execution S := onStack fun
  | x :: y :: z :: st => some (f x y z :: st)
  | _ => none

/-- The word of a truth value. -/
def ofBool (b : Bool) : Int := if b then 1 else 0

/-! ## Arithmetic -/

def opAdd : Execution S := binary fun x y => u256 (x + y)

def opSub : Execution S := binary fun x y => u256 (x - y)

def opMul : Execution S := binary fun x y => u256 (x * y)

/-- The value of `opDiv`. -/
def div (x y : Int) : Int := if y ≠ 0 then u256 (x / y) else 0

def opDiv : Execution S := binary div

/-- The value of `opSdiv`. -/
def sdiv (x y : Int) : Int :=
  let x := s256 x
  let y := s256 y
  if y = 0 ∨ x = 0 then 0
  else if x.sign ≠ y.sign then u256 (-((x.natAbs : Int) / y.natAbs))
  else u256 ((x.natAbs : Int) / y.natAbs)

def opSdiv : Execution S := binary sdiv

/-- The value of `opMod`. -/
def mod (x y : Int) : Int := if y = 0 then 0 else u256 (x % y)

def opMod : Execution S := binary mod

/-- The value of `opSmod`. -/
def smod (x y : Int) : Int :=
  let x := s256 x
  let y := s256 y
  if y = 0 then 0
  else if x < 0 then u256 (-((x.natAbs : Int) % y.natAbs))
  else u256 ((x.natAbs : Int) % y.natAbs)

def opSmod : Execution S := binary smod

def opExp : Execution S := binary fun base exponent => (exp 64 base exponent).1

/-- The value of `opSignExtend` for a position below 31. -/
def signExtend (back num : Int) : Int :=
  let bit := ((uint64 back) * 8 + 7).toNat
  let mask : Int := 2 ^ bit - 1
  if Vm.bit num bit then u256 (Int.lor num (Int.lnot mask)) else u256 (Int.land num mask)

/-- `opSignExtend`: from position 31 on the number stays as it is. -/
def opSignExtend : Execution S := onStack fun
  | back :: st => if back < 31 then
      match st with
      | num :: st => some (signExtend back num :: st)
      | [] => none
    else some st
  | _ => none

def opNot : Execution S := unary fun x => u256 (Int.lnot x)

def opLt : Execution S := binary fun x y => ofBool (decide (x < y))

def opGt : Execution S := binary fun x y => ofBool (decide (x > y))

/-- The value of `opSlt`. -/
def slt (x y : Int) : Int :=
  if x ≥ 2 ^ 255 ∧ y < 2 ^ 255 then 1
  else if x < 2 ^ 255 ∧ y ≥ 2 ^ 255 then 0
  else ofBool (decide (x < y))

def opSlt : Execution S := binary slt

/-- The value of `opSgt`. -/
def sgt (x y : Int) : Int :=
  if x ≥ 2 ^ 255 ∧ y < 2 ^ 255 then 0
  else if x < 2 ^ 255 ∧ y ≥ 2 ^ 255 then 1
  else ofBool (decide (x > y))

def opSgt : Execution S := binary sgt

def opEq : Execution S := binary fun x y => ofBool (decide (x = y))

def opIszero : Execution S := unary fun x => if x > 0 then 0 else 1

def opAnd : Execution S := binary Int.land

def opOr : Execution S := binary Int.lor

def opXor : Execution S := binary Int.xor

def opByte : Execution S := binary fun th val => if th < 32 then byte val 32 (int64 th) else 0

def opAddmod : Execution S := ternary fun x y z => if z > 0 then u256 ((x + y) % z) else 0

def opMulmod : Execution S := ternary fun x y z => if z > 0 then u256 (x * y % z) else 0

/-- The value of `opSHL`. -/
def shl (shift value : Int) : Int :=
  let shift := u256 shift
  let value := u256 value
  if shift ≥ 256 then 0 else u256 (value * 2 ^ (uint64 shift).toNat)

def opSHL : Execution S := binary shl

/-- The value of `opSHR`. -/
def shr (shift value : Int) : Int :=
  let shift := u256 shift
  let value := u256 value
  if shift ≥ 256 then 0 else u256 (value >>> (uint64 shift).toNat)

def opSHR : Execution S := binary shr

/-- The value of `opSAR`. -/
def sar (shift value : Int) : Int :=
  let shift := u256 shift
  let value := s256 value
  if shift ≥ 256 then
    if value > 0 then u256 0 else u256 (-1)
  else u256 (value >>> (uint64 shift).toNat)

def opSAR : Execution S := binary sar

/-! ## Environment -/

/-- `Big` of an address. -/
def bigOfAddress (addr : Address) : Int := setBytes addr.val

def opAddress : Execution S := pushing fun _ m => bigOfAddress m.contract.self

def opOrigin : Execution S := pushing fun env _ => bigOfAddress env.origin

def opCaller : Execution S := pushing fun _ m => bigOfAddress m.contract.callerAddress

def opCallValue : Execution S := pushing fun _ m => m.contract.value

def opCallDataSize : Execution S := pushing fun _ m => m.contract.input.length

def opReturnDataSize : Execution S := pushing fun _ m => m.evm.returnData.length

def opCodeSize : Execution S := pushing fun _ m => m.contract.code.length

def opGasprice : Execution S := pushing fun env _ => env.gasPrice

def opCoinbase : Execution S := pushing fun env _ => bigOfAddress env.coinbase

def opTimestamp : Execution S := pushing fun env _ => u256 env.time

def opNumber : Execution S := pushing fun env _ => u256 env.blockNumber

def opDifficulty : Execution S := pushing fun env _ => u256 env.difficulty

def opGasLimit : Execution S := pushing fun env _ => u256 env.gasLimit.toNat

def opBlockhash : Execution S := fun env _ m =>
  match m.stack with
  | num :: st => proceed { m with stack :=
      (if num > env.blockNumber - 257 ∧ num < env.blockNumber
        then setBytes (env.getHash (uint64 num)).val else 0) :: st }
  | _ => .error .stack

def opCallDataLoad : Execution S := fun _ _ m =>
  match m.stack with
  | start :: st =>
    match getDataBig m.contract.input start 32 with
    | none => .error .slice
    | some data => proceed { m with stack := setBytes data :: st }
  | _ => .error .stack

def opPop : Execution S := onStack fun
  | _ :: st => some st
  | _ => none

def opPc : Execution S := pushing fun _ m => m.pc

def opMsize : Execution S := pushing fun _ m => m.mem.len

def opGas : Execution S := pushing fun _ m => m.contract.gas.toNat

/-- `makePush`: bytes that the code does not have are zero. -/
def makePush (size : Nat) : Execution S := fun _ _ m =>
  let codeLen := m.contract.code.length
  let startMin := if m.pc + 1 < codeLen then m.pc + 1 else codeLen
  let endMin := if startMin + size < codeLen then startMin + size else codeLen
  let arg := (m.contract.code.drop startMin).take (endMin - startMin)
  match rightPadBytes arg size with
  | none => .error .slice
  | some b => proceed { m with
      stack := setBytes b :: m.stack
      pc := m.pc + size }

def makeDup (size : Nat) : Execution S := onStack fun st => (st[size - 1]?).map (· :: st)

/-- `makeSwap`, with the position that it has counted up by one. -/
def makeSwap (size : Nat) : Execution S := onStack fun st => do
  let x ← st[0]?
  let y ← st[size]?
  some ((st.set 0 y).set size x)

/-! ## Memory -/

def opMload : Execution S := fun _ _ m =>
  match m.stack with
  | offset :: st =>
    match m.mem.get (int64 offset) 32 with
    | none => .error .memory
    | some data => proceed { m with stack := setBytes data :: st }
  | _ => .error .stack

def opMstore : Execution S := fun _ _ m =>
  match m.stack with
  | mStart :: val :: st =>
    match m.mem.set32 (uint64 mStart) val with
    | none => .error .memory
    | some mem => proceed { m with stack := st, mem := mem }
  | _ => .error .stack

def opMstore8 : Execution S := fun _ _ m =>
  match m.stack with
  | off :: val :: st =>
    match m.mem.setByte (int64 off) (UInt8.ofNat (int64 val % 256).toNat) with
    | none => .error .memory
    | some mem => proceed { m with stack := st, mem := mem }
  | _ => .error .stack

/-- The end of the operations that copy data into memory. -/
def copyToMemory (m : Machine S) (st : List Int) (memOffset length : Int) :
    Option Bytes → Except Fault (Ret × Machine S)
  | none => .error .slice
  | some data =>
    match m.mem.set (uint64 memOffset) (uint64 length) data with
    | none => .error .memory
    | some mem => proceed { m with stack := st, mem := mem }

def opCallDataCopy : Execution S := fun _ _ m =>
  match m.stack with
  | memOffset :: dataOffset :: length :: st =>
    copyToMemory m st memOffset length (getDataBig m.contract.input dataOffset length)
  | _ => .error .stack

def opCodeCopy : Execution S := fun _ _ m =>
  match m.stack with
  | memOffset :: codeOffset :: length :: st =>
    copyToMemory m st memOffset length (getDataBig m.contract.code codeOffset length)
  | _ => .error .stack

def opReturnDataCopy : Execution S := fun _ _ m =>
  match m.stack with
  | memOffset :: dataOffset :: length :: st =>
    let stop := dataOffset + length
    if bitLen stop > 64 ∨ UInt64.ofNat m.evm.returnData.length < uint64 stop then
      .ok (([], some .returnDataOutOfBounds), { m with stack := st })
    else copyToMemory m st memOffset length
      (slice m.evm.returnData (uint64 dataOffset) (uint64 stop))
  | _ => .error .stack

def opReturn : Execution S := fun _ _ m =>
  match m.stack with
  | offset :: size :: st =>
    match m.mem.get (int64 offset) (int64 size) with
    | none => .error .memory
    | some ret => .ok ((ret, none), { m with stack := st })
  | _ => .error .stack

def opRevert : Execution S := opReturn

def opStop : Execution S := fun _ _ m => proceed m

/-! ## Jumps -/

/-- The jump of `opJump` and `opJumpi`. -/
def jump (m : Machine S) (st : List Int) (pos : Int) : Except Fault (Ret × Machine S) :=
  match m.evm.jumpdests.has m.contract.codeHash m.contract.code pos with
  | .error fault => .error fault
  | .ok (valid, jumpdests) =>
    let m := { m with stack := st, evm := { m.evm with jumpdests := jumpdests } }
    if valid then proceed { m with pc := (uint64 pos).toNat }
    else
      let nop := m.contract.getOp (uint64 pos).toNat
      .ok (([], some (.invalidJumpDestination nop pos)), m)

def opJump : Execution S := fun _ _ m =>
  match m.stack with
  | pos :: st => jump m st pos
  | _ => .error .stack

def opJumpi : Execution S := fun _ _ m =>
  match m.stack with
  | pos :: cond :: st =>
    if cond ≠ 0 then jump m st pos else proceed { m with stack := st, pc := m.pc + 1 }
  | _ => .error .stack

def opJumpdest : Execution S := fun _ _ m => proceed m

/-! ## State -/

variable [StateDB S]

def opSha3 : Execution S := fun env _ m =>
  match m.stack with
  | offset :: size :: st =>
    match m.mem.get (int64 offset) (int64 size) with
    | none => .error .memory
    | some data =>
      let hash := env.crypto.keccak data
      let db := if env.enablePreimageRecording
        then StateDB.addPreimage m.evm.db hash data else m.evm.db
      proceed { m.setDb db with stack := setBytes hash.val :: st }
  | _ => .error .stack

/-- An operation that replaces an address on the stack by what a getter says of it. -/
def querying (get : S → Address → Int × S) : Execution S := fun _ _ m =>
  match m.stack with
  | slot :: st =>
    let (value, db) := get m.evm.db (bigToAddress slot)
    proceed { m.setDb db with stack := value :: st }
  | _ => .error .stack

def opBalance : Execution S := querying StateDB.getBalance

def opExtCodeSize : Execution S := querying fun db addr =>
  let (size, db) := StateDB.getCodeSize db addr
  (size, db)

def opExtCodeCopy : Execution S := fun _ _ m =>
  match m.stack with
  | addr :: memOffset :: codeOffset :: length :: st =>
    let (code, db) := StateDB.getCode m.evm.db (bigToAddress addr)
    copyToMemory (m.setDb db) st memOffset length (getDataBig code codeOffset length)
  | _ => .error .stack

def opSload : Execution S := fun _ _ m =>
  match m.stack with
  | loc :: st =>
    let (val, db) := StateDB.getState m.evm.db m.contract.self (bigToHash loc)
    proceed { m.setDb db with stack := setBytes val.val :: st }
  | _ => .error .stack

def opSstore : Execution S := fun _ _ m =>
  match m.stack with
  | loc :: val :: st =>
    proceed { m.setDb (StateDB.setState m.evm.db m.contract.self (bigToHash loc) (bigToHash val))
      with stack := st }
  | _ => .error .stack

/-- `makeLog`; the state database fills in what the machine does not know. -/
def makeLog (size : Nat) : Execution S := fun env _ m =>
  match m.stack with
  | mStart :: mSize :: st =>
    if st.length < size then .error .stack
    else
      match m.mem.get (int64 mStart) (int64 mSize) with
      | none => .error .memory
      | some d =>
        let log : Log := {
          address := m.contract.self
          topics := (st.take size).map bigToHash
          data := d
          blockNumber := uint64 env.blockNumber
          txHash := Hash.zero
          txIndex := 0
          blockHash := Hash.zero
          index := 0 }
        proceed { m.setDb (StateDB.addLog m.evm.db log) with stack := st.drop size }
  | _ => .error .stack

def opSuicide : Execution S := fun _ _ m =>
  match m.stack with
  | beneficiary :: st =>
    let (balance, db) := StateDB.getBalance m.evm.db m.contract.self
    let db := StateDB.addBalance db (bigToAddress beneficiary) balance
    proceed { m.setDb (StateDB.suicide db m.contract.self) with stack := st }
  | _ => .error .stack

/-! ## Calls -/

/-- The word that a call pushes. -/
def CallResult.success (res : CallResult) : Int := if res.err = none then 1 else 0

/-- The end of the operations that call: the result on the stack, the data in memory, the gas that
is left over back in the frame. -/
def resume (m : Machine S) (st : List Int) (retOffset retSize : Int) :
    Except Fault (CallResult × Evm S) → Except Fault (Ret × Machine S)
  | .error fault => .error fault
  | .ok (res, evm) =>
    let mem := if res.err = none ∨ res.err = some .executionReverted
      then m.mem.set (uint64 retOffset) (uint64 retSize) res.ret else some m.mem
    match mem with
    | none => .error .memory
    | some mem => .ok ((res.ret, none), { m with
        stack := res.success :: st
        mem := mem
        contract := { m.contract with gas := m.contract.gas + res.leftOverGas }
        evm := evm })

/-- The gas of a call with the stipend for the value. -/
def callGasWithStipend (evm : Evm S) (value : Int) : UInt64 :=
  if value ≠ 0 then evm.callGasTemp + callStipend else evm.callGasTemp

def opCall : Execution S := fun _ calls m =>
  match m.stack with
  | _ :: addr :: value :: inOffset :: inSize :: retOffset :: retSize :: st =>
    let value := u256 value
    match m.mem.get (int64 inOffset) (int64 inSize) with
    | none => .error .memory
    | some args => resume m st retOffset retSize
        (calls.call (.contract m.contract) (bigToAddress addr) args
          (callGasWithStipend m.evm value) value m.evm)
  | _ => .error .stack

def opCallCode : Execution S := fun _ calls m =>
  match m.stack with
  | _ :: addr :: value :: inOffset :: inSize :: retOffset :: retSize :: st =>
    let value := u256 value
    match m.mem.get (int64 inOffset) (int64 inSize) with
    | none => .error .memory
    | some args => resume m st retOffset retSize
        (calls.callCode (.contract m.contract) (bigToAddress addr) args
          (callGasWithStipend m.evm value) value m.evm)
  | _ => .error .stack

def opDelegateCall : Execution S := fun _ calls m =>
  match m.stack with
  | _ :: addr :: inOffset :: inSize :: retOffset :: retSize :: st =>
    match m.mem.get (int64 inOffset) (int64 inSize) with
    | none => .error .memory
    | some args => resume m st retOffset retSize
        (calls.delegateCall m.contract (bigToAddress addr) args m.evm.callGasTemp m.evm)
  | _ => .error .stack

def opStaticCall : Execution S := fun _ calls m =>
  match m.stack with
  | _ :: addr :: inOffset :: inSize :: retOffset :: retSize :: st =>
    match m.mem.get (int64 inOffset) (int64 inSize) with
    | none => .error .memory
    | some args => resume m st retOffset retSize
        (calls.staticCall (.contract m.contract) (bigToAddress addr) args m.evm.callGasTemp m.evm)
  | _ => .error .stack

/-- The word that `opCreate` pushes. -/
def createdAddress (env : Env) (err : Option VmErr) (addr : Address) : Int :=
  if env.isHomestead ∧ err = some .codeStoreOutOfGas then 0
  else if err ≠ none ∧ err ≠ some .codeStoreOutOfGas then 0
  else bigOfAddress addr

def opCreate : Execution S := fun env calls m =>
  match m.stack with
  | value :: offset :: size :: st =>
    match m.mem.get (int64 offset) (int64 size) with
    | none => .error .memory
    | some input =>
      let gas := if env.isEIP150 then m.contract.gas - m.contract.gas / 64 else m.contract.gas
      let contract := (m.contract.useGas gas).getD m.contract
      match calls.create (.contract contract) input gas value m.evm with
      | .error fault => .error fault
      | .ok (res, addr, evm) => .ok
          ((if res.err = some .executionReverted then res.ret else [], none), { m with
            stack := createdAddress env res.err addr :: st
            contract := { contract with gas := contract.gas + res.leftOverGas }
            evm := evm })
  | _ => .error .stack

end Geth.Vm
