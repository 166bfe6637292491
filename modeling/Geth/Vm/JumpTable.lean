import Geth.Vm.Instructions

/-!
# Instruction sets (`core/vm/opcodes.go`, `jump_table.go`, `stack_table.go`)

The table of the operations. A fork takes the table of the fork before it and adds entries.
-/

namespace Geth.Vm

/-- `OpCode`. The opcodes that differ in a number only are one constructor, which counts from zero:
`push n` stands for `PUSH1` and so on, `dup n` for `DUP1`, `swap n` for `SWAP1`, `log n` for
`LOG0`. -/
inductive OpCode where
  | stop | add | mul | sub | div | sdiv | mod | smod | addmod | mulmod | exp | signExtend
  | lt | gt | slt | sgt | eq | iszero | and | or | xor | not | byte | shl | shr | sar
  | sha3
  | address | balance | origin | caller | callValue | callDataLoad | callDataSize | callDataCopy
  | codeSize | codeCopy
  | gasprice | extCodeSize | extCodeCopy | returnDataSize | returnDataCopy
  | blockhash | coinbase | timestamp | number | difficulty | gasLimit
  | pop | mload | mstore | mstore8 | sload | sstore | jump | jumpi | pc | msize | gas | jumpdest
  | create | call | callCode | «return» | delegateCall | staticCall | revert | selfdestruct
  | push (n : Fin 32)
  | dup (n : Fin 16)
  | swap (n : Fin 16)
  | log (n : Fin 5)
  deriving DecidableEq

namespace OpCode

/-- The opcode of a byte; `none` is a byte that no table has an entry for. -/
def ofByte (b : UInt8) : Option OpCode :=
  let i := b.toNat
  match i / 16 with
  | 0x0 => [stop, add, mul, sub, div, sdiv, mod, smod, addmod, mulmod, exp, signExtend][i - 0x00]?
  | 0x1 => [lt, gt, slt, sgt, eq, iszero, and, or, xor, not, byte, shl, shr, sar][i - 0x10]?
  | 0x2 => [sha3][i - 0x20]?
  | 0x3 => [address, balance, origin, caller, callValue, callDataLoad, callDataSize, callDataCopy,
      codeSize, codeCopy, gasprice, extCodeSize, extCodeCopy, returnDataSize,
      returnDataCopy][i - 0x30]?
  | 0x4 => [blockhash, coinbase, timestamp, number, difficulty, gasLimit][i - 0x40]?
  | 0x5 => [pop, mload, mstore, mstore8, sload, sstore, jump, jumpi, pc, msize, gas,
      jumpdest][i - 0x50]?
  | 0x6 => some (push (Fin.ofNat 32 (i - 0x60)))
  | 0x7 => some (push (Fin.ofNat 32 (i - 0x60)))
  | 0x8 => some (dup (Fin.ofNat 16 (i - 0x80)))
  | 0x9 => some (swap (Fin.ofNat 16 (i - 0x90)))
  | 0xa => if i - 0xa0 < 5 then some (log (Fin.ofNat 5 (i - 0xa0))) else none
  | 0xf =>
    match i with
    | 0xf0 => some create
    | 0xf1 => some call
    | 0xf2 => some callCode
    | 0xf3 => some «return»
    | 0xf4 => some delegateCall
    | 0xfa => some staticCall
    | 0xfd => some revert
    | 0xff => some selfdestruct
    | _ => none
  | _ => none

end OpCode

/-- `operation`, with the numbers that `makeStackFunc` is given. -/
structure Operation (S : Type) where
  execute : Execution S
  gasCost : GasFunc S
  pops : Nat
  pushes : Nat
  memorySize : Option MemorySizeFunc := none
  halts : Bool := false
  jumps : Bool := false
  writes : Bool := false
  reverts : Bool := false
  returns : Bool := false

/-- The function of `makeStackFunc`. -/
def Operation.validateStack {S : Type} (operation : Operation S) (stack : List Int) :
    Option VmErr :=
  if stack.length < operation.pops then some (.stackUnderflow stack.length operation.pops)
  else if stack.length + operation.pushes - operation.pops > stackLimit then
    some (.stackLimitReached stack.length)
  else none

variable {S : Type} [StateDB S]

/-- `newFrontierInstructionSet`. -/
def frontierInstructionSet : OpCode → Option (Operation S)
  | .stop => some
      { execute := opStop, gasCost := constGasFunc 0, pops := 0, pushes := 0, halts := true }
  | .add => some
      { execute := opAdd, gasCost := constGasFunc gasFastestStep, pops := 2, pushes := 1 }
  | .mul => some { execute := opMul, gasCost := constGasFunc gasFastStep, pops := 2, pushes := 1 }
  | .sub => some
      { execute := opSub, gasCost := constGasFunc gasFastestStep, pops := 2, pushes := 1 }
  | .div => some { execute := opDiv, gasCost := constGasFunc gasFastStep, pops := 2, pushes := 1 }
  | .sdiv => some { execute := opSdiv, gasCost := constGasFunc gasFastStep, pops := 2, pushes := 1 }
  | .mod => some { execute := opMod, gasCost := constGasFunc gasFastStep, pops := 2, pushes := 1 }
  | .smod => some { execute := opSmod, gasCost := constGasFunc gasFastStep, pops := 2, pushes := 1 }
  | .addmod => some
      { execute := opAddmod, gasCost := constGasFunc gasMidStep, pops := 3, pushes := 1 }
  | .mulmod => some
      { execute := opMulmod, gasCost := constGasFunc gasMidStep, pops := 3, pushes := 1 }
  | .exp => some { execute := opExp, gasCost := gasExp, pops := 2, pushes := 1 }
  | .signExtend => some
      { execute := opSignExtend, gasCost := constGasFunc gasFastStep, pops := 2, pushes := 1 }
  | .lt => some { execute := opLt, gasCost := constGasFunc gasFastestStep, pops := 2, pushes := 1 }
  | .gt => some { execute := opGt, gasCost := constGasFunc gasFastestStep, pops := 2, pushes := 1 }
  | .slt => some
      { execute := opSlt, gasCost := constGasFunc gasFastestStep, pops := 2, pushes := 1 }
  | .sgt => some
      { execute := opSgt, gasCost := constGasFunc gasFastestStep, pops := 2, pushes := 1 }
  | .eq => some { execute := opEq, gasCost := constGasFunc gasFastestStep, pops := 2, pushes := 1 }
  | .iszero => some
      { execute := opIszero, gasCost := constGasFunc gasFastestStep, pops := 1, pushes := 1 }
  | .and => some
      { execute := opAnd, gasCost := constGasFunc gasFastestStep, pops := 2, pushes := 1 }
  | .xor => some
      { execute := opXor, gasCost := constGasFunc gasFastestStep, pops := 2, pushes := 1 }
  | .or => some { execute := opOr, gasCost := constGasFunc gasFastestStep, pops := 2, pushes := 1 }
  | .not => some
      { execute := opNot, gasCost := constGasFunc gasFastestStep, pops := 1, pushes := 1 }
  | .byte => some
      { execute := opByte, gasCost := constGasFunc gasFastestStep, pops := 2, pushes := 1 }
  | .sha3 => some
      { execute := opSha3, gasCost := gasSha3, pops := 2, pushes := 1,
        memorySize := some memorySha3 }
  | .address => some
      { execute := opAddress, gasCost := constGasFunc gasQuickStep, pops := 0, pushes := 1 }
  | .balance => some { execute := opBalance, gasCost := gasBalance, pops := 1, pushes := 1 }
  | .origin => some
      { execute := opOrigin, gasCost := constGasFunc gasQuickStep, pops := 0, pushes := 1 }
  | .caller => some
      { execute := opCaller, gasCost := constGasFunc gasQuickStep, pops := 0, pushes := 1 }
  | .callValue => some
      { execute := opCallValue, gasCost := constGasFunc gasQuickStep, pops := 0, pushes := 1 }
  | .callDataLoad => some
      { execute := opCallDataLoad, gasCost := constGasFunc gasFastestStep, pops := 1,
        pushes := 1 }
  | .callDataSize => some
      { execute := opCallDataSize, gasCost := constGasFunc gasQuickStep, pops := 0, pushes := 1 }
  | .callDataCopy => some
      { execute := opCallDataCopy, gasCost := gasCallDataCopy, pops := 3, pushes := 0,
        memorySize := some memoryCallDataCopy }
  | .codeSize => some
      { execute := opCodeSize, gasCost := constGasFunc gasQuickStep, pops := 0, pushes := 1 }
  | .codeCopy => some
      { execute := opCodeCopy, gasCost := gasCodeCopy, pops := 3, pushes := 0,
        memorySize := some memoryCodeCopy }
  | .gasprice => some
      { execute := opGasprice, gasCost := constGasFunc gasQuickStep, pops := 0, pushes := 1 }
  | .extCodeSize => some
      { execute := opExtCodeSize, gasCost := gasExtCodeSize, pops := 1, pushes := 1 }
  | .extCodeCopy => some
      { execute := opExtCodeCopy, gasCost := gasExtCodeCopy, pops := 4, pushes := 0,
        memorySize := some memoryExtCodeCopy }
  | .blockhash => some
      { execute := opBlockhash, gasCost := constGasFunc gasExtStep, pops := 1, pushes := 1 }
  | .coinbase => some
      { execute := opCoinbase, gasCost := constGasFunc gasQuickStep, pops := 0, pushes := 1 }
  | .timestamp => some
      { execute := opTimestamp, gasCost := constGasFunc gasQuickStep, pops := 0, pushes := 1 }
  | .number => some
      { execute := opNumber, gasCost := constGasFunc gasQuickStep, pops := 0, pushes := 1 }
  | .difficulty => some
      { execute := opDifficulty, gasCost := constGasFunc gasQuickStep, pops := 0, pushes := 1 }
  | .gasLimit => some
      { execute := opGasLimit, gasCost := constGasFunc gasQuickStep, pops := 0, pushes := 1 }
  | .pop => some { execute := opPop, gasCost := constGasFunc gasQuickStep, pops := 1, pushes := 0 }
  | .mload => some
      { execute := opMload, gasCost := gasMLoad, pops := 1, pushes := 1,
        memorySize := some memoryMLoad }
  | .mstore => some
      { execute := opMstore, gasCost := gasMStore, pops := 2, pushes := 0,
        memorySize := some memoryMStore }
  | .mstore8 => some
      { execute := opMstore8, gasCost := gasMStore8, pops := 2, pushes := 0,
        memorySize := some memoryMStore8 }
  | .sload => some { execute := opSload, gasCost := gasSLoad, pops := 1, pushes := 1 }
  | .sstore => some
      { execute := opSstore, gasCost := gasSStore, pops := 2, pushes := 0, writes := true }
  | .jump => some
      { execute := opJump, gasCost := constGasFunc gasMidStep, pops := 1, pushes := 0,
        jumps := true }
  | .jumpi => some
      { execute := opJumpi, gasCost := constGasFunc gasSlowStep, pops := 2, pushes := 0,
        jumps := true }
  | .pc => some { execute := opPc, gasCost := constGasFunc gasQuickStep, pops := 0, pushes := 1 }
  | .msize => some
      { execute := opMsize, gasCost := constGasFunc gasQuickStep, pops := 0, pushes := 1 }
  | .gas => some { execute := opGas, gasCost := constGasFunc gasQuickStep, pops := 0, pushes := 1 }
  | .jumpdest => some
      { execute := opJumpdest, gasCost := constGasFunc jumpdestGas, pops := 0, pushes := 0 }
  | .create => some
      { execute := opCreate, gasCost := gasCreate, pops := 3, pushes := 1,
        memorySize := some memoryCreate, writes := true, returns := true }
  | .call => some
      { execute := opCall, gasCost := gasCall, pops := 7, pushes := 1,
        memorySize := some memoryCall, returns := true }
  | .callCode => some
      { execute := opCallCode, gasCost := gasCallCode, pops := 7, pushes := 1,
        memorySize := some memoryCall, returns := true }
  | .«return» => some
      { execute := opReturn, gasCost := gasReturn, pops := 2, pushes := 0,
        memorySize := some memoryReturn, halts := true }
  | .selfdestruct => some
      { execute := opSuicide, gasCost := gasSuicide, pops := 1, pushes := 0, halts := true,
        writes := true }
  | .push n => some { execute := makePush (n + 1), gasCost := gasPush, pops := 0, pushes := 1 }
  | .dup n => some { execute := makeDup (n + 1), gasCost := gasDup, pops := n + 1, pushes := n + 2 }
  | .swap n => some
      { execute := makeSwap (n + 1), gasCost := gasSwap, pops := n + 2, pushes := n + 2 }
  | .log n => some
      { execute := makeLog n, gasCost := makeGasLog (UInt64.ofNat n), pops := n + 2, pushes := 0,
        memorySize := some memoryLog, writes := true }
  | _ => none

/-- `newHomesteadInstructionSet`. -/
def homesteadInstructionSet : OpCode → Option (Operation S)
  | .delegateCall => some
      { execute := opDelegateCall, gasCost := gasDelegateCall, pops := 6, pushes := 1,
        memorySize := some memoryDelegateCall, returns := true }
  | op => frontierInstructionSet op

/-- `newByzantiumInstructionSet`. -/
def byzantiumInstructionSet : OpCode → Option (Operation S)
  | .staticCall => some
      { execute := opStaticCall, gasCost := gasStaticCall, pops := 6, pushes := 1,
        memorySize := some memoryStaticCall, returns := true }
  | .returnDataSize => some
      { execute := opReturnDataSize, gasCost := constGasFunc gasQuickStep, pops := 0,
        pushes := 1 }
  | .returnDataCopy => some
      { execute := opReturnDataCopy, gasCost := gasReturnDataCopy, pops := 3, pushes := 0,
        memorySize := some memoryReturnDataCopy }
  | .revert => some
      { execute := opRevert, gasCost := gasRevert, pops := 2, pushes := 0,
        memorySize := some memoryRevert, reverts := true, returns := true }
  | op => homesteadInstructionSet op

/-- `newConstantinopleInstructionSet`. -/
def constantinopleInstructionSet : OpCode → Option (Operation S)
  | .shl => some
      { execute := opSHL, gasCost := constGasFunc gasFastestStep, pops := 2, pushes := 1 }
  | .shr => some
      { execute := opSHR, gasCost := constGasFunc gasFastestStep, pops := 2, pushes := 1 }
  | .sar => some
      { execute := opSAR, gasCost := constGasFunc gasFastestStep, pops := 2, pushes := 1 }
  | op => byzantiumInstructionSet op

/-- The choice of `NewInterpreter`. -/
def Env.instructionSet (env : Env) : OpCode → Option (Operation S) :=
  if env.isConstantinople then constantinopleInstructionSet
  else if env.isByzantium then byzantiumInstructionSet
  else if env.isHomestead then homesteadInstructionSet
  else frontierInstructionSet

/-- `JumpTable`; `none` is an operation that is not valid. -/
def Env.jumpTable (env : Env) (op : UInt8) : Option (Operation S) :=
  (OpCode.ofByte op).bind env.instructionSet

end Geth.Vm
