import Mathlib.Data.Int.Notation

/-!
# Protocol parameters (`params/protocol_params.go`, `params/gas_table.go`, `params/config.go`)

The prices of the virtual machine and the forks that change them.
-/

namespace Geth.Vm

/-! ## Prices -/

def callValueTransferGas : UInt64 := 9000

def callNewAccountGas : UInt64 := 25000

/-- `params.CallStipend`: free gas given at the beginning of a call that transfers value. -/
def callStipend : UInt64 := 2300

def quadCoeffDiv : UInt64 := 512

def memoryGas : UInt64 := 3

def sstoreSetGas : UInt64 := 20000

def sstoreResetGas : UInt64 := 5000

def sstoreClearGas : UInt64 := 5000

def sstoreRefundGas : UInt64 := 15000

def suicideRefundGas : UInt64 := 24000

def logGas : UInt64 := 375

def logTopicGas : UInt64 := 375

def logDataGas : UInt64 := 8

def sha3Gas : UInt64 := 30

def sha3WordGas : UInt64 := 6

def copyGas : UInt64 := 3

def jumpdestGas : UInt64 := 1

def createGas : UInt64 := 32000

def createDataGas : UInt64 := 200

def callCreateDepth : Nat := 1024

def stackLimit : Nat := 1024

def maxCodeSize : Nat := 24576

def gasQuickStep : UInt64 := 2

def gasFastestStep : UInt64 := 3

def gasFastStep : UInt64 := 5

def gasMidStep : UInt64 := 8

def gasSlowStep : UInt64 := 10

def gasExtStep : UInt64 := 20

/-! ## Gas tables -/

/-- `params.GasTable`. A zero `createBySuicide` means that it is not charged. -/
structure GasTable where
  extcodeSize : UInt64
  extcodeCopy : UInt64
  balance : UInt64
  sLoad : UInt64
  calls : UInt64
  suicide : UInt64
  expByte : UInt64
  createBySuicide : UInt64

def gasTableHomestead : GasTable where
  extcodeSize := 20
  extcodeCopy := 20
  balance := 20
  sLoad := 50
  calls := 40
  suicide := 0
  expByte := 10
  createBySuicide := 0

def gasTableEIP150 : GasTable where
  extcodeSize := 700
  extcodeCopy := 700
  balance := 400
  sLoad := 200
  calls := 700
  suicide := 5000
  expByte := 10
  createBySuicide := 25000

def gasTableEIP158 : GasTable where
  extcodeSize := 700
  extcodeCopy := 700
  balance := 400
  sLoad := 200
  calls := 700
  suicide := 5000
  expByte := 50
  createBySuicide := 25000

/-! ## Forks -/

/-- The fork blocks of `params.ChainConfig` that the virtual machine looks at; `none` is a fork that
never happens. -/
structure ChainConfig where
  homesteadBlock : Option Int
  eip150Block : Option Int
  eip158Block : Option Int
  byzantiumBlock : Option Int
  constantinopleBlock : Option Int

def isForked (s : Option Int) (head : Int) : Bool :=
  s.any fun s => s ≤ head

namespace ChainConfig

def isHomestead (c : ChainConfig) (num : Int) : Bool := isForked c.homesteadBlock num

def isEIP150 (c : ChainConfig) (num : Int) : Bool := isForked c.eip150Block num

def isEIP158 (c : ChainConfig) (num : Int) : Bool := isForked c.eip158Block num

def isByzantium (c : ChainConfig) (num : Int) : Bool := isForked c.byzantiumBlock num

def isConstantinople (c : ChainConfig) (num : Int) : Bool := isForked c.constantinopleBlock num

def gasTable (c : ChainConfig) (num : Int) : GasTable :=
  if c.isEIP158 num then gasTableEIP158
  else if c.isEIP150 num then gasTableEIP150
  else gasTableHomestead

end ChainConfig

end Geth.Vm
