import Geth.Vm.Common

/-!
# The state transition of a transaction (`core/state_transition.go`)
-/

namespace Geth.Core

def txGas : UInt64 := 21000

def txGasContractCreation : UInt64 := 53000

def txDataZeroGas : UInt64 := 4

def txDataNonZeroGas : UInt64 := 68

/-- `IntrinsicGas`; `none` is `vm.ErrOutOfGas`. -/
def intrinsicGas (data : Bytes) (contractCreation homestead : Bool) : Option UInt64 :=
  let gas := if contractCreation && homestead then txGasContractCreation else txGas
  if data.length = 0 then some gas
  else
    let nz : UInt64 := (data.countP (· ≠ 0)).toUInt64
    if (0xffffffffffffffff - gas) / txDataNonZeroGas < nz then none
    else
      let gas := gas + nz * txDataNonZeroGas
      let z := data.length.toUInt64 - nz
      if (0xffffffffffffffff - gas) / txDataZeroGas < z then none
      else some (gas + z * txDataZeroGas)

end Geth.Core
