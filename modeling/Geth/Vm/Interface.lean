import Geth.State.World

/-!
# The state interface of the virtual machine (`core/vm/interface.go`)

What the machine asks of a state database. A getter returns the state as well, since it may load an
account into a cache. `Geth.State.StateDB` implements the interface.
-/

namespace Geth.Vm

open State

/-- `vm.StateDB`. A revert to a revision that is not valid panics. -/
class StateDB (S : Type) where
  createAccount : S → Address → S
  subBalance : S → Address → Int → S
  addBalance : S → Address → Int → S
  getBalance : S → Address → Int × S
  getNonce : S → Address → UInt64 × S
  setNonce : S → Address → UInt64 → S
  getCodeHash : S → Address → Hash × S
  getCode : S → Address → Bytes × S
  setCode : S → Address → Bytes → S
  getCodeSize : S → Address → Nat × S
  addRefund : S → UInt64 → S
  getRefund : S → UInt64
  getState : S → Address → Hash → Hash × S
  setState : S → Address → Hash → Hash → S
  suicide : S → Address → S
  hasSuicided : S → Address → Bool × S
  exist : S → Address → Bool × S
  empty : S → Address → Bool × S
  revertToSnapshot : S → Nat → Option S
  snapshot : S → Nat × S
  addLog : S → Log → S
  addPreimage : S → Hash → Bytes → S

/-- The state database of `core/state`. -/
instance {B : Backend} : StateDB (State.StateDB B) where
  createAccount := State.StateDB.createAccount
  subBalance := State.StateDB.subBalance
  addBalance := State.StateDB.addBalance
  getBalance := State.StateDB.getBalance
  getNonce := State.StateDB.getNonce
  setNonce := State.StateDB.setNonce
  getCodeHash := State.StateDB.getCodeHash
  getCode s addr := ((s.getCode addr).1.getD [], (s.getCode addr).2)
  setCode := State.StateDB.setCode
  getCodeSize := State.StateDB.getCodeSize
  addRefund := State.StateDB.addRefund
  getRefund s := s.refund
  getState := State.StateDB.getState
  setState := State.StateDB.setState
  suicide s addr := (s.suicide addr).2
  hasSuicided := State.StateDB.hasSuicided
  exist := State.StateDB.exist
  empty := State.StateDB.empty
  revertToSnapshot := State.StateDB.revertToSnapshot
  snapshot := State.StateDB.snapshot
  addLog := State.StateDB.addLog
  addPreimage := State.StateDB.addPreimage

end Geth.Vm
