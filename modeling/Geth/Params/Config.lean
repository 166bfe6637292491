import Geth.Core.Signing

/-!
# The chain configuration (`params/config.go`)

The forks of a chain, and the check that a stored chain can go on under another configuration.
`none` is a fork that never happens, or a chain id that is not set.
-/

namespace Geth

open Vm (isForked)

/-- `params.ChainConfig`, without the settings of the engines. -/
structure ChainConfig extends Vm.ChainConfig where
  chainID : Option Int
  daoForkBlock : Option Int
  daoForkSupport : Bool
  eip150Hash : Hash
  eip155Block : Option Int

structure ConfigCompatError where
  what : String
  storedConfig : Option Int
  newConfig : Option Int
  rewindTo : UInt64

namespace ChainConfig

def isDAOFork (c : ChainConfig) (num : Int) : Bool := isForked c.daoForkBlock num

def isEIP155 (c : ChainConfig) (num : Int) : Bool := isForked c.eip155Block num

def configNumEqual (x y : Option Int) : Bool := x = y

/-- `isForkIncompatible`: a fork cannot be moved once the head is past it. -/
def isForkIncompatible (s₁ s₂ : Option Int) (head : Int) : Bool :=
  (isForked s₁ head || isForked s₂ head) && !configNumEqual s₁ s₂

def newCompatError (what : String) (storedblock newblock : Option Int) : ConfigCompatError :=
  let rew := match storedblock, newblock with
    | none, newblock => newblock
    | some stored, none => some stored
    | some stored, some new => if stored < new then some stored else some new
  let rewindTo := match rew with
    | none => 0
    | some rew => if rew > 0 then Vm.uint64 rew - 1 else 0
  ⟨what, storedblock, newblock, rewindTo⟩

/-- `checkCompatible`; `none` is no error. -/
def checkCompatible (c newcfg : ChainConfig) (head : Int) : Option ConfigCompatError :=
  if isForkIncompatible c.homesteadBlock newcfg.homesteadBlock head then
    some (newCompatError "Homestead fork block" c.homesteadBlock newcfg.homesteadBlock)
  else if isForkIncompatible c.daoForkBlock newcfg.daoForkBlock head then
    some (newCompatError "DAO fork block" c.daoForkBlock newcfg.daoForkBlock)
  else if c.isDAOFork head && c.daoForkSupport != newcfg.daoForkSupport then
    some (newCompatError "DAO fork support flag" c.daoForkBlock newcfg.daoForkBlock)
  else if isForkIncompatible c.eip150Block newcfg.eip150Block head then
    some (newCompatError "EIP150 fork block" c.eip150Block newcfg.eip150Block)
  else if isForkIncompatible c.eip155Block newcfg.eip155Block head then
    some (newCompatError "EIP155 fork block" c.eip155Block newcfg.eip155Block)
  else if isForkIncompatible c.eip158Block newcfg.eip158Block head then
    some (newCompatError "EIP158 fork block" c.eip158Block newcfg.eip158Block)
  else if c.isEIP158 head && !configNumEqual c.chainID newcfg.chainID then
    some (newCompatError "EIP158 chain ID" c.eip158Block newcfg.eip158Block)
  else if isForkIncompatible c.byzantiumBlock newcfg.byzantiumBlock head then
    some (newCompatError "Byzantium fork block" c.byzantiumBlock newcfg.byzantiumBlock)
  else if isForkIncompatible c.constantinopleBlock newcfg.constantinopleBlock head then
    some (newCompatError "Constantinople fork block" c.constantinopleBlock
      newcfg.constantinopleBlock)
  else none

/-- The loop of `CheckCompatible`, for at most `n` rounds; `none` is a loop that goes on. -/
def checkCompatibleLoop (c newcfg : ChainConfig) :
    Nat → Option ConfigCompatError → UInt64 → Option (Option ConfigCompatError)
  | 0, _, _ => none
  | n + 1, lasterr, bhead =>
    match c.checkCompatible newcfg bhead.toNat with
    | none => some lasterr
    | some err =>
      if lasterr.any fun last => err.rewindTo = last.rewindTo then some lasterr
      else checkCompatibleLoop c newcfg n (some err) err.rewindTo

/-- `CheckCompatible`: the error moves the head back by one block at least, so that these rounds are
enough. -/
def CheckCompatible (c newcfg : ChainConfig) (height : UInt64) :
    Option (Option ConfigCompatError) :=
  checkCompatibleLoop c newcfg (height.toNat + 2) none height

/-- `MakeSigner` (`core/types/transaction_signing.go`). -/
def makeSigner (config : ChainConfig) (blockNumber : Int) : Core.Signer :=
  if config.isEIP155 blockNumber then .eip155 (config.chainID.getD 0)
  else if config.isHomestead blockNumber then .homestead
  else .frontier

end ChainConfig

end Geth
