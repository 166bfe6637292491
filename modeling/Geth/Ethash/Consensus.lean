import Geth.Core.BlockChain
import Geth.Ethash.Algorithm
import Geth.Params.Config

/-!
# The proof-of-work engine (`consensus/ethash/consensus.go`)

The rules for headers and uncles, and the rewards. Numbers, times and difficulties are unbounded;
the places where the source cuts them to 64 bits are kept. The hashes of headers, the clock, the
caches and the sizes of the datasets are parameters.
-/

namespace Geth.Ethash

open Geth.Core

variable {Tx : Type}

inductive Mode where
  | normal
  | shared
  | test
  | fake
  | fullFake
  deriving DecidableEq

/-- What `VerifySeal` reads of an engine. -/
structure Pow where
  mode : Mode
  fakeFail : UInt64

/-- `Ethash`. -/
structure Engine extends Pow where
  shared : Option Pow

/-- What the rules take from other packages: the hashes of a header, the hash of an empty list of
uncles, the cache that belongs to a block and the size of its dataset. -/
structure Env where
  hashes : Hashes
  hash : Header → Hash
  hashNoNonce : Header → Hash
  emptyUncleHash : Hash
  cache : UInt64 → List UInt32
  datasetSize : UInt64 → Nat

structure ChainReader (Tx : Type) where
  config : ChainConfig
  getBlock : Hash → UInt64 → Option (Block Tx)

/-- The errors of the rules, with the numbers in their texts. -/
inductive HeaderErr where
  | extraDataTooLong (len max : Nat)
  | largeBlockTime
  | futureBlock
  | zeroBlockTime
  | difficulty (have_ want : Int)
  | gasLimitCap (have_ max : Nat)
  | gasUsed (have_ gasLimit : Nat)
  | gasLimit (have_ parent limit : Nat)
  | invalidNumber
  | nonPositiveDifficulty
  | invalidMixDigest
  | invalidPoW
  | badProDAOExtra
  | badNoDAOExtra
  | forkHash (have_ want : Hash)
  | tooManyUncles
  | duplicateUncle
  | uncleIsAncestor
  | danglingUncle
  /-- A panic of the proof-of-work function. -/
  | panic
  deriving DecidableEq

/-! ## Difficulty -/

def minimumDifficulty : Int := 131072

def difficultyBoundDivisor : Int := 2048

def durationLimit : Int := 13

def expDiffPeriod : Int := 100000

/-- The exponential factor, added to a difficulty from the second period on. -/
def addBomb (x periodCount : Int) : Int :=
  if periodCount > 1 then x + 2 ^ (periodCount - 2).toNat else x

def calcDifficultyByzantium (env : Env) (time : UInt64) (parent : Header) : Int :=
  let x := ((time.toNat : Int) - parent.time) / 9
  let x := if parent.uncleHash = env.emptyUncleHash then 1 - x else 2 - x
  let x := if x < -99 then -99 else x
  let x := parent.difficulty + parent.difficulty / difficultyBoundDivisor * x
  let x := if x < minimumDifficulty then minimumDifficulty else x
  let fakeBlockNumber : Int := if parent.number ≥ 2999999 then parent.number - 2999999 else 0
  addBomb x (fakeBlockNumber / expDiffPeriod)

def calcDifficultyHomestead (time : UInt64) (parent : Header) : Int :=
  let x := 1 - ((time.toNat : Int) - parent.time) / 10
  let x := if x < -99 then -99 else x
  let x := parent.difficulty + parent.difficulty / difficultyBoundDivisor * x
  let x := if x < minimumDifficulty then minimumDifficulty else x
  addBomb x ((parent.number + 1) / expDiffPeriod)

def calcDifficultyFrontier (time : UInt64) (parent : Header) : Int :=
  let adjust := parent.difficulty / difficultyBoundDivisor
  let diff :=
    if (time.toNat : Int) - parent.time < durationLimit then parent.difficulty + adjust
    else parent.difficulty - adjust
  let diff := if diff < minimumDifficulty then minimumDifficulty else diff
  let periodCount : Int := (parent.number + 1) / expDiffPeriod
  if periodCount > 1 then max (diff + 2 ^ (periodCount - 2).toNat) minimumDifficulty else diff

def calcDifficulty (env : Env) (config : ChainConfig) (time : UInt64) (parent : Header) : Int :=
  let next : Int := parent.number + 1
  if config.isByzantium next then calcDifficultyByzantium env time parent
  else if config.isHomestead next then calcDifficultyHomestead time parent
  else calcDifficultyFrontier time parent

/-! ## Gas limit -/

/-- The bound of `verifyHeader` on every gas limit. -/
def gasLimitCap : Nat := 0x7fffffffffffffff

/-- The check of `verifyHeader` that the gas limit is near to the one of the parent. -/
def gasLimitOutOfBounds (header parent : Header) : Bool :=
  let diff := Int64.ofNat parent.gasLimit - Int64.ofNat header.gasLimit
  let diff := if diff < 0 then diff * -1 else diff
  let limit := UInt64.ofNat parent.gasLimit / 1024
  diff.toUInt64 ≥ limit || header.gasLimit < 5000

/-- `core.CalcGasLimit` (`core/block_validator.go`), the strategy of a miner; `target` is
`params.TargetGasLimit`. -/
def calcGasLimit (target : UInt64) (parent : Header) : UInt64 :=
  let gasLimit := UInt64.ofNat parent.gasLimit
  let gasUsed := UInt64.ofNat parent.gasUsed
  let contrib := (gasUsed + gasUsed / 2) / 1024
  let decay := gasLimit / 1024 - 1
  let limit := gasLimit - decay + contrib
  let limit := if limit < 5000 then 5000 else limit
  if limit < target then
    let limit := gasLimit + decay
    if limit > target then target else limit
  else limit

/-! ## Headers -/

/-- `VerifySeal` of an engine that does not delegate. -/
def Pow.verifySeal (env : Env) (pow : Pow) (header : Header) : Except HeaderErr Unit :=
  let number := UInt64.ofNat header.number
  if pow.mode = .fake ∨ pow.mode = .fullFake then
    if pow.fakeFail = number then .error .invalidPoW else .ok ()
  else if header.difficulty ≤ 0 then .error .nonPositiveDifficulty
  else
    let size := if pow.mode = .test then 32 * 1024 else env.datasetSize number
    match hashimotoLight env.hashes size (env.cache number) (env.hashNoNonce header).val
        (UInt64.ofNat (Lib.beNat header.nonce.val)) with
    | none => .error .panic
    | some (digest, result) =>
      if header.mixDigest.val ≠ digest then .error .invalidMixDigest
      else if (Lib.beNat result : Int) > 2 ^ 256 / header.difficulty then .error .invalidPoW
      else .ok ()

def Engine.verifySeal (env : Env) (ethash : Engine) (header : Header) : Except HeaderErr Unit :=
  if ethash.mode = .fake ∨ ethash.mode = .fullFake then ethash.toPow.verifySeal env header
  else match ethash.shared with
    | some pow => pow.verifySeal env header
    | none => ethash.toPow.verifySeal env header

def daoForkBlockExtra : Bytes :=
  [0x64, 0x61, 0x6f, 0x2d, 0x68, 0x61, 0x72, 0x64, 0x2d, 0x66, 0x6f, 0x72, 0x6b]

def verifyDAOHeaderExtraData (config : ChainConfig) (header : Header) : Except HeaderErr Unit :=
  match config.daoForkBlock with
  | none => .ok ()
  | some daoForkBlock =>
    if (header.number : Int) < daoForkBlock ∨ (header.number : Int) ≥ daoForkBlock + 10 then .ok ()
    else if config.daoForkSupport then
      if header.extra ≠ daoForkBlockExtra then .error .badProDAOExtra else .ok ()
    else if header.extra = daoForkBlockExtra then .error .badNoDAOExtra
    else .ok ()

def verifyForkHashes (env : Env) (config : ChainConfig) (header : Header) (uncle : Bool) :
    Except HeaderErr Unit :=
  if uncle then .ok ()
  else if config.eip150Block = some (header.number : Int) ∧ config.eip150Hash ≠ Hash.zero ∧
      config.eip150Hash ≠ env.hash header then
    .error (.forkHash (env.hash header) config.eip150Hash)
  else .ok ()

/-- `verifyHeader`; `deadline` is the Unix time up to which a block is not a future one. -/
def Engine.verifyHeader (env : Env) (ethash : Engine) (config : ChainConfig) (deadline : Int64)
    (header parent : Header) (uncle sealed : Bool) : Except HeaderErr Unit :=
  let expected := calcDifficulty env config (UInt64.ofNat header.time) parent
  if header.extra.length > 32 then .error (.extraDataTooLong header.extra.length 32)
  else if uncle ∧ header.time > 2 ^ 256 - 1 then .error .largeBlockTime
  else if ¬ uncle ∧ (header.time : Int) > deadline.toInt then .error .futureBlock
  else if header.time ≤ parent.time then .error .zeroBlockTime
  else if expected ≠ header.difficulty then .error (.difficulty header.difficulty expected)
  else if header.gasLimit > gasLimitCap then .error (.gasLimitCap header.gasLimit gasLimitCap)
  else if header.gasUsed > header.gasLimit then .error (.gasUsed header.gasUsed header.gasLimit)
  else if gasLimitOutOfBounds header parent then
    .error (.gasLimit header.gasLimit parent.gasLimit (parent.gasLimit / 1024))
  else if (header.number : Int) - parent.number ≠ 1 then .error .invalidNumber
  else
    (if sealed then ethash.verifySeal env header else .ok ()).bind fun _ =>
      (verifyDAOHeaderExtraData config header).bind fun _ =>
        verifyForkHashes env config header uncle

/-! ## Uncles -/

/-- The loop of `VerifyUncles` over at most `n` ancestors: the headers of the ancestors by their
hashes, and the hashes of their uncles. -/
def gather (env : Env) (chain : ChainReader Tx) :
    Nat → Hash → UInt64 → (Hash → Option Header) → List Hash → (Hash → Option Header) × List Hash
  | 0, _, _, ancestors, uncles => (ancestors, uncles)
  | n + 1, parent, number, ancestors, uncles =>
    match chain.getBlock parent number with
    | none => (ancestors, uncles)
    | some ancestor =>
      gather env chain n ancestor.parentHash (number - 1)
        (Function.update ancestors (env.hash ancestor.header) (some ancestor.header))
        ((ancestor.uncles.map env.hash).reverse ++ uncles)

/-- The loop of `VerifyUncles` over the uncles of the block. -/
def Engine.verifyEach (env : Env) (ethash : Engine) (config : ChainConfig) (deadline : Int64)
    (block : Block Tx) (ancestors : Hash → Option Header) :
    List Hash → List Header → Except HeaderErr Unit
  | _, [] => .ok ()
  | seen, uncle :: rest =>
    let hash := env.hash uncle
    if hash ∈ seen then .error .duplicateUncle
    else if (ancestors hash).isSome then .error .uncleIsAncestor
    else match ancestors uncle.parentHash with
      | none => .error .danglingUncle
      | some parent =>
        if uncle.parentHash = block.parentHash then .error .danglingUncle
        else (ethash.verifyHeader env config deadline uncle parent true true).bind fun _ =>
          verifyEach env ethash config deadline block ancestors (hash :: seen) rest

def Engine.verifyUncles (env : Env) (ethash : Engine) (chain : ChainReader Tx) (deadline : Int64)
    (block : Block Tx) : Except HeaderErr Unit :=
  if ethash.mode = .fullFake then .ok ()
  else if block.uncles.length > 2 then .error .tooManyUncles
  else
    let (ancestors, uncles) := gather env chain 7 block.parentHash
      (UInt64.ofNat block.header.number - 1) (fun _ => none) []
    let hash := env.hash block.header
    ethash.verifyEach env chain.config deadline block
      (Function.update ancestors hash (some block.header)) (hash :: uncles) block.uncles

/-! ## Rewards -/

def frontierBlockReward : Int := 5000000000000000000

def byzantiumBlockReward : Int := 3000000000000000000

/-- The reward for a block with this number. -/
def blockReward (config : ChainConfig) (header : Header) : Int :=
  if config.isByzantium header.number then byzantiumBlockReward else frontierBlockReward

/-- What an uncle is paid. -/
def uncleReward (config : ChainConfig) (header uncle : Header) : Int :=
  ((uncle.number : Int) + 8 - header.number) * blockReward config header / 8

/-- The loop of `accumulateRewards` over the uncles, with the reward of the miner. -/
def rewardUncles {σ : Type} (addBalance : σ → Address → Int → σ) (config : ChainConfig)
    (header : Header) : List Header → σ × Int → σ × Int
  | [], acc => acc
  | uncle :: rest, (state, reward) =>
    rewardUncles addBalance config header rest
      (addBalance state uncle.coinbase (uncleReward config header uncle),
        reward + blockReward config header / 32)

/-- `accumulateRewards`, over any state with an `AddBalance`. -/
def accumulateRewards {σ : Type} (addBalance : σ → Address → Int → σ) (config : ChainConfig)
    (state : σ) (header : Header) (uncles : List Header) : σ :=
  let (state, reward) :=
    rewardUncles addBalance config header uncles (state, blockReward config header)
  addBalance state header.coinbase reward

end Geth.Ethash
