import Geth.Core.Types
import Geth.Core.Signing

/-!
# Proof of authority: snapshots and seals (`consensus/clique`)

A snapshot is the state of the voting on the signers after a block. `apply` takes it through the
headers that follow, and `verifySeal` checks the seal of the next header against it. The map of
recent signers is a list of its entries; the order in which the source walks through it plays no
role. The numbers of headers are cut to 64 bits; counting them up is not, so that a snapshot is
below the last number of 64 bits.
-/

namespace Geth.Clique

open Geth.Core Lib Rlp

structure Vote where
  signer : Address
  block : Nat
  address : Address
  authorize : Bool
  deriving DecidableEq

structure Tally where
  authorize : Bool
  votes : Nat
  deriving DecidableEq

/-- `Snapshot`, without the configuration and the cache of signatures. -/
structure Snapshot where
  number : Nat
  hash : Hash
  signers : Finset Address
  recents : List (Nat × Address)
  votes : List Vote
  tally : Address → Option Tally

inductive CliqueErr where
  | invalidVotingChain
  | missingSignature
  | ecrecover
  | unauthorized
  | invalidVote
  | unknownBlock
  | invalidDifficulty
  /-- The panic of a division by an epoch or a signer count of zero. -/
  | divideByZero
  deriving DecidableEq

def nonceAuthVote : BlockNonce := ⟨List.replicate 8 0xff, rfl⟩

def nonceDropVote : BlockNonce := zeroBytes 8

def extraSeal : Nat := 65

/-- The epoch of an engine made by `New`, which replaces a missing one by `epochLength`. -/
def engineEpoch (epoch : Nat) : Nat := if epoch = 0 then 30000 else epoch

/-- `header.Number.Uint64()`. -/
def blockNumber (header : Header) : Nat := header.number % 2 ^ 64

variable (E : Ecdsa)

/-- `sigHash`: the hash of the header without its seal. -/
def sigHash (header : Header) : Hash :=
  rlpHash E (do
    let difficulty ← bigItem header.difficulty
    some [.str header.parentHash.val, .str header.uncleHash.val, .str header.coinbase.val,
      .str header.root.val, .str header.txHash.val, .str header.receiptHash.val,
        .str header.bloom.val,
      difficulty, .str (beBytes header.number), .str (beBytes header.gasLimit),
      .str (beBytes header.gasUsed), .str (beBytes header.time),
      .str (header.extra.take (header.extra.length - 65)), .str header.mixDigest.val,
      .str header.nonce.val])

def ecrecover (header : Header) : Except CliqueErr Address :=
  if header.extra.length < extraSeal then .error .missingSignature
  else
    let signature := header.extra.drop (header.extra.length - extraSeal)
    match E.ecrecover (sigHash E header) signature with
    | none => .error .ecrecover
    | some pubkey => .ok (bytesToAddress ((E.keccak (pubkey.drop 1)).val.drop 12))

namespace Snapshot

/-- `newSnapshot`. -/
def new (number : Nat) (hash : Hash) (signers : List Address) : Snapshot where
  number := number
  hash := hash
  signers := signers.toFinset
  recents := []
  votes := []
  tally _ := none

/-- The limit of the source: how many blocks a signer has to wait. -/
def limit (s : Snapshot) : Nat := s.signers.card / 2 + 1

/-- `delete(snap.Recents, block)`. -/
def deleteRecent (s : Snapshot) (block : Nat) : Snapshot :=
  { s with recents := s.recents.filter (·.1 ≠ block) }

/-- `snap.Recents[block] = signer`. -/
def setRecent (s : Snapshot) (block : Nat) (signer : Address) : Snapshot :=
  { s with recents := (block, signer) :: s.recents.filter (·.1 ≠ block) }

/-- The deletion of the entry that falls out of the window. -/
def shift (s : Snapshot) (number : Nat) : Snapshot :=
  if number ≥ s.limit then s.deleteRecent (number - s.limit) else s

def validVote (s : Snapshot) (address : Address) (authorize : Bool) : Bool :=
  (decide (address ∈ s.signers) && !authorize) || (!decide (address ∈ s.signers) && authorize)

/-- `cast`; `none` is a vote that makes no sense. -/
def cast (s : Snapshot) (address : Address) (authorize : Bool) : Option Snapshot :=
  if !s.validVote address authorize then none
  else
    let tally : Tally := match s.tally address with
      | some old => { old with votes := old.votes + 1 }
      | none => ⟨authorize, 1⟩
    some { s with tally := Function.update s.tally address (some tally) }

/-- `uncast`; the callers do not use its result. -/
def uncast (s : Snapshot) (address : Address) (authorize : Bool) : Snapshot :=
  match s.tally address with
  | none => s
  | some tally =>
    if tally.authorize ≠ authorize then s
    else if tally.votes > 1 then
      let tally := { tally with votes := tally.votes - 1 }
      { s with tally := Function.update s.tally address (some tally) }
    else { s with tally := Function.update s.tally address none }

/-- The loop over the votes that removes those of a kind, by their index; `undo` is what is done for
each. -/
def discard (select : Vote → Bool) (undo : Snapshot → Vote → Snapshot) (i : Nat) (s : Snapshot) :
    Snapshot :=
  if h : i < s.votes.length then
    if select s.votes[i] then
      discard select undo i { undo s s.votes[i] with votes := s.votes.eraseIdx i }
    else discard select undo (i + 1) s
  else s
termination_by s.votes.length - i
decreasing_by
  · rw [List.length_eraseIdx_of_lt h]
    omega
  · omega

/-- The loop that drops an earlier vote of the signer on an address. -/
def dropEarlier (s : Snapshot) (signer address : Address) : Snapshot :=
  match s.votes.findIdx? fun vote => vote.signer = signer ∧ vote.address = address with
  | none => s
  | some i =>
    match s.votes[i]? with
    | none => s
    | some vote =>
      { s.uncast vote.address vote.authorize with votes := s.votes.eraseIdx i }

/-- The vote of a header. -/
def addVote (s : Snapshot) (signer : Address) (number : Nat) (address : Address)
    (authorize : Bool) : Snapshot :=
  match s.cast address authorize with
  | none => s
  | some s => { s with votes := s.votes ++ [⟨signer, number, address, authorize⟩] }

/-- The votes of a signer that has been dropped. -/
def discardBy (s : Snapshot) (signer : Address) : Snapshot :=
  s.discard (fun vote => vote.signer = signer)
    (fun s vote => s.uncast vote.address vote.authorize) 0

/-- The votes on an account that has changed, and their tally. -/
def discardOn (s : Snapshot) (address : Address) : Snapshot :=
  let s := s.discard (fun vote => vote.address = address) (fun s _ => s) 0
  { s with tally := Function.update s.tally address none }

/-- The update of the signers when a vote has passed. -/
def pass (s : Snapshot) (number : Nat) (address : Address) : Snapshot :=
  match s.tally address with
  | none => s
  | some tally =>
    if tally.votes > s.signers.card / 2 then
      if tally.authorize then
        discardOn { s with signers := insert address s.signers } address
      else
        discardOn (discardBy (shift { s with signers := s.signers.erase address } number) address)
          address
    else s

/-- The first part of the loop over the headers: the checkpoint, and the window of recent
signers. -/
def prepare (s : Snapshot) (epoch number : Nat) : Snapshot :=
  let s := if number % epoch = 0 then { s with votes := [], tally := fun _ => none } else s
  s.shift number

/-- One round of the loop over the headers. -/
def applyHeader (epoch : Nat) (s : Snapshot) (header : Header) : Except CliqueErr Snapshot :=
  if epoch = 0 then .error .divideByZero
  else
    let s := s.prepare epoch (blockNumber header)
    match ecrecover E header with
    | .error err => .error err
    | .ok signer =>
      if signer ∉ s.signers then .error .unauthorized
      else if s.recents.any fun recent => recent.2 = signer then .error .unauthorized
      else
        let s := (s.setRecent (blockNumber header) signer).dropEarlier signer header.coinbase
        if header.nonce = nonceAuthVote then
          .ok ((s.addVote signer (blockNumber header) header.coinbase true).pass
            (blockNumber header) header.coinbase)
        else if header.nonce = nonceDropVote then
          .ok ((s.addVote signer (blockNumber header) header.coinbase false).pass
            (blockNumber header) header.coinbase)
        else .error .invalidVote

/-- The loop over the headers. -/
def applyLoop (epoch : Nat) : Snapshot → List Header → Except CliqueErr Snapshot
  | s, [] => .ok s
  | s, header :: headers =>
    match applyHeader E epoch s header with
    | .error err => .error err
    | .ok s => applyLoop epoch s headers

/-- The numbers of the headers follow each other. -/
def consecutive : List Header → Bool
  | [] => true
  | [_] => true
  | a :: b :: headers => decide (blockNumber b = blockNumber a + 1) && consecutive (b :: headers)

/-- `apply`; `hash` is that of a header. -/
def apply (hash : Header → Hash) (epoch : Nat) (s : Snapshot) (headers : List Header) :
    Except CliqueErr Snapshot :=
  match headers with
  | [] => .ok s
  | first :: rest =>
    if !consecutive (first :: rest) then .error .invalidVotingChain
    else if blockNumber first ≠ s.number + 1 then .error .invalidVotingChain
    else
      match applyLoop E epoch s (first :: rest) with
      | .error err => .error err
      | .ok snap =>
        .ok { snap with
          number := snap.number + (first :: rest).length
          hash := hash ((first :: rest).getLast (List.cons_ne_nil first rest)) }

/-- `inturn`; `none` is the panic for an empty set of signers. The index of a signer in the
ascending list is the number of the smaller ones; the search for another address runs to the end of
the list. -/
def inturn (s : Snapshot) (number : Nat) (signer : Address) : Option Bool :=
  let offset :=
    if signer ∈ s.signers then (s.signers.filter fun a => a.val < signer.val).card
    else s.signers.card
  if s.signers.card = 0 then none else some (number % s.signers.card = offset)

/-- `CalcDifficulty` of the engine: 2 for a signer whose turn the next block is, and 1 for the
others; `none` is the panic of `inturn`. -/
def calcDifficulty (s : Snapshot) (signer : Address) : Option Int :=
  (s.inturn (s.number + 1) signer).map fun inturn => if inturn then 2 else 1

/-- `number - limit` in the type `uint64`. -/
def uint64Sub (number limit : Nat) : Nat :=
  if limit ≤ number then number - limit else number + (2 ^ 64 - limit)

/-- `verifySeal`, given the snapshot of the parent. -/
def verifySeal (s : Snapshot) (header : Header) : Except CliqueErr Unit :=
  if blockNumber header = 0 then .error .unknownBlock
  else
    match ecrecover E header with
    | .error err => .error err
    | .ok signer =>
      if signer ∉ s.signers then .error .unauthorized
      else if s.recents.any fun (seen, recent) =>
          recent = signer ∧ seen > uint64Sub (blockNumber header) s.limit then .error .unauthorized
      else
        match s.inturn (blockNumber header) signer with
        | none => .error .divideByZero
        | some inturn =>
          if inturn ∧ header.difficulty ≠ 2 then .error .invalidDifficulty
          else if ¬ inturn ∧ header.difficulty ≠ 1 then .error .invalidDifficulty
          else .ok ()

end Snapshot

end Geth.Clique
