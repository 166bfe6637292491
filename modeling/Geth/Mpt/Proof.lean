import Geth.Mpt.Node

/-!
# Merkle proofs (`trie/proof.go`)

`VerifyProof` walks along a key through nodes that it gets by their hashes.
-/

namespace Geth.Mpt

/-- `get`: the rest of the key and the node where the walk through one blob ends; `none` is the
panic of indexing an empty key. -/
def get : LiveNode → Hex → Option (Hex × LiveNode)
  | .short nkey val _, key =>
    if key.length < nkey.length ∨ nkey ≠ key.take nkey.length then some ([], .nil)
    else get val (key.drop nkey.length)
  | .full children _, key =>
    match key with
    | [] => none
    | k :: rest => get (children k) rest
  | .hash h, key => some (key, .hash h)
  | .nil, key => some (key, .nil)
  | .value v, _ => some ([], .value v)

/-- The errors of `VerifyProof`; `panic` and `outOfFuel` stand for runs that do not return. -/
inductive ProofErr where
  | missing (i : Nat) (hash : Hash)
  | bad (i : Nat) (err : NodeErr)
  | panic
  | outOfFuel

/-- The loop of `VerifyProof`: the value and the number of nodes. A proof may lead around in a
circle, so that nothing bounds the loop. -/
def verifyProofLoop (proofDb : Hash → Option Bytes) :
    Nat → Nat → Hash → Hex → Except ProofErr (Option Bytes × Nat)
  | 0, _, _, _ => .error .outOfFuel
  | fuel + 1, i, wantHash, key =>
    match proofDb wantHash with
    | none => .error (.missing i wantHash)
    | some buf =>
      match decodeNode (some wantHash) buf 0 with
      | .error .panic => .error .panic
      | .error err => .error (.bad i err)
      | .ok n =>
        match get n key with
        | none => .error .panic
        | some (_, .nil) => .ok (none, i)
        | some (keyrest, .hash h) => verifyProofLoop proofDb fuel (i + 1) h keyrest
        | some (_, .value v) => .ok (some v, i + 1)
        -- No case of the switch: the loop goes round with the same key.
        | some _ => verifyProofLoop proofDb fuel (i + 1) wantHash key

def verifyProof (fuel : Nat) (rootHash : Hash) (key : Bytes) (proofDb : Hash → Option Bytes) :
    Except ProofErr (Option Bytes × Nat) :=
  verifyProofLoop proofDb fuel 0 rootHash (keybytesToHex key)

end Geth.Mpt
