import Geth.Lib.Bits
import Geth.Rlp.Item

/-!
# Compression of sparse byte strings (`common/bitutil/compress.go`)

A byte string is written as the bit set of its non-zero bytes, which is compressed in turn, followed
by the non-zero bytes.
-/

namespace Geth.Bitutil

open Lib

/-- The loop of `bitsetEncodeBytes`: the bit set and the non-zero bytes so far, at position `i`. -/
def gather : Nat → Bytes → Bytes × Bytes → Bytes × Bytes
  | _, [], acc => acc
  | i, b :: data, (nonZeroBitset, nonZeroBytes) =>
    gather (i + 1) data (if b ≠ 0 then (setBit nonZeroBitset i, nonZeroBytes ++ [b])
        else (nonZeroBitset, nonZeroBytes))

theorem length_gather (i : Nat) (data : Bytes) (acc : Bytes × Bytes) :
    (gather i data acc).1.length = acc.1.length := by
  induction data generalizing i acc with
  | nil => rfl
  | cons b data ih =>
    obtain ⟨bitset, bytes⟩ := acc
    rw [gather, ih]
    split
    · exact length_setBit bitset i
    · rfl

def bitsetEncodeBytes (data : Bytes) : Bytes :=
  if data.length = 0 then []
  else if data.length = 1 then
    if data.head? = some 0 then [] else data
  else
    let gathered := gather 0 data (List.replicate ((data.length + 7) / 8) 0, [])
    if gathered.2.length = 0 then [] else bitsetEncodeBytes gathered.1 ++ gathered.2
termination_by data.length
decreasing_by
  rw [length_gather, List.length_replicate]
  omega

def compressBytes (data : Bytes) : Bytes :=
  let out := bitsetEncodeBytes data
  if out.length < data.length then out else data

/-- Why a decompression fails. -/
inductive DecodeErr where
  | missingData
  | unreferencedData
  | exceededTarget
  | zeroContent
  /-- The panic of `make` for a negative target. -/
  | negativeTarget
  deriving DecidableEq

/-- The loop of `bitsetDecodePartialBytes` with `n` bits to go, at position `i`. -/
def distribute (nonZeroBitset data : Bytes) :
    Nat → Nat → Bytes → Nat → Except DecodeErr (Bytes × Nat)
  | 0, _, decomp, ptr => .ok (decomp, ptr)
  | n + 1, i, decomp, ptr =>
    if bitAt nonZeroBitset i then
      match data[ptr]? with
      | none => .error .missingData
      | some b =>
        if i ≥ decomp.length then .error .exceededTarget
        else if b = 0 then .error .zeroContent
        else distribute nonZeroBitset data n (i + 1) (decomp.set i b) (ptr + 1)
    else distribute nonZeroBitset data n (i + 1) decomp ptr

/-- `bitsetDecodePartialBytes`: the output and the number of bytes of the input that it stands
for. -/
def bitsetDecodePartialBytes (data : Bytes) (target : Int) : Except DecodeErr (Bytes × Nat) :=
  if target = 0 then .ok ([], 0)
  else if target < 0 then .error .negativeTarget
  else
    let decomp := List.replicate target.toNat 0
    match data with
    | [] => .ok (decomp, 0)
    | b :: _ =>
      if target = 1 then .ok ([b], if b ≠ 0 then 1 else 0)
      else
        match bitsetDecodePartialBytes data ((target + 7) / 8) with
        | .error err => .error err
        | .ok (nonZeroBitset, ptr) =>
          distribute nonZeroBitset data (8 * nonZeroBitset.length) 0 decomp ptr
termination_by target.toNat

def bitsetDecodeBytes (data : Bytes) (target : Int) : Except DecodeErr Bytes :=
  match bitsetDecodePartialBytes data target with
  | .error err => .error err
  | .ok (out, size) => if size ≠ data.length then .error .unreferencedData else .ok out

def decompressBytes (data : Bytes) (target : Int) : Except DecodeErr Bytes :=
  if data.length > target then .error .exceededTarget
  else if data.length = target then .ok data
  else bitsetDecodeBytes data target

end Geth.Bitutil
