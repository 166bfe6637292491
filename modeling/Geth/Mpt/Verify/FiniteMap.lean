import Geth.Mpt.Verify.Run

/-!
# A trie is a finite map

Whatever is called on a trie that was empty, and in whatever order, it answers as the finite map
that the updates and deletions make, and its hash is that of the map's canonical tree. Hashes,
commits, the unloading of nodes and their way back from the database do not show.
-/

namespace Geth.Mpt

open Lib Rlp

/-- A run never fails, and then `TryGet` returns what was last stored under the key. -/
theorem tryGetKey_run {keccak : Bytes → Hash} {E : Set Bytes} (hE : HashOn keccak E) {tr : Trie}
    (hdb : tr.db.Sound keccak E) (hempty : tr.root = .nil) {ops : List Op}
    (hadm : tr.Admissible keccak E ops) (key : Bytes) :
    ∃ tr', tr.run keccak ops = .ok tr' ∧
      ∃ tr'', tr'.tryGetKey key = .ok (contents ops key, tr'') := by
  obtain ⟨tr', hrun, hinv⟩ := (Inv.of_empty hdb hempty).run hE ops hadm
  obtain ⟨tr'', hget, -⟩ := hinv.tryGetKey hE key
  exact ⟨tr', hrun, tr'', hget⟩

section Example

/-- A hash for examples: the last bytes of the input. -/
def lastBytes (b : Bytes) : Hash :=
  ⟨(b.reverse ++ List.replicate 32 1).take 32, by simp⟩

/-- A run that stores a large and a small value, unloads them and deletes the large one. -/
def sampleRun : List Op :=
  [.update [0x12] (List.replicate 32 7), .update [0x13] [5], .hash, .commit, .commit,
    .get [0x12], .update [0x12] [], .commit]

/-- The encodings it writes. -/
def sampleBlobs : List Bytes :=
  [[226, 32, 160] ++ List.replicate 32 7,
    [243, 128, 128, 160] ++ List.replicate 32 7 ++ [194, 32, 5] ++ List.replicate 13 128,
    [226, 17, 160] ++ List.replicate 13 128 ++ [5, 32, 194] ++ List.replicate 16 7,
    [196, 130, 32, 19, 5]]

/-- An empty trie over an empty database. -/
def sampleTrie : Trie := ⟨⟨[], fun _ => none⟩, .nil, Hash.zero, 0, 0⟩

theorem hashOn_sampleBlobs : HashOn lastBytes { b | b ∈ sampleBlobs } := by
  have hinj : ∀ a ∈ sampleBlobs, ∀ b ∈ sampleBlobs, lastBytes a = lastBytes b → a = b := by
    decide
  have hzero : ∀ b ∈ sampleBlobs, lastBytes b ≠ Hash.zero := by decide
  have hsmall : ∀ b ∈ sampleBlobs, b.length < 2 ^ 63 := by decide
  exact ⟨fun a ha b hb => hinj a ha b hb, hzero, hsmall⟩

theorem sound_sampleTrie (keccak : Bytes → Hash) (E : Set Bytes) :
    sampleTrie.db.Sound keccak E := by
  constructor
  · intro h b hb
    cases hb
  · intro h n hn
    cases hn

theorem admissible_sampleRun : sampleTrie.Admissible lastBytes { b | b ∈ sampleBlobs } sampleRun :=
  Trie.admissible_of_check (by decide +kernel)

theorem tryGetKey_sampleRun : ∃ tr', sampleTrie.run lastBytes sampleRun = .ok tr' ∧
    ∃ tr'', tr'.tryGetKey [0x13] = .ok (some [5], tr'') :=
  tryGetKey_run hashOn_sampleBlobs (sound_sampleTrie _ _) rfl admissible_sampleRun [0x13]

end Example

end Geth.Mpt
