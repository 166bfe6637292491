import Geth.State.Account

/-!
# The proof-of-work function (`consensus/ethash/algorithm.go`)

Indices are of 32 bits in the source and wrap here as they do there. `none` is a panic: a remainder
by zero, or an index or a slice out of its bounds. The hash functions are parameters.
-/

namespace Geth.Ethash

/-- Keccak with outputs of 256 and of 512 bits (`crypto/sha3`). -/
structure Hashes where
  keccak256 : Bytes → Bytes
  keccak512 : Bytes → Bytes
  length_keccak256 : ∀ data, (keccak256 data).length = 32
  length_keccak512 : ∀ data, (keccak512 data).length = 64

/-! ## Words -/

def putUint32 (v : UInt32) : Bytes :=
  [v.toUInt8, (v >>> 8).toUInt8, (v >>> 16).toUInt8, (v >>> 24).toUInt8]

/-- `binary.LittleEndian.Uint32` of the bytes from `off` on. -/
def uint32At (b : Bytes) (off : Nat) : Option UInt32 := do
  let b₀ ← b[off]?
  let b₁ ← b[off + 1]?
  let b₂ ← b[off + 2]?
  let b₃ ← b[off + 3]?
  some (b₀.toUInt32 ||| b₁.toUInt32 <<< 8 ||| b₂.toUInt32 <<< 16 ||| b₃.toUInt32 <<< 24)

/-- The first `n` words of a buffer. -/
def words (n : Nat) (b : Bytes) : Option (List UInt32) :=
  (List.range n).mapM fun i => uint32At b (4 * i)

/-- The buffer of a list of words. -/
def flatten (ws : List UInt32) : Bytes := ws.flatMap putUint32

def fnv (a b : UInt32) : UInt32 := a * 0x01000193 ^^^ b

def fnvHash (mix data : List UInt32) : Option (List UInt32) :=
  if mix.length ≤ data.length then some (List.zipWith fnv mix data) else none

/-- `xs[off:]`. -/
def sliceFrom {α : Type} (xs : List α) (off : Nat) : Option (List α) :=
  if off ≤ xs.length then some (xs.drop off) else none

/-- `copy(xs[off:], src)`. -/
def copyAt {α : Type} (xs : List α) (off : Nat) (src : List α) : Option (List α) :=
  if off ≤ xs.length then
    some (xs.take off ++ src.take (xs.length - off) ++ xs.drop (off + src.length))
  else none

/-! ## Items of the dataset -/

variable (H : Hashes)

/-- The first buffer of an item: its row of the cache, with the index in the first word. -/
def itemSeed (cache : List UInt32) (rows index : UInt32) : Option Bytes := do
  let first ← cache[(index % rows * 16).toNat]?
  let rest ← (List.range 15).mapM fun i =>
    cache[(index % rows * 16 + UInt32.ofNat (i + 1)).toNat]?
  some (flatten ((first ^^^ index) :: rest))

/-- A round of `generateDatasetItem`: the row of a parent is mixed in. -/
def mixParent (cache : List UInt32) (rows index : UInt32) (intMix : List UInt32) (i : Nat) :
    Option (List UInt32) := do
  let word ← intMix[i % 16]?
  let parent := fnv (index ^^^ UInt32.ofNat i) word % rows
  fnvHash intMix (← sliceFrom cache (parent * 16).toNat)

def generateDatasetItem (cache : List UInt32) (index : UInt32) : Option Bytes :=
  let rows := UInt32.ofNat (cache.length / 16)
  if rows = 0 then none
  else do
    let mix ← itemSeed cache rows index
    let intMix ← words 16 (H.keccak512 mix)
    let intMix ← (List.range 256).foldlM (mixParent cache rows index) intMix
    some (H.keccak512 (flatten intMix))

/-! ## Hashimoto -/

/-- The 40 bytes of the header's hash and the nonce. -/
def seedBytes (hash : Bytes) (nonce : UInt64) : Bytes :=
  (hash ++ List.replicate 32 0).take 32 ++
    putUint32 nonce.toUInt32 ++ putUint32 (nonce >>> 32).toUInt32

/-- A round of `hashimoto`, on the mix and the buffer of the last row. -/
def mixRow (rows seedHead : UInt32) (lookup : UInt32 → Option (List UInt32))
    (state : List UInt32 × List UInt32) (i : Nat) : Option (List UInt32 × List UInt32) := do
  let (mix, temp) := state
  let word ← mix[i % 32]?
  let parent := fnv (UInt32.ofNat i ^^^ seedHead) word % rows
  let temp ← copyAt temp 0 (← lookup (2 * parent))
  let temp ← copyAt temp 16 (← lookup (2 * parent + 1))
  some (← fnvHash mix temp, temp)

/-- The compression of the mix. The source writes the word `k` of the result over the mix, after
its last read. -/
def compress (mix : List UInt32) : Option (List UInt32) :=
  (List.range 8).mapM fun k => do
    let w₀ ← mix[4 * k]?
    let w₁ ← mix[4 * k + 1]?
    let w₂ ← mix[4 * k + 2]?
    let w₃ ← mix[4 * k + 3]?
    some (fnv (fnv (fnv w₀ w₁) w₂) w₃)

/-- `hashimoto`: the digest of the mix and the result. -/
def hashimoto (hash : Bytes) (nonce : UInt64) (size : Nat)
    (lookup : UInt32 → Option (List UInt32)) : Option (Bytes × Bytes) := do
  let rows := UInt32.ofNat (size / 128)
  let seed := H.keccak512 (seedBytes hash nonce)
  let seedHead ← uint32At seed 0
  let mix ← (List.range 32).mapM fun i => uint32At seed (i % 16 * 4)
  if rows = 0 then none
  else
    let (mix, _) ← (List.range 64).foldlM (mixRow rows seedHead lookup) (mix, List.replicate 32 0)
    let digest := flatten (← compress mix)
    some (digest, H.keccak256 (seed ++ digest))

def hashimotoLight (size : Nat) (cache : List UInt32) (hash : Bytes) (nonce : UInt64) :
    Option (Bytes × Bytes) :=
  hashimoto H hash nonce size fun index =>
    (generateDatasetItem H cache index).bind fun rawData => words (rawData.length / 4) rawData

end Geth.Ethash
