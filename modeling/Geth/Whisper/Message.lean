import Geth.Rlp.Item

/-!
# Whisper messages (`whisper/whisperv6/message.go`)

A raw message is a byte of flags, the size of the payload, the payload, the padding and perhaps a
signature. `NewSentMessage` and `sign` build it; `ValidateAndParse` takes it apart again after it
has been decrypted. A decrypted slice has no spare capacity.
-/

namespace Geth.Whisper

/-- What the package takes from `crypto`. -/
structure Crypto where
  PrivateKey : Type
  PublicKey : Type
  keccak256 : Bytes → Bytes
  sign : Bytes → PrivateKey → Option Bytes
  /-- An error and a panic, which is recovered, are none. -/
  sigToPub : Bytes → Bytes → Option PublicKey
  pub : PrivateKey → PublicKey

def signatureFlag : UInt8 := 4

def sizeMask : UInt8 := 3

def signatureLength : Nat := 65

def flagsLength : Nat := 1

def padSizeLimit : Nat := 256

def isMessageSigned (flags : UInt8) : Bool := flags &&& signatureFlag != 0

/-- `bytesToUintLittleEndian`, for at most eight bytes. -/
def bytesToUintLittleEndian : Bytes → Nat
  | [] => 0
  | b :: bs => b.toNat + 256 * bytesToUintLittleEndian bs

/-- The fields of `MessageParams` that the raw message is built from. -/
structure MessageParams (C : Crypto) where
  src : Option C.PrivateKey
  payload : Bytes
  padding : Bytes

/-- `getSizeOfPayloadSizeField` of a payload of this length. -/
def getSizeOfPayloadSizeField (n : Nat) : Nat :=
  if n ≥ 256 then getSizeOfPayloadSizeField (n / 256) + 1 else 1

/-- The bytes that `binary.LittleEndian.PutUint32` writes. -/
def putUint32 (n : Nat) : Bytes :=
  [UInt8.ofNat n, UInt8.ofNat (n / 256), UInt8.ofNat (n / 65536), UInt8.ofNat (n / 16777216)]

/-- `addPayloadSizeField`, to a message of flags only. -/
def addPayloadSizeField (flags : UInt8) (payload : Bytes) : Bytes :=
  let fieldSize := getSizeOfPayloadSizeField payload.length
  (flags ||| UInt8.ofNat fieldSize) :: (putUint32 payload.length).take fieldSize

def validateDataIntegrity (k : Bytes) (expectedSize : Nat) : Bool :=
  k.length = expectedSize && !(expectedSize > 3 && k.all (· == 0))

variable {C : Crypto}

/-- What `appendPadding` appends, if `crand.Read` succeeds where it is needed. -/
def paddingOf (crand : Nat → Option Bytes) (params : MessageParams C) : Option Bytes :=
  if params.padding.length ≠ 0 then some params.padding
  else
    let rawSize := flagsLength + getSizeOfPayloadSizeField params.payload.length +
      params.payload.length + if params.src.isSome then signatureLength else 0
    let paddingSize := padSizeLimit - rawSize % padSizeLimit
    (crand paddingSize).filter fun pad => validateDataIntegrity pad paddingSize

def newSentMessage (crand : Nat → Option Bytes) (params : MessageParams C) : Option Bytes :=
  (paddingOf crand params).map fun padding =>
    addPayloadSizeField 0 params.payload ++ params.payload ++ padding

/-- `sign`; a message that is signed already stays as it is. -/
def sign (raw : Bytes) (key : C.PrivateKey) : Option Bytes :=
  match raw with
  | [] => none
  | flags :: rest =>
    if isMessageSigned flags then some raw
    else
      let raw := (flags ||| signatureFlag) :: rest
      (C.sign (C.keccak256 raw) key).map fun signature => raw ++ signature

/-- A new message, signed if there is a key. -/
def sentMessage (crand : Nat → Option Bytes) (params : MessageParams C) : Option Bytes :=
  match newSentMessage crand params, params.src with
  | none, _ => none
  | some raw, none => some raw
  | some raw, some key => sign raw key

/-- The fields of `ReceivedMessage` that parsing fills in. -/
structure ReceivedMessage (C : Crypto) where
  payload : Bytes
  padding : Bytes
  signature : Bytes
  src : Option C.PublicKey

/-- A slice of decrypted bytes, whose capacity is their length; out of bounds it panics. -/
def slice (b : Bytes) (i j : Nat) : Option Bytes :=
  if i ≤ j ∧ j ≤ b.length then some ((b.take j).drop i) else none

/-- The part of `ValidateAndParse` behind the signature, in a message that ends at `stop`. -/
def parseBody (raw : Bytes) (flags : UInt8) (stop : Nat) (signature : Bytes)
    (src : Option C.PublicKey) : Option (Option (ReceivedMessage C)) := do
  let sizeOfPayloadSizeField := (flags &&& sizeMask).toNat
  if sizeOfPayloadSizeField = 0 then
    let padding ← slice raw 1 stop
    return some ⟨[], padding, signature, src⟩
  else
    let field ← slice raw 1 (1 + sizeOfPayloadSizeField)
    let payloadSize := bytesToUintLittleEndian field
    if payloadSize + 1 > stop then return none
    let beg := 1 + sizeOfPayloadSizeField
    let payload ← slice raw beg (beg + payloadSize)
    let padding ← slice raw (beg + payloadSize) stop
    return some ⟨payload, padding, signature, src⟩

/-- `ValidateAndParse`: the fields, or none for `false`; outside, none is a panic. -/
def validateAndParse (raw : Bytes) : Option (Option (ReceivedMessage C)) :=
  match raw with
  | [] => some none
  | flags :: _ =>
    if isMessageSigned flags then
      if raw.length ≤ signatureLength + 1 then some none
      else
        let stop := raw.length - signatureLength
        let signature := raw.drop stop
        match C.sigToPub (C.keccak256 (raw.take stop)) signature with
        | none => some none
        | some src => parseBody raw flags stop signature (some src)
    else parseBody raw flags raw.length [] none

end Geth.Whisper
