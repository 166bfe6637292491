import Geth.Rlp.Decode

/-!
# Splitting encoded values (`rlp/raw.go`)

`Split` and its variants cut the first value off a byte slice without decoding it. Sizes are
`uint64` in the source; the slice a size is compared with is shorter than that.
-/

namespace Geth.Rlp

open Lib

def readSize (b : Bytes) (slen : Nat) : Except Err Nat :=
  if slen > b.length then .error .unexpectedEOF
  else
    let s := beNat (b.take slen)
    if s < 56 ∨ b.head? = some 0 then .error .canonSize else .ok s

/-- The switch of `readKind` on the tag byte `b`: kind, tag size and content size. -/
def readKindTag (b : UInt8) (rest : Bytes) : Except Err (Kind × Nat × Nat) :=
  if b < 0x80 then .ok (.byte, 0, 1)
  else if b < 0xB8 then
    let contentsize := (b - 0x80).toNat
    -- Strings that should have been single bytes are rejected.
    if contentsize = 1 ∧ rest.head?.any (· < 128) then .error .canonSize
    else .ok (.string, 1, contentsize)
  else if b < 0xC0 then
    (readSize rest (b - 0xB7).toNat).map fun s => (.string, (b - 0xB7).toNat + 1, s)
  else if b < 0xF8 then .ok (.list, 1, (b - 0xC0).toNat)
  else (readSize rest (b - 0xF7).toNat).map fun s => (.list, (b - 0xF7).toNat + 1, s)

def readKind (buf : Bytes) : Except Err (Kind × Nat × Nat) :=
  match buf with
  | [] => .error .unexpectedEOF
  | b :: rest =>
    match readKindTag b rest with
    | .error e => .error e
    | .ok (k, tagsize, contentsize) =>
      if contentsize > buf.length - tagsize then .error .valueTooLarge
      else .ok (k, tagsize, contentsize)

/-- `Split`: kind, content and rest. -/
def split (b : Bytes) : Except Err (Kind × Bytes × Bytes) :=
  match readKind b with
  | .error e => .error e
  | .ok (k, ts, cs) => .ok (k, (b.drop ts).take cs, b.drop (ts + cs))

def splitString (b : Bytes) : Except Err (Bytes × Bytes) :=
  match split b with
  | .error e => .error e
  | .ok (k, content, rest) => if k = .list then .error .expectedString else .ok (content, rest)

def splitList (b : Bytes) : Except Err (Bytes × Bytes) :=
  match split b with
  | .error e => .error e
  | .ok (k, content, rest) => if k ≠ .list then .error .expectedList else .ok (content, rest)

/-- The loop of `CountValues`; every value has a byte, so the length of the input bounds it. -/
def countValuesLoop : Nat → Nat → Bytes → Except Err Nat
  | 0, i, _ => .ok i
  | fuel + 1, i, b =>
    if b.length = 0 then .ok i
    else
      match readKind b with
      | .error e => .error e
      | .ok (_, tagsize, size) => countValuesLoop fuel (i + 1) (b.drop (tagsize + size))

def countValues (b : Bytes) : Except Err Nat :=
  countValuesLoop b.length 0 b

end Geth.Rlp
