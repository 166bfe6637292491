import Geth.Rlp.Item

/-!
# Key encodings (`trie/encoding.go`)

Inside a trie a key is a list of nibbles with an optional terminator, the value 16, at its end.
Nodes on disk carry keys in compact form, two nibbles a byte behind a flag.
-/

namespace Geth.Mpt

/-- A nibble of a hex key, or the terminator 16. -/
abbrev Nibble := Fin 17

instance neZero : NeZero 17 := ⟨nofun⟩

/-- A key in HEX encoding. -/
abbrev Hex := List Nibble

/-- The two nibbles of a byte. -/
def hiNibble (b : UInt8) : Nibble :=
  ⟨b.toNat / 16, by have := b.toNat_lt; omega⟩

@[inherit_doc hiNibble]
def loNibble (b : UInt8) : Nibble :=
  ⟨b.toNat % 16, by omega⟩

def keybytesToHex (str : Bytes) : Hex :=
  str.flatMap (fun b => [hiNibble b, loNibble b]) ++ [16]

def hasTerm (s : Hex) : Bool :=
  s.getLast? = some 16

/-- `decodeNibbles` of an even number of nibbles. -/
def decodeNibbles : Hex → Bytes
  | a :: b :: rest => (UInt8.ofNat a.val <<< 4 ||| UInt8.ofNat b.val) :: decodeNibbles rest
  | _ => []

/-- The buffer `hexToCompact` fills once the terminator is off: flag byte and nibbles. -/
def compactBuf (terminator : UInt8) (hex : Hex) : Bytes :=
  match hex with
  | n :: rest =>
    if (n :: rest).length % 2 = 1 then
      (terminator <<< 5 ||| (1 : UInt8) <<< 4 ||| UInt8.ofNat n.val) :: decodeNibbles rest
    else (terminator <<< 5) :: decodeNibbles (n :: rest)
  | [] => [terminator <<< 5]

def hexToCompact (hex : Hex) : Bytes :=
  if hasTerm hex then compactBuf 1 hex.dropLast else compactBuf 0 hex

/-- `compactToHex`; `none` is the panic of slicing past the end. -/
def compactToHex (compact : Bytes) : Option Hex :=
  match keybytesToHex compact with
  | [] => none
  | b :: bs =>
    let base := if b.val < 2 then (b :: bs).dropLast else b :: bs
    let chop := 2 - b.val % 2
    if chop ≤ base.length then some (base.drop chop) else none

def prefixLen : Hex → Hex → Nat
  | a :: as, b :: bs => if a = b then prefixLen as bs + 1 else 0
  | _, _ => 0

end Geth.Mpt
