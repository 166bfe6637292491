import Geth.Rlp.Item

/-!
# The Go types and values RLP serializes

`package rlp` picks writers and decoders by reflection on the Go type. The types here are those
the package handles without custom `Encoder`/`Decoder` methods, pointers or big integers: booleans,
unsigned integers, strings, slices, fixed arrays, structs and the empty interface. `[]byte` and
`[n]byte` are the slice and the array of `uint8`, as in Go.
-/

namespace Geth.Rlp

/-- The unsigned integer kinds; `uint` and `uintptr` are one of the last two. -/
inductive UintKind where
  | uint8 | uint16 | uint32 | uint64
  deriving DecidableEq, Repr

def UintKind.bits : UintKind → Nat
  | .uint8 => 8
  | .uint16 => 16
  | .uint32 => 32
  | .uint64 => 64

mutual

/-- A Go type. -/
inductive GoType where
  | bool
  | uint (k : UintKind)
  | string
  | slice (elem : GoType)
  | array (len : Nat) (elem : GoType)
  | struct (fields : Fields)
  | iface

/-- The exported fields of a struct type, in order. -/
inductive Fields where
  | nil
  | cons (name : String) (typ : GoType) (rest : Fields)

end

/-- `isByte`: arrays and slices of this element type are byte strings. -/
def GoType.isByte : GoType → Bool
  | .uint .uint8 => true
  | _ => false

/-- A Go value. Byte slices, byte arrays and strings are `str`; other slices, arrays and structs
are `list`; `iface` is an `interface{}` holding a tree of `[]byte` and `[]interface{}`. -/
inductive GoVal where
  | bool (b : Bool)
  | uint (n : Nat)
  | str (b : Bytes)
  | list (vs : List GoVal)
  | iface (t : Item)

mutual

/-- `v.HasType t`: the value `v` is one of the Go type `t`. -/
def GoVal.HasType (v : GoVal) : GoType → Prop
  | .bool => ∃ b, v = .bool b
  | .uint k => ∃ n, v = .uint n ∧ n < 2 ^ k.bits
  | .string => ∃ b, v = .str b
  | .slice t =>
    if t.isByte then ∃ b, v = .str b
    else ∃ vs, v = .list vs ∧ ∀ x ∈ vs, x.HasType t
  | .array n t =>
    if t.isByte then ∃ b : Bytes, v = .str b ∧ b.length = n
    else ∃ vs : List GoVal, v = .list vs ∧ vs.length = n ∧ ∀ x ∈ vs, x.HasType t
  | .struct fs => ∃ vs, v = .list vs ∧ HaveTypes vs fs
  | .iface => ∃ t, v = .iface t

/-- The values `vs` are those of the fields `fs`, one each. -/
def HaveTypes (vs : List GoVal) : Fields → Prop
  | .nil => vs = []
  | .cons _ t fs => ∃ v vs', vs = v :: vs' ∧ v.HasType t ∧ HaveTypes vs' fs

end

end Geth.Rlp
