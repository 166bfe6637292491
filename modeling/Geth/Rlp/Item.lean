import Geth.Lib.BigEndian

/-!
# RLP items

The data RLP is about: finite trees of byte strings and lists, and the canonical encoding of a
tree. A header carries the size of what follows, in the tag byte below 56 bytes and as a shortest
big-endian number above; a single byte below `0x80` is its own encoding. The encoder and decoder
of `package rlp` are verified against `Item.encode`.
-/

namespace Geth

open List

/-- Go's `[]byte`. -/
abbrev Bytes := List UInt8

namespace Rlp

open Lib

/-- A finite tree of byte strings and lists. -/
inductive Item where
  | str (b : Bytes)
  | list (items : List Item)
  deriving Repr

/-- The header of a string (tags `0x80`, `0xB7`) or list (tags `0xC0`, `0xF7`) of `n` bytes. -/
def header (smalltag largetag : UInt8) (n : Nat) : Bytes :=
  if n < 56 then [smalltag + UInt8.ofNat n]
  else (largetag + UInt8.ofNat (beBytes n).length) :: beBytes n

/-- The encoding of a byte string. -/
def encodeStr (b : Bytes) : Bytes :=
  match b with
  | [x] => if x ≤ 0x7F then [x] else header 0x80 0xB7 1 ++ [x]
  | b => header 0x80 0xB7 b.length ++ b

mutual

/-- The canonical encoding of an item. -/
def Item.encode : Item → Bytes
  | .str b => encodeStr b
  | .list items => header 0xC0 0xF7 (encodeAll items).length ++ encodeAll items

/-- The payload of a list: the encodings of its items, one after another. -/
def encodeAll : List Item → Bytes
  | [] => []
  | t :: ts => t.encode ++ encodeAll ts

end

theorem Item.encode_str (b : Bytes) : (Item.str b).encode = encodeStr b := by
  rw [Item.encode]

theorem Item.encode_list (items : List Item) : (Item.list items).encode =
      header 0xC0 0xF7 (encodeAll items).length ++ encodeAll items := by
  rw [Item.encode]

@[simp] theorem encodeAll_nil : encodeAll [] = [] := by rw [encodeAll]

@[simp] theorem encodeAll_cons (t : Item) (ts : List Item) :
    encodeAll (t :: ts) = t.encode ++ encodeAll ts := by rw [encodeAll]

theorem encodeAll_append (ts us : List Item) :
    encodeAll (ts ++ us) = encodeAll ts ++ encodeAll us := by
  induction ts with
  | nil => simp
  | cons t ts ih => simp [ih]

theorem encodeStr_singleton (x : UInt8) :
    encodeStr [x] = if x ≤ 0x7F then [x] else header 0x80 0xB7 1 ++ [x] := rfl

theorem encodeStr_of_ne {b : Bytes} (h : ∀ x, b = [x] → ¬ x ≤ 0x7F) :
    encodeStr b = header 0x80 0xB7 b.length ++ b := by
  unfold encodeStr
  split
  · next x => rw [if_neg (h x rfl), length_singleton]
  · rfl

theorem header_length_pos (s l : UInt8) (n : Nat) : 0 < (header s l n).length := by
  unfold header
  split <;> simp

theorem encodeStr_length_pos (b : Bytes) : 0 < (encodeStr b).length := by
  have := header_length_pos 0x80 0xB7
  unfold encodeStr
  split
  · split
    · simp
    · simp
  · rw [length_append]
    exact Nat.add_pos_left (this _) _

theorem le_length_encodeStr (b : Bytes) : b.length ≤ (encodeStr b).length := by
  unfold encodeStr
  split
  · split <;> simp
  · simp

theorem Item.encode_length_pos (t : Item) : 0 < t.encode.length := by
  cases t with
  | str b => rw [Item.encode_str]; exact encodeStr_length_pos b
  | list items =>
    rw [Item.encode_list, length_append]
    exact Nat.add_pos_left (header_length_pos _ _ _) _

theorem length_le_encodeAll (ts : List Item) : ts.length ≤ (encodeAll ts).length := by
  induction ts with
  | nil => simp
  | cons t ts ih =>
    have := t.encode_length_pos
    simp only [encodeAll_cons, length_append, length_cons]
    omega

theorem length_encode_le_encodeAll {t : Item} {ts : List Item} (h : t ∈ ts) :
    t.encode.length ≤ (encodeAll ts).length := by
  induction ts with
  | nil => simp at h
  | cons u ts ih =>
    simp only [encodeAll_cons, length_append]
    rcases mem_cons.mp h with rfl | h
    · omega
    · have := ih h
      omega

theorem length_encodeAll_lt (ts : List Item) :
    (encodeAll ts).length < (Item.list ts).encode.length := by
  rw [Item.encode_list, length_append]
  have := header_length_pos 0xC0 0xF7 (encodeAll ts).length
  omega

end Rlp

end Geth
