import Geth.State.Account
import Geth.Rlp.Verify.Raw

/-!
# Round trips of accounts and storage values
-/

namespace Geth

open Lib Rlp List

theorem bytesToHash_val (h : Hash) : bytesToHash h.val = h := by
  apply Subtype.ext
  simp [bytesToHash, h.property]

theorem bytesToHash_of_length {b : Bytes} (hb : b.length = 32) : (bytesToHash b).val = b :=
  congrArg Subtype.val (bytesToHash_val ⟨b, hb⟩)

theorem bytesToHash_dropWhile (h : Hash) : bytesToHash (h.val.dropWhile (· = 0)) = h := by
  have hsplit : h.val.takeWhile (· = 0) ++ h.val.dropWhile (· = 0) = h.val :=
    takeWhile_append_dropWhile
  have hzeros : h.val.takeWhile (· = 0) = List.replicate (h.val.takeWhile (· = 0)).length 0 := by
    apply eq_replicate_of_mem
    intro b hb
    have hall := all_takeWhile (p := fun x : UInt8 => decide (x = 0)) (l := h.val)
    exact of_decide_eq_true (all_eq_true.mp hall b hb)
  have hlen := congrArg List.length hsplit
  rw [length_append, h.property] at hlen
  have hdrop : (h.val.dropWhile (· = 0)).length - 32 = 0 := by omega
  have hpad : 32 - (h.val.dropWhile (· = 0)).length = (h.val.takeWhile (· = 0)).length := by omega
  apply Subtype.ext
  simp [bytesToHash, hdrop, hpad, ← hzeros, hsplit]

namespace State

theorem encodeValue_ne_nil (v : Hash) : encodeValue v ≠ [] := by
  have := (Item.str (v.val.dropWhile (· = 0))).encode_length_pos
  rw [encodeValue]
  exact ne_nil_of_length_pos this

theorem decodeValue_nil : decodeValue [] = (Hash.zero, none) := by
  simp [decodeValue]

theorem decodeValue_encodeValue (v : Hash) : decodeValue (encodeValue v) = (v, none) := by
  have hlen : (v.val.dropWhile (· = 0)).length < 2 ^ 64 := by
    have := (dropWhile_suffix (· = 0) (l := v.val)).length_le
    have := v.property
    omega
  have hsplit : ∃ k, split (encodeValue v) = .ok (k, v.val.dropWhile (· = 0), []) := by
    rw [encodeValue, ← append_nil (Item.encode _)]
    by_cases hx : ∃ x, v.val.dropWhile (· = 0) = [x] ∧ x ≤ 0x7F
    · obtain ⟨x, hx, hle⟩ := hx
      rw [hx]
      exact ⟨_, split_byte hle []⟩
    · refine ⟨_, split_string hlen (fun x hx' hle => hx ⟨x, hx', hle⟩) []⟩
  obtain ⟨k, hk⟩ := hsplit
  rw [decodeValue, if_pos (length_pos_iff.mpr (encodeValue_ne_nil v)), hk]
  simp [bytesToHash_dropWhile]

namespace Account

theorem canonInt_beBytes (n : Nat) : canonInt (beBytes n) = true := by
  simpa [canonInt] using head?_beBytes_ne_zero n

variable {a : Account}

theorem encode_ne_nil {enc : Bytes} (h : a.encode = some enc) : enc ≠ [] := by
  rw [encode] at h
  split at h
  · cases h
    exact ne_nil_of_length_pos a.item.encode_length_pos
  · cases h

theorem length_field_lt {b : Bytes} (hlen : a.item.encode.length < 2 ^ 63)
    (hb : Item.str b ∈ [Item.str (beBytes a.nonce.toNat), .str (beBytes a.balance.toNat),
      .str a.root.val, .str a.codeHash]) : b.length < 2 ^ 64 := by
  have hle := length_encode_le_encodeAll hb
  have hlt := length_encodeAll_lt [Item.str (beBytes a.nonce.toNat),
    .str (beBytes a.balance.toNat), .str a.root.val, .str a.codeHash]
  have hstr := le_length_encodeStr b
  rw [Item.encode_str] at hle
  rw [item] at hlen
  omega

theorem decode_encode {enc : Bytes} (h : a.encode = some enc) : decode enc = some a := by
  rw [encode] at h
  split at h
  · next hcond =>
    cases h
    obtain ⟨hbal, hlen⟩ := hcond
    have hlist := length_encodeAll_lt [Item.str (beBytes a.nonce.toNat),
      .str (beBytes a.balance.toNat), .str a.root.val, .str a.codeHash]
    have hall : (encodeAll [Item.str (beBytes a.nonce.toNat), .str (beBytes a.balance.toNat),
        .str a.root.val, .str a.codeHash]).length < 2 ^ 64 := by
      rw [item] at hlen
      omega
    have hnonce : (beBytes a.nonce.toNat).length ≤ 8 := by
      rw [length_beBytes_le_iff]
      exact a.nonce.toNat_lt
    have hn := splitString_str (length_field_lt hlen (b := beBytes a.nonce.toNat) (by simp))
    have hb := splitString_str (length_field_lt hlen (b := beBytes a.balance.toNat) (by simp))
    have hr := splitString_str (length_field_lt hlen (b := a.root.val) (by simp))
    have hc := splitString_str (length_field_lt hlen (b := a.codeHash) (by simp)) []
    rw [append_nil] at hc
    have hl := splitList_list hall []
    rw [append_nil] at hl
    have hint : (a.balance.toNat : Int) = a.balance := Int.toNat_of_nonneg hbal
    simp [decode, item, hl, hn, hb, hr, hc, Except.toOption, canonInt_beBytes, hnonce,
      beNat_beBytes, a.root.property, hint]
  · cases h

end Account

end State

end Geth
