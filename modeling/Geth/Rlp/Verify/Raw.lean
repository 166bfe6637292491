import Geth.Rlp.Raw
import Geth.Rlp.Verify.Stream

/-!
# Splitting the encodings of items

On the encoding of an item `Split` returns its kind and content, whatever follows it, and
`CountValues` counts the items of a list.
-/

namespace Geth.Rlp

open Lib List

variable {n : Nat} {b : Bytes} {ts : List Item}

theorem readSize_beBytes (hn : 56 ≤ n) (r : Bytes) :
    readSize (beBytes n ++ r) (beBytes n).length = .ok n := by
  have hpos := length_beBytes_pos (n := n) (by omega)
  have hhead : (beBytes n ++ r).head? = (beBytes n).head? := by
    cases h : beBytes n with
    | nil => rw [h] at hpos; simp at hpos
    | cons x xs => rfl
  unfold readSize
  rw [if_neg (by simp)]
  simp only [take_left, beNat_beBytes, hhead]
  rw [if_neg]
  rintro (h | h)
  · omega
  · exact head?_beBytes_ne_zero n h

theorem tag_lt {base c : UInt8} (h : base.toNat + n < 256) :
    base + UInt8.ofNat n < c ↔ base.toNat + n < c.toNat := by
  rw [UInt8.lt_iff_toNat_lt, tag_toNat base n h]

theorem tag_sub_self {base : UInt8} (h : base.toNat + n < 256) :
    (base + UInt8.ofNat n - base).toNat = n := by
  have htag := tag_toNat base n h
  rw [tag_sub _ _ (by omega), htag]
  omega

theorem readKindTag_string_small (hn : n < 56) (rest : Bytes)
    (hc : n = 1 → rest.head?.any (· < 128) = false) :
    readKindTag (0x80 + UInt8.ofNat n) rest = .ok (.string, 1, n) := by
  have htag : (0x80 : UInt8).toNat + n < 256 := show 128 + n < 256 by omega
  unfold readKindTag
  rw [if_neg ((tag_lt htag).not.mpr (by show ¬ 128 + n < 128; omega)),
    if_pos (by rw [tag_lt htag]; show 128 + n < 184; omega)]
  simp only [tag_sub_self htag]
  rw [if_neg]
  rintro ⟨h1, hany⟩
  rw [hc h1] at hany
  cases hany

theorem readKindTag_string_large (hn : 56 ≤ n) (hn64 : n < 2 ^ 64) (r : Bytes) :
    readKindTag (0xB7 + UInt8.ofNat (beBytes n).length) (beBytes n ++ r) =
      .ok (.string, (beBytes n).length + 1, n) := by
  have hm := length_beBytes_le_eight hn64
  have hm0 := length_beBytes_pos (n := n) (by omega)
  have htag : (0xB7 : UInt8).toNat + (beBytes n).length < 256 := show 183 + _ < 256 by omega
  unfold readKindTag
  rw [if_neg ((tag_lt htag).not.mpr (by show ¬ 183 + _ < 128; omega)),
    if_neg ((tag_lt htag).not.mpr (by show ¬ 183 + _ < 184; omega)),
    if_pos (by rw [tag_lt htag]; show 183 + _ < 192; omega), tag_sub_self htag,
    readSize_beBytes hn]
  rfl

theorem readKindTag_list_small (hn : n < 56) (rest : Bytes) :
    readKindTag (0xC0 + UInt8.ofNat n) rest = .ok (.list, 1, n) := by
  have htag : (0xC0 : UInt8).toNat + n < 256 := show 192 + n < 256 by omega
  unfold readKindTag
  rw [if_neg ((tag_lt htag).not.mpr (by show ¬ 192 + n < 128; omega)),
    if_neg ((tag_lt htag).not.mpr (by show ¬ 192 + n < 184; omega)),
    if_neg ((tag_lt htag).not.mpr (by show ¬ 192 + n < 192; omega)),
    if_pos (by rw [tag_lt htag]; show 192 + n < 248; omega), tag_sub_self htag]

theorem readKindTag_list_large (hn : 56 ≤ n) (hn64 : n < 2 ^ 64) (r : Bytes) :
    readKindTag (0xF7 + UInt8.ofNat (beBytes n).length) (beBytes n ++ r) =
      .ok (.list, (beBytes n).length + 1, n) := by
  have hm := length_beBytes_le_eight hn64
  have hm0 := length_beBytes_pos (n := n) (by omega)
  have htag : (0xF7 : UInt8).toNat + (beBytes n).length < 256 := show 247 + _ < 256 by omega
  unfold readKindTag
  rw [if_neg ((tag_lt htag).not.mpr (by show ¬ 247 + _ < 128; omega)),
    if_neg ((tag_lt htag).not.mpr (by show ¬ 247 + _ < 184; omega)),
    if_neg ((tag_lt htag).not.mpr (by show ¬ 247 + _ < 192; omega)),
    if_neg ((tag_lt htag).not.mpr (by show ¬ 247 + _ < 248; omega)), tag_sub_self htag,
    readSize_beBytes hn]
  rfl

theorem readKind_of_tag {b : UInt8} {rest : Bytes} {k : Kind} {ts cs : Nat}
    (h : readKindTag b rest = .ok (k, ts, cs)) (hle : ts + cs ≤ rest.length + 1) :
    readKind (b :: rest) = .ok (k, ts, cs) := by
  unfold readKind
  simp only [h]
  rw [if_neg]
  rw [length_cons]
  omega

theorem readKind_byte {x : UInt8} (hx : x ≤ 0x7F) (r : Bytes) :
    readKind (x :: r) = .ok (.byte, 0, 1) := by
  apply readKind_of_tag
  · unfold readKindTag
    rw [if_pos (lt_128_iff.mpr hx)]
  · omega

theorem readKind_string (hb : b.length < 2 ^ 64) (hne : ∀ x, b = [x] → ¬ x ≤ 0x7F) (r : Bytes) :
    readKind (header 0x80 0xB7 b.length ++ b ++ r) =
      .ok (.string, (header 0x80 0xB7 b.length).length, b.length) := by
  unfold header
  split
  · next hlt =>
    apply readKind_of_tag
    · apply readKindTag_string_small hlt
      intro h1
      obtain ⟨x, rfl⟩ := length_eq_one_iff.mp h1
      show decide (x < 128) = false
      rw [decide_eq_false_iff_not, lt_128_iff]
      exact hne x rfl
    · simp
      omega
  · next hge =>
    simp only [cons_append, append_assoc]
    apply readKind_of_tag
    · exact readKindTag_string_large (by omega) hb _
    · simp
      omega

theorem readKind_list (hn : n < 2 ^ 64) {r : Bytes} (hr : n ≤ r.length) :
    readKind (header 0xC0 0xF7 n ++ r) = .ok (.list, (header 0xC0 0xF7 n).length, n) := by
  unfold header
  split
  · next hlt =>
    apply readKind_of_tag
    · exact readKindTag_list_small hlt _
    · simp
      omega
  · next hge =>
    apply readKind_of_tag
    · exact readKindTag_list_large (by omega) hn _
    · simp
      omega

/-! ## Split -/

theorem split_byte {x : UInt8} (hx : x ≤ 0x7F) (r : Bytes) :
    split ((Item.str [x]).encode ++ r) = .ok (.byte, [x], r) := by
  rw [Item.encode_str, encodeStr_singleton, if_pos hx]
  simp [split, readKind_byte hx]

theorem split_string (hb : b.length < 2 ^ 64) (hne : ∀ x, b = [x] → ¬ x ≤ 0x7F) (r : Bytes) :
    split ((Item.str b).encode ++ r) = .ok (.string, b, r) := by
  rw [Item.encode_str, encodeStr_of_ne hne]
  unfold split
  rw [readKind_string hb hne]
  simp [← drop_drop]

theorem split_list (hts : (encodeAll ts).length < 2 ^ 64) (r : Bytes) :
    split ((Item.list ts).encode ++ r) = .ok (.list, encodeAll ts, r) := by
  rw [Item.encode_list, append_assoc]
  unfold split
  rw [readKind_list hts (by simp)]
  simp [← drop_drop]

theorem splitString_str (hb : b.length < 2 ^ 64) (r : Bytes) :
    splitString ((Item.str b).encode ++ r) = .ok (b, r) := by
  unfold splitString
  by_cases hx : ∃ x, b = [x] ∧ x ≤ 0x7F
  · obtain ⟨x, rfl, hle⟩ := hx
    rw [split_byte hle]
    rfl
  · rw [split_string hb fun x hbx hle => hx ⟨x, hbx, hle⟩]
    rfl

theorem splitList_list (hts : (encodeAll ts).length < 2 ^ 64) (r : Bytes) :
    splitList ((Item.list ts).encode ++ r) = .ok (encodeAll ts, r) := by
  unfold splitList
  rw [split_list hts]
  rfl

/-! ## CountValues -/

theorem readKind_item (t : Item) (ht : t.encode.length < 2 ^ 64) (r : Bytes) :
    ∃ k ts cs, readKind (t.encode ++ r) = .ok (k, ts, cs) ∧ ts + cs = t.encode.length := by
  cases t with
  | str b =>
    rw [Item.encode_str] at ht ⊢
    by_cases hx : ∃ x, b = [x] ∧ x ≤ 0x7F
    · obtain ⟨x, rfl, hle⟩ := hx
      rw [encodeStr_singleton, if_pos hle]
      exact ⟨_, _, _, readKind_byte hle r, rfl⟩
    · have hne : ∀ x, b = [x] → ¬ x ≤ 0x7F := fun x hbx hle => hx ⟨x, hbx, hle⟩
      have hb := Nat.lt_of_le_of_lt (le_length_encodeStr b) ht
      rw [encodeStr_of_ne hne]
      exact ⟨_, _, _, readKind_string hb hne r, by rw [length_append]⟩
  | list ts =>
    rw [Item.encode_list, length_append] at ht
    rw [Item.encode_list, append_assoc]
    exact ⟨_, _, _, readKind_list (by omega) (by simp), by rw [length_append]⟩

theorem countValuesLoop_encodeAll (ts : List Item) :
    ∀ (fuel i : Nat), ts.length ≤ fuel → (encodeAll ts).length < 2 ^ 64 →
      countValuesLoop fuel i (encodeAll ts) = .ok (i + ts.length) := by
  induction ts with
  | nil =>
    intro fuel i _ _
    cases fuel with
    | zero => rfl
    | succ fuel => simp [countValuesLoop]
  | cons t ts ih =>
    intro fuel i hfuel hlen
    obtain ⟨fuel, rfl⟩ := Nat.exists_eq_succ_of_ne_zero (Nat.ne_of_gt (Nat.zero_lt_of_lt hfuel))
    rw [encodeAll_cons, length_append] at hlen
    obtain ⟨k, tsz, cs, hk, hsum⟩ := readKind_item t (by omega) (encodeAll ts)
    have hpos := t.encode_length_pos
    rw [encodeAll_cons, countValuesLoop, if_neg (by rw [length_append]; omega), hk]
    simp only [hsum, drop_left]
    rw [ih fuel (i + 1) (Nat.le_of_succ_le_succ hfuel) (by omega), length_cons]
    congr 1
    omega

theorem countValues_encodeAll (h : (encodeAll ts).length < 2 ^ 64) :
    countValues (encodeAll ts) = .ok ts.length := by
  unfold countValues
  rw [countValuesLoop_encodeAll ts _ 0 (length_le_encodeAll ts) h, Nat.zero_add]

end Geth.Rlp
