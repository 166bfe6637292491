import Geth.Rlp.Verify.Accepts

/-!
# RLP is a canonical bijection

`decodeInterface` always ends: each round of its element loop takes an item, and an item has at
least one byte. With what it reads and what it accepts this makes `DecodeBytes` into `interface{}`
the inverse of `EncodeToBytes`.
-/

namespace Geth.Rlp

open Lib List Option

variable {α : Type}

/-- With less than `bound` bytes of input the decoder ends, and takes some of them if it returns
a value. -/
def Progress (dec : Stream → Run α) (bound : Nat) : Prop :=
  ∀ ⦃s : Stream⦄ ⦃r : Bytes⦄ ⦃st : List ListPos⦄, Fresh s r st → TopOk r st → r.length < bound →
    (∃ v s' r' st', dec s = some (.ok v, s') ∧ Fresh s' r' st' ∧ TopOk r' st' ∧
      r'.length < r.length) ∨ ∃ e s', dec s = some (.error e, s')

theorem decodeSliceElems_isSome {dec : Stream → Run α} {bound : Nat} (h : Progress dec bound) :
    ∀ {fuel : Nat} {s : Stream} {r : Bytes} {st : List ListPos} (acc : List α), Fresh s r st →
      TopOk r st → r.length < bound → r.length < fuel →
      (decodeSliceElems dec fuel acc s).isSome = true := by
  intro fuel
  induction fuel with
  | zero =>
    intro s r st acc _ _ _ hfuel
    exact absurd hfuel (Nat.not_lt_zero _)
  | succ fuel ih =>
    intro s r st acc hs ht hr hfuel
    rw [decodeSliceElems]
    rcases h hs ht hr with ⟨v, s', r', st', hd, hs', ht', hlt⟩ | ⟨e, s', hd⟩
    · simp only [hd]
      exact ih _ hs' ht' (by omega) (by omega)
    · simp only [hd]
      cases e <;> rfl

variable {s : Stream} {r : Bytes} {st : List ListPos} {typ : GoType} {fuel : Nat}

theorem decodeListSlice_isSome {dec : Stream → Run α} {bound : Nat} (h : Progress dec bound)
    (typ : GoType) {k : Kind} {n : Nat} {bv : UInt8} {hdr : Bytes}
    (hh : Header k n bv hdr) (hp : Peeked s k n bv r st) (hf : Fits n r st) (hr : r.length < bound)
    (hfuel : r.length < fuel) : (decodeListSlice typ dec fuel s).isSome = true := by
  unfold decodeListSlice
  rcases list_peeked_inv hh hp with ⟨rfl, s1, hl, hs1⟩ | hl
  · simp only [hl]
    split
    · rcases s1.listEnd with ⟨e | u, s2⟩ <;> rfl
    · have ht : TopOk r (⟨0, n⟩ :: st) := hf.le
      obtain ⟨⟨res, s2⟩, hd⟩ :=
        isSome_iff_exists.mp (decodeSliceElems_isSome h [] hs1 ht hr hfuel)
      rw [hd]
      cases res with
      | error e => rfl
      | ok vs => rcases hle : s2.listEnd with ⟨e | u, s3⟩ <;> simp only [hle] <;> rfl
  · simp only [hl]
    rfl

theorem decodeInterface_isSome
    (h : Progress (decodeInterface fuel) (min fuel (2 ^ 64))) (hs : Fresh s r st) (ht : TopOk r st)
    (hfuel : r.length < fuel + 1) (hr : r.length < 2 ^ 64) :
    (decodeInterface (fuel + 1) s).isSome = true := by
  rcases getKind_inv hs ht with ⟨k, n, bv, hdr, r', s1, hh, rfl, hf, hg, hp⟩ |
    ⟨-, s1, hg, -⟩ | ⟨e, s1, hg, -⟩
  · have hpos := hh.length_pos
    rw [length_append] at hfuel hr
    rw [decodeInterface, hg]
    cases k with
    | list =>
      have hlt : r'.length < min fuel (2 ^ 64) := by omega
      obtain ⟨⟨res, s2⟩, hd⟩ := isSome_iff_exists.mp
        (decodeListSlice_isSome h (.slice .iface) hh hp (hf.drop rfl) hlt
          (Nat.lt_of_lt_of_le hlt (Nat.min_le_left _ _)))
      simp only [hd]
      cases res <;> rfl
    | byte => rcases hb : s1.bytes with ⟨e | b, s2⟩ <;> simp only [hb] <;> rfl
    | string => rcases hb : s1.bytes with ⟨e | b, s2⟩ <;> simp only [hb] <;> rfl
  · simp only [decodeInterface, hg]
    rfl
  · simp only [decodeInterface, hg]
    rfl

theorem decodeInterface_sound {s' : Stream} {t : Item} (hs : Fresh s r st)
    (ht : TopOk r st) (hfuel : r.length < fuel) (hr : r.length < 2 ^ 64)
    (hd : decodeInterface fuel s = some (.ok t, s')) :
    ∃ r', r = t.encode ++ r' ∧ Fresh s' r' (bump t.encode.length st) := by
  obtain ⟨it, r', rfl, hf, -⟩ := (decodeInterface_accepts fuel).fresh hs ht hd
  rw [length_append] at hfuel hr
  obtain ⟨s1, hd1, hs1⟩ := decodeInterface_reads it fuel (by omega) (by omega) hs hf
  rw [hd] at hd1
  cases hd1
  exact ⟨r', rfl, hs1⟩

theorem decodeInterface_progress (fuel : Nat) :
    Progress (decodeInterface fuel) (min fuel (2 ^ 64)) := by
  induction fuel with
  | zero =>
    intro s r st _ _ hr
    exact absurd hr (by omega)
  | succ fuel ih =>
    intro s r st hs ht hr
    have hfuel : r.length < fuel + 1 := Nat.lt_of_lt_of_le hr (Nat.min_le_left _ _)
    have hr64 : r.length < 2 ^ 64 := Nat.lt_of_lt_of_le hr (Nat.min_le_right _ _)
    obtain ⟨⟨e | t, s'⟩, hd⟩ :=
      isSome_iff_exists.mp (decodeInterface_isSome ih hs ht hfuel hr64)
    · exact .inr ⟨e, s', hd⟩
    · obtain ⟨r', rfl, hs'⟩ := decodeInterface_sound hs ht hfuel hr64 hd
      have hpos := t.encode_length_pos
      exact .inl ⟨t, s', r', _, hd, hs', ht.bump, by rw [length_append]; omega⟩

theorem encode_append_inj {t u : Item} {r' : Bytes} (h : t.encode ++ r = u.encode ++ r')
    (hlen : (t.encode ++ r).length < 2 ^ 64) : t = u ∧ r = r' := by
  have hlen' : (u.encode ++ r').length < 2 ^ 64 := by rwa [← h]
  rw [length_append] at hlen hlen'
  have hs : Fresh (Stream.new (t.encode ++ r)) (t.encode ++ r) [] := fresh_new _
  have hft : Fits t.encode.length (t.encode ++ r) [] := by
    show _ ≤ (t.encode ++ r).length
    simp
  have hfu : Fits u.encode.length (u.encode ++ r') [] := by
    show _ ≤ (u.encode ++ r').length
    simp
  obtain ⟨s1, hd1, hs1⟩ := decodeInterface_reads t (t.encode.length + u.encode.length + 1)
    (by omega) (by omega) hs hft
  rw [h] at hs
  obtain ⟨s2, hd2, hs2⟩ := decodeInterface_reads u (t.encode.length + u.encode.length + 1)
    (by omega) (by omega) hs hfu
  rw [h, hd2] at hd1
  cases hd1
  exact ⟨rfl, hs1.r_eq.symm.trans hs2.r_eq⟩

/-! ## `DecodeBytes` -/

theorem decode_ok_iff {s' : Stream} {v : GoVal} :
    decode fuel typ s = some (.ok v, s') ↔ decoder fuel typ s = some (.ok v, s') := by
  unfold decode
  split
  · next h => simp [h]
  · rfl

theorem decode_isSome : (decode fuel typ s).isSome = (decoder fuel typ s).isSome := by
  unfold decode
  split
  · next h => simp [h]
  · rfl

theorem decodeBytes_ok_iff {b : Bytes} {v : GoVal} : decodeBytes fuel typ b = some (.ok v) ↔
      ∃ s', decoder fuel typ (Stream.new b) = some (.ok v, s') ∧ s'.r = [] := by
  unfold decodeBytes
  rcases hd : decode fuel typ (Stream.new b) with _ | ⟨e | w, s1⟩
  · have : decoder fuel typ (Stream.new b) = none := by
      rw [← not_isSome_iff_eq_none, ← decode_isSome, hd]
      simp
    simp [this]
  · constructor
    · intro h
      simp at h
    · rintro ⟨s', h, -⟩
      rw [decode_ok_iff.mpr h] at hd
      cases hd
  · rw [decode_ok_iff] at hd
    simp only [hd]
    by_cases hr : 0 < s1.r.length
    · rw [if_pos hr]
      constructor
      · intro h
        cases h
      · rintro ⟨s', h, hnil⟩
        cases h
        rw [hnil] at hr
        exact absurd hr (by simp)
    · have hnil : s1.r = [] := length_eq_zero_iff.mp (Nat.eq_zero_of_not_pos hr)
      rw [if_neg hr]
      constructor
      · intro h
        cases h
        exact ⟨s1, rfl, hnil⟩
      · rintro ⟨s', h, -⟩
        cases h
        rfl

section Interface

variable {b : Bytes} {fuel : Nat}

theorem decodeBytes_iface_isSome (hb : b.length < 2 ^ 63) (hfuel : b.length + 1 < fuel) :
    (decodeBytes fuel .iface b).isSome = true := by
  obtain ⟨fuel, rfl⟩ := Nat.exists_eq_succ_of_ne_zero (Nat.ne_of_gt (Nat.zero_lt_of_lt hfuel))
  have hlt : b.length < min fuel (2 ^ 64) := by omega
  have hsome : (decoder (fuel + 1) .iface (Stream.new b)).isSome = true := by
    rw [decoder]
    rcases decodeInterface_progress fuel (fresh_new b) trivial hlt with
      ⟨v, s', r', st', hd, -⟩ | ⟨e, s', hd⟩
    · rw [hd]
      rfl
    · rw [hd]
      rfl
  rw [← decode_isSome, isSome_iff_exists] at hsome
  obtain ⟨⟨e | v, s'⟩, hd⟩ := hsome
  · simp only [decodeBytes, hd]
    rfl
  · simp only [decodeBytes, hd]
    split <;> rfl

theorem decodeBytes_iface_ok_iff (hb : b.length < 2 ^ 63) (hfuel : b.length + 1 < fuel)
    (v : GoVal) : decodeBytes fuel .iface b = some (.ok v) ↔ ∃ t, v = .iface t ∧ t.encode = b := by
  obtain ⟨fuel, rfl⟩ := Nat.exists_eq_succ_of_ne_zero (Nat.ne_of_gt (Nat.zero_lt_of_lt hfuel))
  rw [decodeBytes_ok_iff, decoder]
  constructor
  · rintro ⟨s', hd, hnil⟩
    rcases hdi : decodeInterface fuel (Stream.new b) with _ | ⟨e | t, s1⟩ <;>
      simp only [hdi, Run.map] at hd <;> cases hd
    obtain ⟨r', hr, hs'⟩ :=
      decodeInterface_sound (fresh_new b) trivial (by omega) (by omega) hdi
    refine ⟨t, rfl, ?_⟩
    rw [hr, ← hs'.r_eq, hnil, append_nil]
  · rintro ⟨t, rfl, rfl⟩
    have hs : Fresh (Stream.new t.encode) (t.encode ++ []) [] := by
      rw [append_nil]
      exact fresh_new _
    have hf : Fits t.encode.length (t.encode ++ []) [] := Nat.le_of_eq (by rw [append_nil])
    obtain ⟨s', hd, hs'⟩ := decodeInterface_reads t fuel (by omega) (by omega) hs hf
    exact ⟨s', by rw [hd]; rfl, hs'.r_eq⟩

theorem encodeToBytes_iface_iff (t : Item) (hb : b.length < 2 ^ 63) :
    encodeToBytes .iface (.iface t) = some b ↔ t.encode = b := by
  have ht : (GoVal.iface t).HasType .iface := by
    exact ⟨t, rfl⟩
  rw [encodeToBytes_eq_some_iff ht, GoVal.item]
  exact and_iff_left_of_imp fun h => h ▸ hb

end Interface

/-- `DecodeBytes` into `interface{}` ends on every Go byte slice (whose length is an `int`). It
succeeds exactly on the encodings of items, what it returns is the only item that `EncodeToBytes`
encodes as the input, and it returns every item from its encoding. -/
theorem decodeBytes_iface_canonical (b : Bytes) (hb : b.length < 2 ^ 63) (fuel : Nat)
    (hfuel : b.length + 1 < fuel) :
    (decodeBytes fuel .iface b).isSome = true ∧
    ((∃ v, decodeBytes fuel .iface b = some (.ok v)) ↔ ∃ t : Item, t.encode = b) ∧
    (∀ v, decodeBytes fuel .iface b = some (.ok v) → ∃ t, v = .iface t ∧
      encodeToBytes .iface (.iface t) = some b ∧
      ∀ u, encodeToBytes .iface (.iface u) = some b → u = t) ∧
    ∀ t, encodeToBytes .iface (.iface t) = some b →
      decodeBytes fuel .iface b = some (.ok (.iface t)) := by
  refine ⟨decodeBytes_iface_isSome hb hfuel, ?_, ?_, ?_⟩
  · constructor
    · rintro ⟨v, hv⟩
      obtain ⟨t, -, ht⟩ := (decodeBytes_iface_ok_iff hb hfuel v).mp hv
      exact ⟨t, ht⟩
    · rintro ⟨t, ht⟩
      exact ⟨.iface t, (decodeBytes_iface_ok_iff hb hfuel _).mpr ⟨t, rfl, ht⟩⟩
  · intro v hv
    obtain ⟨t, rfl, ht⟩ := (decodeBytes_iface_ok_iff hb hfuel v).mp hv
    refine ⟨t, rfl, (encodeToBytes_iface_iff t hb).mpr ht, ?_⟩
    intro u hu
    rw [encodeToBytes_iface_iff u hb, ← ht] at hu
    subst ht
    have happ : u.encode ++ [] = t.encode ++ [] := by rw [hu]
    exact (encode_append_inj happ (by rw [List.append_nil, hu]; omega)).1
  · intro t ht
    rw [encodeToBytes_iface_iff t hb] at ht
    exact (decodeBytes_iface_ok_iff hb hfuel _).mpr ⟨t, rfl, ht⟩

/-- The list of a byte and an empty string. -/
theorem decodeBytes_iface_canonical_pair :
    decodeBytes 5 .iface [0xC2, 0x01, 0x80] = some (.ok (.iface (.list [.str [1], .str []]))) ∧
      ∀ u, encodeToBytes .iface (.iface u) = some [0xC2, 0x01, 0x80] →
        u = .list [.str [1], .str []] := by
  have h := decodeBytes_iface_canonical [0xC2, 0x01, 0x80] (by decide) 5 (by decide)
  have hdec : decodeBytes 5 .iface [0xC2, 0x01, 0x80] =
      some (.ok (.iface (.list [.str [1], .str []]))) := by rfl
  obtain ⟨t, ht, -, huniq⟩ := h.2.2.1 _ hdec
  cases ht
  exact ⟨hdec, huniq⟩

end Geth.Rlp
