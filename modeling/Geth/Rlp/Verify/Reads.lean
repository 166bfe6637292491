import Geth.Rlp.Verify.Stream

/-!
# Decoders that read an encoding

`Reads dec v enc` says that the decoder `dec`, on a stream whose input starts with `enc`, returns
`v`, stands behind `enc`, and has rearmed `Kind`. Every list container is read by `List`, a run of
element decoders and `ListEnd`; since `ListEnd` rearms `Kind` itself, the last element need not
(`ReadsTo`). The module ends with `decodeInterface`, which reads the encoding of every item.
-/

namespace Geth.Rlp

open Lib List

variable {α β : Type}

/-- On input that starts with `enc`, `dec` returns `v` and stands behind `enc`. -/
def ReadsTo (dec : Stream → Run α) (v : α) (enc : Bytes) : Prop :=
  ∀ ⦃s : Stream⦄ ⦃r : Bytes⦄ ⦃st : List ListPos⦄, Fresh s (enc ++ r) st →
    Fits enc.length (enc ++ r) st →
    ∃ s', dec s = some (.ok v, s') ∧ Pos s' r (bump enc.length st)

/-- `ReadsTo`, and `Kind` is rearmed. -/
def Reads (dec : Stream → Run α) (v : α) (enc : Bytes) : Prop :=
  ∀ ⦃s : Stream⦄ ⦃r : Bytes⦄ ⦃st : List ListPos⦄, Fresh s (enc ++ r) st →
    Fits enc.length (enc ++ r) st →
    ∃ s', dec s = some (.ok v, s') ∧ Fresh s' r (bump enc.length st)

/-- At the end of the innermost list `dec` reports `EOL` and stays there. -/
def EndsAtEol (dec : Stream → Run α) : Prop :=
  ∀ ⦃s : Stream⦄ ⦃r : Bytes⦄ ⦃tos : ListPos⦄ ⦃st : List ListPos⦄, Fresh s r (tos :: st) →
    tos.pos = tos.size → ∃ s', dec s = some (.error .eol, s') ∧ Fresh s' r (tos :: st)

variable {v : α} {s s' : Stream} {k : Kind} {n : Nat} {bv : UInt8} {r b enc : Bytes}
  {st : List ListPos} {dec : Stream → Run α} {vs : List α}

theorem Reads.readsTo (h : Reads dec v enc) :
    ReadsTo dec v enc := by
  intro s r st hs hf
  obtain ⟨s', hd, hs'⟩ := h hs hf
  exact ⟨s', hd, hs'.toPos⟩

theorem Reads.map (f : α → β) (h : Reads dec v enc) : Reads (fun s => (dec s).map f) (f v) enc := by
  intro s r st hs hf
  obtain ⟨s', hd, hs'⟩ := h hs hf
  exact ⟨s', by simp [hd, Run.map], hs'⟩

theorem Reads.wrapped {op : Stream → Except Err α × Stream} (typ : GoType) (f : α → β)
    (h : Reads (fun s => some (op s)) v enc) :
    Reads (fun s => some (Rlp.wrapped typ f (op s))) (f v) enc := by
  intro s r st hs hf
  obtain ⟨s', hd, hs'⟩ := h hs hf
  exact ⟨s', by simp [Option.some.inj hd, Rlp.wrapped], hs'⟩

/-! ## Operations that look at the kind first -/

theorem bytes_of_kind (h : s.getKind = (.ok (k, n), s')) (hp : Peeked s' k n bv r st) :
    s.bytes = s'.bytes := by
  unfold Stream.bytes
  rw [h, getKind_peeked hp]

theorem uint_of_kind (h : s.getKind = (.ok (k, n), s')) (hp : Peeked s' k n bv r st)
    (maxbits : Nat) : s.uint maxbits = s'.uint maxbits := by
  unfold Stream.uint
  rw [h, getKind_peeked hp]

theorem list_of_kind (h : s.getKind = (.ok (k, n), s')) (hp : Peeked s' k n bv r st) :
    s.list = s'.list := by
  unfold Stream.list
  rw [h, getKind_peeked hp]

theorem decodeByteArray_of_kind (h : s.getKind = (.ok (k, n), s')) (hp : Peeked s' k n bv r st)
    (typ : GoType) (vlen : Nat) : decodeByteArray typ vlen s = decodeByteArray typ vlen s' := by
  unfold decodeByteArray
  rw [h, getKind_peeked hp]

/-- The encoding of a string is its only byte, or a header and the string. -/
theorem getKind_encodeStr (hb : b.length < 2 ^ 64) (hs : Fresh s (encodeStr b ++ r) st)
    (hf : Fits (encodeStr b).length (encodeStr b ++ r) st) :
    (∃ x s1, b = [x] ∧ s.getKind = (.ok (.byte, 0), s1) ∧
      Peeked s1 .byte 0 x r (bump (encodeStr b).length st)) ∨
    ∃ s1 st1, (∀ x, b = [x] → ¬ x ≤ 0x7F) ∧ s.getKind = (.ok (.string, b.length), s1) ∧
      Peeked s1 .string b.length 0 (b ++ r) st1 ∧ Fits b.length (b ++ r) st1 ∧
      bump b.length st1 = bump (encodeStr b).length st := by
  by_cases hx : ∃ x, b = [x] ∧ x ≤ 0x7F
  · obtain ⟨x, rfl, hle⟩ := hx
    have he : encodeStr [x] = [x] := by rw [encodeStr_singleton, if_pos hle]
    rw [he] at hs hf ⊢
    obtain ⟨s1, hk, hp⟩ := getKind_of_header hs (.byte x (lt_128_iff.mpr hle)) hf
    exact .inl ⟨x, s1, rfl, hk, hp⟩
  · have hne : ∀ x, b = [x] → ¬ x ≤ 0x7F := fun x hbx hle => hx ⟨x, hbx, hle⟩
    rw [encodeStr_of_ne hne] at hs hf ⊢
    rw [append_assoc] at hs hf
    rw [length_append] at hf ⊢
    obtain ⟨s1, hk, hp⟩ := getKind_of_header hs (.string b.length hb) hf
    exact .inr ⟨s1, _, hne, hk, hp, hf.drop rfl, bump_bump ..⟩

theorem getKind_str (hb : b.length < 2 ^ 64) (hs : Fresh s (encodeStr b ++ r) st)
    (hf : Fits (encodeStr b).length (encodeStr b ++ r) st) :
    ∃ k n s1, k ≠ .list ∧ s.getKind = (.ok (k, n), s1) ∧ s.bytes = s1.bytes ∧
      ∃ s', s1.bytes = (.ok b, s') ∧ Fresh s' r (bump (encodeStr b).length st) := by
  rcases getKind_encodeStr hb hs hf with ⟨x, s1, rfl, hk, hp⟩ | ⟨s1, st1, hne, hk, hp, hf1, hst⟩
  · exact ⟨.byte, 0, s1, by decide, hk, bytes_of_kind hk hp, bytes_peeked_byte hp⟩
  · rw [← hst]
    exact ⟨.string, b.length, s1, by decide, hk, bytes_of_kind hk hp,
      bytes_peeked_string hp hf1 hne⟩

theorem bytes_reads (hb : b.length < 2 ^ 64) : Reads (fun s => some s.bytes) b (encodeStr b) := by
  intro s r st hs hf
  obtain ⟨k, n, s1, -, -, heq, s', hbs, hs'⟩ := getKind_str hb hs hf
  exact ⟨s', congrArg some (heq.trans hbs), hs'⟩

theorem list_of_header (hn : n < 2 ^ 64) (hs : Fresh s (header 0xC0 0xF7 n ++ r) st)
    (hf : Fits ((header 0xC0 0xF7 n).length + n) (header 0xC0 0xF7 n ++ r) st) :
    ∃ s', s.list = (.ok n, s') ∧ Fresh s' r (⟨0, n⟩ :: bump (header 0xC0 0xF7 n).length st) := by
  obtain ⟨s1, hk, hp⟩ := getKind_of_header hs (.list n hn) hf
  obtain ⟨s', hl, hs'⟩ := list_peeked hp
  exact ⟨s', by rw [list_of_kind hk hp, hl], hs'⟩

/-! ## Runs of element decoders -/

/-- The decoders `ds` one after another; `none` as soon as one does not return a value. -/
def decodeSeq : List (Stream → Run α) → List α → Stream → Option (List α × Stream)
  | [], acc, s => some (acc, s)
  | d :: ds, acc, s =>
    match d s with
    | some (.ok v, s) => decodeSeq ds (acc ++ [v]) s
    | _ => none

/-- The decoders `ds` read `enc` and return `vs`; only the last may leave `Kind` unarmed. -/
inductive SeqReads : List (Stream → Run α) → List α → Bytes → Prop
  | nil : SeqReads [] [] []
  | last {d : Stream → Run α} {v : α} {enc : Bytes} (h : ReadsTo d v enc) : SeqReads [d] [v] enc
  | cons {d : Stream → Run α} {v : α} {enc : Bytes} {ds : List (Stream → Run α)} {vs : List α}
      {encs : Bytes} (h : Reads d v enc) (hs : SeqReads ds vs encs) :
      SeqReads (d :: ds) (v :: vs) (enc ++ encs)

theorem SeqReads.decodeSeq {ds : List (Stream → Run α)}
    (h : SeqReads ds vs enc) : ∀ {s : Stream} {r : Bytes} {st : List ListPos} (acc : List α),
      Fresh s (enc ++ r) st → Fits enc.length (enc ++ r) st →
      ∃ s', Rlp.decodeSeq ds acc s = some (acc ++ vs, s') ∧ Pos s' r (bump enc.length st) := by
  induction h with
  | nil =>
    intro s r st acc hs _
    refine ⟨s, by simp [Rlp.decodeSeq], ?_⟩
    cases st <;> exact hs.toPos
  | last h =>
    intro s r st acc hs hf
    obtain ⟨s', hd, hs'⟩ := h hs hf
    exact ⟨s', by simp [Rlp.decodeSeq, hd], hs'⟩
  | cons h _ ih =>
    intro s r st acc hs hf
    rw [append_assoc] at hs hf
    rw [length_append] at hf
    obtain ⟨s1, hd, hs1⟩ := h hs (hf.mono (Nat.le_add_right _ _))
    obtain ⟨s', hseq, hs'⟩ := ih (acc ++ [_]) hs1 (hf.drop rfl)
    refine ⟨s', ?_, ?_⟩
    · rw [append_cons, ← hseq]
      simp [Rlp.decodeSeq, hd]
    · rw [length_append, ← bump_bump]
      exact hs'

theorem decodeArrayElems_ok_iff {typ : GoType} :
    ∀ {acc vs : List α} {s s' : Stream}, decodeArrayElems typ dec n acc s = some (.ok vs, s') ↔
      decodeSeq (List.replicate n dec) acc s = some (vs, s') := by
  induction n with
  | zero => intro acc vs s s'; simp [decodeArrayElems, decodeSeq]
  | succ n ih =>
    intro acc vs s s'
    rw [decodeArrayElems, replicate_succ, decodeSeq]
    rcases dec s with _ | ⟨e | v, s1⟩
    · simp
    · cases e <;> simp
    · exact ih

/-- The field decoders of a struct. -/
def Fields.decoders (dec : GoType → Stream → Run GoVal) : Fields → List (Stream → Run GoVal)
  | .nil => []
  | .cons _ t fs => dec t :: fs.decoders dec

theorem decodeFields_ok_iff {typ : GoType} {dec : GoType → Stream → Run GoVal} :
    ∀ (fs : Fields) {acc vs : List GoVal} {s s' : Stream},
      decodeFields typ dec fs acc s = some (.ok vs, s') ↔
        decodeSeq (fs.decoders dec) acc s = some (vs, s')
  | .nil, acc, vs, s, s' => by simp [decodeFields, decodeSeq, Fields.decoders]
  | .cons name t fs, acc, vs, s, s' => by
    rw [decodeFields, Fields.decoders, decodeSeq]
    rcases dec t s with _ | ⟨e | v, s1⟩
    · simp
    · cases e <;> simp
    · exact decodeFields_ok_iff fs

theorem decodeSliceElems_reads (hend : EndsAtEol dec)
    {enc : α → Bytes} (hread : ∀ v ∈ vs, Reads dec v (enc v)) :
    ∀ {fuel : Nat} {s : Stream} {r : Bytes} {pos : Nat} {st : List ListPos} (acc : List α),
      vs.length < fuel → Fresh s (vs.flatMap enc ++ r)
        (⟨pos, pos + (vs.flatMap enc).length⟩ :: st) →
      ∃ s', decodeSliceElems dec fuel acc s = some (.ok (acc ++ vs), s') ∧
        Pos s' r (⟨pos + (vs.flatMap enc).length, pos + (vs.flatMap enc).length⟩ :: st) := by
  induction vs with
  | nil =>
    intro fuel s r pos st acc hfuel hs
    obtain ⟨fuel, rfl⟩ := Nat.exists_eq_succ_of_ne_zero (Nat.ne_of_gt hfuel)
    obtain ⟨s', hd, hs'⟩ := hend hs rfl
    exact ⟨s', by simp [decodeSliceElems, hd], hs'.toPos⟩
  | cons v vs ih =>
    intro fuel s r pos st acc hfuel hs
    obtain ⟨fuel, rfl⟩ := Nat.exists_eq_succ_of_ne_zero (Nat.ne_of_gt (Nat.zero_lt_of_lt hfuel))
    simp only [flatMap_cons, append_assoc, length_append] at hs ⊢
    have hfit : Fits (enc v).length (enc v ++ (vs.flatMap enc ++ r))
        (⟨pos, pos + ((enc v).length + (vs.flatMap enc).length)⟩ :: st) := by
      refine ⟨?_, ?_⟩
      · simp only [length_append]; omega
      · show (enc v).length ≤ pos + ((enc v).length + (vs.flatMap enc).length) - pos
        omega
    obtain ⟨s1, hd, hs1⟩ := hread v (by simp) hs hfit
    simp only [← Nat.add_assoc] at hs1 ⊢
    obtain ⟨s', hl, hs'⟩ := ih (fun x hx => hread x (by simp [hx])) (acc ++ [v])
      (Nat.lt_of_succ_lt_succ hfuel) hs1
    refine ⟨s', ?_, hs'⟩
    rw [append_cons, ← hl]
    simp [decodeSliceElems, hd]

/-! ## List containers -/

section Containers

variable {dec : Stream → Run α} {enc : Bytes}

theorem list_listEnd {s : Stream} {r : Bytes} {st : List ListPos} (hn : enc.length < 2 ^ 64)
    (hs : Fresh s (header 0xC0 0xF7 enc.length ++ enc ++ r) st)
    (hf : Fits (header 0xC0 0xF7 enc.length ++ enc).length
      (header 0xC0 0xF7 enc.length ++ enc ++ r) st) :
    ∃ s1 st1, s.list = (.ok enc.length, s1) ∧ Fresh s1 (enc ++ r) (⟨0, enc.length⟩ :: st1) ∧
      ∀ s2, Pos s2 r (⟨enc.length, enc.length⟩ :: st1) → ∃ s', s2.listEnd = (.ok (), s') ∧
          Fresh s' r (bump (header 0xC0 0xF7 enc.length ++ enc).length st) := by
  rw [append_assoc] at hs hf
  rw [length_append] at hf
  obtain ⟨s1, hl, hs1⟩ := list_of_header hn hs hf
  refine ⟨s1, _, hl, hs1, ?_⟩
  intro s2 hs2
  obtain ⟨s', he, hs'⟩ := listEnd_atEnd hs2 rfl
  refine ⟨s', he, ?_⟩
  rw [length_append, ← bump_bump]
  exact hs'

theorem decodeListSlice_reads (typ : GoType) {enc : α → Bytes} {fuel : Nat}
    (hend : EndsAtEol dec) (hread : ∀ v ∈ vs, Reads dec v (enc v))
    (hne : ∀ v ∈ vs, 0 < (enc v).length) (hfuel : vs.length < fuel)
    (hn : (vs.flatMap enc).length < 2 ^ 64) :
    Reads (decodeListSlice typ dec fuel) vs
      (header 0xC0 0xF7 (vs.flatMap enc).length ++ vs.flatMap enc) := by
  intro s r st hs hf
  obtain ⟨s1, st1, hl, hs1, hend'⟩ := list_listEnd hn hs hf
  by_cases h0 : (vs.flatMap enc).length = 0
  · -- An empty payload is closed at once.
    have hvs : vs = [] := by
      cases vs with
      | nil => rfl
      | cons v vs =>
        have := hne v (by simp)
        simp only [flatMap_cons, length_append] at h0
        omega
    subst hvs
    obtain ⟨s', he, hs'⟩ := hend' s1 hs1.toPos
    refine ⟨s', ?_, hs'⟩
    simp only [decodeListSlice, hl, h0, if_true, he]
  · have hs1' : Fresh s1 (vs.flatMap enc ++ r) (⟨0, 0 + (vs.flatMap enc).length⟩ :: st1) := by
      rw [Nat.zero_add]
      exact hs1
    obtain ⟨s2, hd, hs2⟩ := decodeSliceElems_reads hend hread [] hfuel hs1'
    rw [Nat.zero_add] at hs2
    obtain ⟨s', he, hs'⟩ := hend' s2 hs2
    refine ⟨s', ?_, hs'⟩
    simp only [decodeListSlice, hl, if_neg h0, hd, he, nil_append]

theorem SeqReads.inList {ds : List (Stream → Run α)} (h : SeqReads ds vs enc)
    (hn : enc.length < 2 ^ 64) {s : Stream} {r : Bytes} {st : List ListPos}
    (hs : Fresh s (header 0xC0 0xF7 enc.length ++ enc ++ r) st)
    (hf : Fits (header 0xC0 0xF7 enc.length ++ enc).length
      (header 0xC0 0xF7 enc.length ++ enc ++ r) st) :
    ∃ n s1 s2 s', s.list = (.ok n, s1) ∧ Rlp.decodeSeq ds [] s1 = some (vs, s2) ∧
      s2.listEnd = (.ok (), s') ∧
      Fresh s' r (bump (header 0xC0 0xF7 enc.length ++ enc).length st) := by
  obtain ⟨s1, st1, hl, hs1, hend⟩ := list_listEnd hn hs hf
  obtain ⟨s2, hd, hs2⟩ := h.decodeSeq [] hs1 ⟨by simp, by simp⟩
  rw [bump_cons, Nat.zero_add] at hs2
  obtain ⟨s', he, hs'⟩ := hend s2 hs2
  exact ⟨_, s1, s2, s', hl, hd, he, hs'⟩

theorem decodeListArray_reads (typ : GoType) {n : Nat}
    (h : SeqReads (List.replicate n dec) vs enc) (hn : enc.length < 2 ^ 64) :
    Reads (decodeListArray typ dec n) vs (header 0xC0 0xF7 enc.length ++ enc) := by
  intro s r st hs hf
  obtain ⟨size, s1, s2, s', hl, hd, he, hs'⟩ := h.inList hn hs hf
  refine ⟨s', ?_, hs'⟩
  simp [decodeListArray, hl, decodeArrayElems_ok_iff.mpr hd, he, wrapped]

theorem decodeStruct_reads {fs : Fields} {dec : GoType → Stream → Run GoVal} {vs : List GoVal}
    (h : SeqReads (fs.decoders dec) vs enc) (hn : enc.length < 2 ^ 64) :
    Reads (decodeStruct fs dec) vs (header 0xC0 0xF7 enc.length ++ enc) := by
  intro s r st hs hf
  obtain ⟨size, s1, s2, s', hl, hd, he, hs'⟩ := h.inList hn hs hf
  refine ⟨s', ?_, hs'⟩
  simp [decodeStruct, hl, (decodeFields_ok_iff fs).mpr hd, he, wrapped]

end Containers

/-! ## `decodeInterface` -/

theorem encodeAll_eq_flatMap (ts : List Item) : encodeAll ts = ts.flatMap Item.encode := by
  induction ts with
  | nil => rw [encodeAll_nil, flatMap_nil]
  | cons t ts ih => rw [encodeAll_cons, flatMap_cons, ih]

theorem decodeInterface_endsAtEol (fuel : Nat) : EndsAtEol (decodeInterface (fuel + 1)) := by
  intro s r tos st hs he
  obtain ⟨s', hk, hs'⟩ := getKind_atEnd hs he
  exact ⟨s', by simp [decodeInterface, hk], hs'⟩

theorem decodeInterface_str (hb : b.length < 2 ^ 64) (fuel : Nat) :
    Reads (decodeInterface (fuel + 1)) (.str b) (encodeStr b) := by
  intro s r st hs hf
  obtain ⟨k, n, s1, hne, hk, -, s', hbs, hs'⟩ := getKind_str hb hs hf
  refine ⟨s', ?_, hs'⟩
  cases k with
  | list => exact absurd rfl hne
  | _ => simp [decodeInterface, hk, hbs]

theorem decodeInterface_list {ts : List Item} {fuel : Nat} (hfuel : ts.length < fuel)
    (hn : (encodeAll ts).length < 2 ^ 64)
    (hread : ∀ t ∈ ts, Reads (decodeInterface fuel) t t.encode) :
    Reads (decodeInterface (fuel + 1)) (.list ts) (Item.list ts).encode := by
  obtain ⟨fuel, rfl⟩ := Nat.exists_eq_succ_of_ne_zero (Nat.ne_of_gt (Nat.zero_lt_of_lt hfuel))
  have hslice := decodeListSlice_reads (.slice .iface) (decodeInterface_endsAtEol fuel) hread
    (fun t _ => t.encode_length_pos) hfuel (by rwa [← encodeAll_eq_flatMap])
  rw [← encodeAll_eq_flatMap] at hslice
  intro s r st hs hf
  rw [Item.encode_list] at hs hf ⊢
  obtain ⟨s', hd, hs'⟩ := hslice hs hf
  refine ⟨s', ?_, hs'⟩
  -- `decodeListSlice` starts with `List`, which sees the kind that `decodeInterface` has fetched.
  rw [append_assoc] at hs hf
  rw [length_append] at hf
  obtain ⟨s1, hk, hp⟩ := getKind_of_header hs (.list _ hn) hf
  have heq : decodeListSlice (.slice .iface) (decodeInterface (fuel + 1)) (fuel + 1) s =
      decodeListSlice (.slice .iface) (decodeInterface (fuel + 1)) (fuel + 1) s1 := by
    unfold decodeListSlice
    rw [list_of_kind hk hp]
  rw [heq] at hd
  rw [decodeInterface, hk]
  simp [hd, Run.map]

theorem decodeInterface_reads (t : Item) (fuel : Nat) (hfuel : t.encode.length < fuel)
    (hn : t.encode.length < 2 ^ 64) : Reads (decodeInterface fuel) t t.encode := by
  obtain ⟨fuel, rfl⟩ := Nat.exists_eq_succ_of_ne_zero (Nat.ne_of_gt (Nat.zero_lt_of_lt hfuel))
  match t with
  | .str b =>
    exact decodeInterface_str (Nat.lt_of_le_of_lt (le_length_encodeStr b) hn) fuel
  | .list ts =>
    have hlt := length_encodeAll_lt ts
    have hlen := length_le_encodeAll ts
    apply decodeInterface_list (by omega) (by omega)
    intro u hu
    have hle := length_encode_le_encodeAll hu
    exact decodeInterface_reads u fuel (by omega) (by omega)
termination_by fuel

end Geth.Rlp
