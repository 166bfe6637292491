import Geth.Rlp.Verify.Canonical

/-!
# The typed round trip

`DecodeBytes` into a variable of the type of an encoded value gives the value back, except for one
value: a `[1]byte` holding zero. `decodeByteArray` reads it with `Uint`, drops the error and leaves
`Kind` unarmed, so that the next decoder of the enclosing list takes the same byte again.
`GoVal.Safe` is the exact condition on a value for its round trip: no zero `[1]byte` is an element
of a slice, nor an element of an array or a field of a struct other than the last.
-/

namespace Geth.Rlp

open Lib List

variable {α : Type}

/-- The value is a `[1]byte` holding zero. -/
def GoVal.zeroByteArray : GoType → GoVal → Bool
  | .array 1 t, .str [x] => t.isByte && x == 0
  | _, _ => false

/-- Every value is `safe`, and none but the last is `zero`. -/
def SafeSeq (safe : α → Prop) (zero : α → Bool) : List α → Prop
  | [] => True
  | v :: vs => safe v ∧ (vs ≠ [] → zero v = false) ∧ SafeSeq safe zero vs

mutual

/-- No decoder is called with the kind of a zero `[1]byte` still cached. -/
def GoVal.Safe : GoType → GoVal → Prop
  | .slice t, .list vs => ∀ v ∈ vs, GoVal.Safe t v ∧ GoVal.zeroByteArray t v = false
  | .array _ t, .list vs => SafeSeq (GoVal.Safe t) (GoVal.zeroByteArray t) vs
  | .struct fs, .list vs => SafeFields fs vs
  | _, _ => True

/-- `GoVal.Safe` for the fields of a struct. -/
def SafeFields : Fields → List GoVal → Prop
  | .cons _ t fs, v :: vs =>
    GoVal.Safe t v ∧ (vs ≠ [] → GoVal.zeroByteArray t v = false) ∧ SafeFields fs vs
  | _, _ => True

end

/-! ## Scalars and byte arrays -/

theorem UintKind.bits_eq (k : UintKind) : 256 ^ (k.bits / 8) = 2 ^ k.bits := by
  cases k <;> rfl

variable {n fuel : Nat} {s : Stream} {r : Bytes} {st : List ListPos} {v : GoVal} {its : List Item}
  {dec : Stream → Run α}

theorem beBytes_of_lt_128 (h0 : n ≠ 0) (h : n < 128) : beBytes n = [UInt8.ofNat n] := by
  have hn : beNat [UInt8.ofNat n] = n := by
    simp only [beNat, foldl_cons, foldl_nil, UInt8.toNat_ofNat']
    omega
  have hne : ([UInt8.ofNat n] : List UInt8).head? ≠ some 0 := by
    intro hz
    rw [List.head?_cons, Option.some.injEq] at hz
    rw [hz] at hn
    simp [beNat] at hn
    omega
  calc beBytes n = beBytes (beNat [UInt8.ofNat n]) := by rw [hn]
    _ = [UInt8.ofNat n] := beBytes_beNat hne

theorem uint_reads (k : UintKind) (hn : n < 2 ^ k.bits) :
    Reads (fun s => some (s.uint k.bits)) n (encodeStr (beBytes n)) := by
  intro s r st hs hf
  have hlen : (beBytes n).length ≤ k.bits / 8 := by
    rw [length_beBytes_le_iff, k.bits_eq]
    exact hn
  have hlen64 : (beBytes n).length < 2 ^ 64 := by
    have : k.bits / 8 ≤ 8 := by cases k <;> decide
    omega
  rcases getKind_encodeStr hlen64 hs hf with ⟨x, s1, hx, hk, hp⟩ | ⟨s1, st1, hne, hk, hp, hf1, hst⟩
  · have hnx : x.toNat = n := by
      rw [← beNat_beBytes n, hx]
      simp [beNat]
    have hx0 : x ≠ 0 := by
      rintro rfl
      subst hnx
      simp at hx
    obtain ⟨s', hu, hs'⟩ := uint_peeked_byte hp hx0 k.bits
    rw [hnx] at hu
    exact ⟨s', congrArg some ((uint_of_kind hk hp _).trans hu), hs'⟩
  · have hu := uint_peeked_string hp k.bits
    rw [if_neg (Nat.not_lt.mpr hlen)] at hu
    rw [← hst]
    rcases Nat.eq_zero_or_pos n with rfl | hpos
    · refine ⟨{ s1 with kind := none }, congrArg some ((uint_of_kind hk hp _).trans hu), ?_⟩
      rw [beBytes_zero] at hp ⊢
      rw [length_nil, bump_zero]
      exact ⟨⟨hp.r_eq, hp.remaining, hp.limited, hp.stack⟩, rfl⟩
    · -- A number below 128 would have been its own encoding.
      have hlarge : ¬ ((beBytes n).length > 0 ∧ n < 128) := by
        rintro ⟨-, hlt⟩
        refine hne _ (beBytes_of_lt_128 (by omega) hlt) (lt_128_iff.mp ?_)
        show n % 256 < 128
        omega
      rw [readUint_of_fits hp.toPos hf1 (length_beBytes_pos (by omega))
        (.inr (head?_beBytes_ne_zero n)), beNat_beBytes] at hu
      simp only [if_neg hlarge] at hu
      exact ⟨_, congrArg some ((uint_of_kind hk hp _).trans hu), hp.toPos.moved _ _⟩

theorem bool_reads (b : Bool) :
    Reads (fun s => some s.bool) b (encodeStr (if b then [0x01] else [])) := by
  intro s r st hs hf
  have henc : encodeStr (if b then [0x01] else []) = encodeStr (beBytes b.toNat) := by
    cases b with
    | false => simp
    | true => rw [Bool.toNat_true, beBytes_of_lt_128 (by decide) (by decide)]; rfl
  rw [henc] at hs hf ⊢
  have hlt : b.toNat < 2 ^ UintKind.uint8.bits := by cases b <;> decide
  obtain ⟨s', hu, hs'⟩ := uint_reads .uint8 hlt hs hf
  have hu' : s.uint 8 = (.ok b.toNat, s') := Option.some.inj hu
  refine ⟨s', ?_, hs'⟩
  simp only [bool_eq, hu']
  cases b <;> rfl

/-- A byte array is read back; only a zero `[1]byte` leaves `Kind` unarmed. -/
theorem decodeByteArray_reads (typ : GoType) {b : Bytes} (hb : b.length < 2 ^ 64) (hz : b ≠ [0]) :
    Reads (fun s => some (decodeByteArray typ b.length s)) b (encodeStr b) := by
  intro s r st hs hf
  rcases getKind_encodeStr hb hs hf with ⟨x, s1, rfl, hk, hp⟩ | ⟨s1, st1, hne, hk, hp, hf1, hst⟩
  · have hx0 : x ≠ 0 := by
      rintro rfl
      exact hz rfl
    obtain ⟨s', hd, hs'⟩ := decodeByteArray_peeked_byte typ hp hx0
    exact ⟨s', congrArg some ((decodeByteArray_of_kind hk hp typ 1).trans hd), hs'⟩
  · obtain ⟨s', hs', hok, -⟩ := decodeByteArray_peeked_string typ hp hf1
    exact ⟨s', congrArg some ((decodeByteArray_of_kind hk hp typ _).trans (hok hne)), hst ▸ hs'⟩

theorem decodeByteArray_zero (typ : GoType) (hs : Fresh s (encodeStr [0] ++ r) st)
    (hf : Fits (encodeStr [0]).length (encodeStr [0] ++ r) st) :
    ∃ s', decodeByteArray typ 1 s = (.ok [0], s') ∧
      Stale s' r (bump (encodeStr [0]).length st) := by
  obtain ⟨s1, hk, hp⟩ := getKind_of_header hs (.byte 0 (by decide)) hf
  exact ⟨s1, (decodeByteArray_of_kind hk hp typ 1).trans (decodeByteArray_peeked_zero typ hp), hp⟩

/-! ## Runs that fail -/

/-- `dec` returns no value on input that starts with `enc`. -/
def Fails (dec : Stream → Run α) (enc : Bytes) : Prop :=
  ∀ ⦃s : Stream⦄ ⦃r : Bytes⦄ ⦃st : List ListPos⦄, Fresh s (enc ++ r) st →
    Fits enc.length (enc ++ r) st → TopOk (enc ++ r) st → ∀ v s', dec s ≠ some (.ok v, s')

/-- `dec` reads `v` from `enc` and leaves the kind of a zero byte cached. -/
def Sticks (dec : Stream → Run α) (v : α) (enc : Bytes) : Prop :=
  ∀ ⦃s : Stream⦄ ⦃r : Bytes⦄ ⦃st : List ListPos⦄, Fresh s (enc ++ r) st →
    Fits enc.length (enc ++ r) st →
    ∃ s', dec s = some (.ok v, s') ∧ Stale s' r (bump enc.length st)

theorem Fails.map {β : Type} {enc : Bytes} (h : Fails dec enc)
    (f : α → β) : Fails (fun s => (dec s).map f) enc := by
  intro s r st hs hf ht v s' hd
  rcases hop : dec s with _ | ⟨e | v0, s0⟩ <;> simp only [hop, Run.map] at hd <;> cases hd
  exact h hs hf ht _ _ hop

theorem header_length_le {s l : UInt8} (hn : n < 2 ^ 64) : (header s l n).length ≤ 9 := by
  have := length_beBytes_le_eight hn
  unfold header
  split
  · simp
  · rw [length_cons]
    omega

theorem encodeAll_inj {ts us : List Item} (h : encodeAll ts = encodeAll us)
    (hlen : (encodeAll ts).length < 2 ^ 63) : ts = us := by
  have henc : (Item.list ts).encode ++ [] = (Item.list us).encode ++ [] := by
    rw [Item.encode_list, Item.encode_list, h]
  have hhdr : (header 0xC0 0xF7 (encodeAll ts).length).length ≤ 9 := header_length_le (by omega)
  have hlt : ((Item.list ts).encode ++ []).length < 2 ^ 64 := by
    rw [append_nil, Item.encode_list, length_append]
    omega
  cases (encode_append_inj henc hlt).1
  rfl

theorem fits_inList {a : Bytes} {pos size : Nat} (h : pos + a.length ≤ size) :
    Fits a.length (a ++ r) (⟨pos, size⟩ :: st) := by
  refine ⟨by simp, ?_⟩
  show a.length ≤ size - pos
  omega

theorem topOk_inList {pos size : Nat} (h : size ≤ pos + r.length) :
    TopOk r (⟨pos, size⟩ :: st) := by
  show size - pos ≤ r.length
  omega

/-- Runs of decoders over the encodings of `its` that end before the end of the list, if they end:
one fails, or one other than the last leaves its kind cached. -/
inductive SeqFails : List (Stream → Run α) → List Item → Prop
  | fail {d : Stream → Run α} {ds : List (Stream → Run α)} {it : Item} {its : List Item}
      (h : Fails d it.encode) : SeqFails (d :: ds) (it :: its)
  | stick {d : Stream → Run α} {v : α} {ds : List (Stream → Run α)} {it : Item} {its : List Item}
      (h : Sticks d v it.encode) (hacc : ∀ d ∈ ds, Accepts d) (hlen : ds.length = its.length)
      (hne : ds ≠ []) : SeqFails (d :: ds) (it :: its)
  | cons {d : Stream → Run α} {v : α} {ds : List (Stream → Run α)} {it : Item} {its : List Item}
      (h : Reads d v it.encode) (hs : SeqFails ds its) : SeqFails (d :: ds) (it :: its)

theorem SeqFails.decodeSeq {ds : List (Stream → Run α)} (h : SeqFails ds its) :
    ∀ {s : Stream} {r : Bytes} {pos size : Nat} {st : List ListPos} {acc vs : List α}
      {s' : Stream}, (encodeAll its).length < 2 ^ 63 → size = pos + (encodeAll its).length →
      Fresh s (encodeAll its ++ r) (⟨pos, size⟩ :: st) →
      Rlp.decodeSeq ds acc s = some (vs, s') →
      ∃ r' pos', pos' ≠ size ∧ Pos s' r' (⟨pos', size⟩ :: st) := by
  induction h with
  | fail h =>
    intro s r pos size st acc vs s' _ hsize hs hd
    rw [encodeAll_cons, length_append] at hsize
    rw [encodeAll_cons, append_assoc] at hs
    rw [Rlp.decodeSeq] at hd
    split at hd
    · next hop =>
      refine absurd hop (h hs (fits_inList (by omega)) (topOk_inList ?_) _ _)
      simp only [length_append]
      omega
    · cases hd
  | @stick d v ds it its h hacc hcount hne =>
    intro s r pos size st acc vs s' hlen hsize hs hd
    rw [encodeAll_cons, length_append] at hsize hlen
    rw [encodeAll_cons, append_assoc] at hs
    obtain ⟨s1, hop, hs1⟩ := h hs (fits_inList (by omega))
    simp only [Rlp.decodeSeq, hop] at hd
    have ht : TopOk (encodeAll its ++ r) (bump it.encode.length (⟨pos, size⟩ :: st)) := by
      apply topOk_inList
      simp only [length_append]
      omega
    -- The stale byte is taken by the next decoder, so one item at least is left over.
    obtain ⟨its', r', hr, hs', -, hlt⟩ := decodeSeq_accepts hacc (.inr hs1) ht hd
    refine ⟨r', pos + it.encode.length + (encodeAll its').length, ?_, hs'.pos⟩
    intro heq
    have hpay := (append_inj hr (by omega)).1
    have hits : its = its' := encodeAll_inj hpay (by omega)
    have := hlt hs1 hne
    rw [hits] at hcount
    omega
  | cons h _ ih =>
    intro s r pos size st acc vs s' hlen hsize hs hd
    rw [encodeAll_cons, length_append] at hsize hlen
    rw [encodeAll_cons, append_assoc] at hs
    obtain ⟨s1, hop, hs1⟩ := h hs (fits_inList (by omega))
    simp only [Rlp.decodeSeq, hop] at hd
    exact ih (by omega) (by simp only; omega) hs1 hd

theorem SeqFails.inList {ds : List (Stream → Run α)} (h : SeqFails ds its) {s1 s2 s' : Stream}
    {vs : List α} {u : Unit} (hlen : (encodeAll its).length < 2 ^ 63)
    (hs : Fresh s ((Item.list its).encode ++ r) st)
    (hf : Fits (Item.list its).encode.length ((Item.list its).encode ++ r) st)
    (hl : s.list = (.ok n, s1)) (hd : Rlp.decodeSeq ds [] s1 = some (vs, s2)) :
    s2.listEnd ≠ (.ok u, s') := by
  obtain ⟨s1', st1, hl', hs1, -⟩ := list_listEnd (by omega) hs hf
  rw [hl] at hl'
  cases hl'
  obtain ⟨r', pos', hne, hs2⟩ := h.decodeSeq hlen (Nat.zero_add _).symm hs1 hd
  rw [listEnd_notAtEnd hs2 hne]
  intro h
  cases h

theorem decodeListArray_fails (typ : GoType)
    (h : SeqFails (List.replicate n dec) its) (hlen : (encodeAll its).length < 2 ^ 63) :
    Fails (decodeListArray typ dec n) (Item.list its).encode := by
  intro s r st hs hf _ v s' hd
  rcases hl : s.list with ⟨e | m, s1⟩
  · simp only [decodeListArray, hl] at hd
    cases hd
  simp only [decodeListArray, hl] at hd
  rcases hds : decodeArrayElems typ dec n [] s1 with _ | ⟨e | vs, s2⟩
  · simp [hds] at hd
  · simp [hds] at hd
  rcases he : s2.listEnd with ⟨e | u, s3⟩
  · simp [hds, he, wrapped] at hd
  · exact h.inList hlen hs hf hl (decodeArrayElems_ok_iff.mp hds) he

theorem decodeStruct_fails {fs : Fields} {dec : GoType → Stream → Run GoVal}
    (h : SeqFails (fs.decoders dec) its) (hlen : (encodeAll its).length < 2 ^ 63) :
    Fails (decodeStruct fs dec) (Item.list its).encode := by
  intro s r st hs hf _ v s' hd
  rcases hl : s.list with ⟨e | m, s1⟩
  · simp only [decodeStruct, hl] at hd
    cases hd
  simp only [decodeStruct, hl] at hd
  rcases hds : decodeFields (.struct fs) dec fs [] s1 with _ | ⟨e | vs, s2⟩
  · simp [hds] at hd
  · simp [hds] at hd
  rcases he : s2.listEnd with ⟨e | u, s3⟩
  · simp [hds, he, wrapped] at hd
  · exact h.inList hlen hs hf hl ((decodeFields_ok_iff fs).mp hds) he

/-- Once a zero `[1]byte` is cached, a slice of `[1]byte` reads it for ever. -/
theorem decodeSliceElems_stale {v : α} (h : dec s = some (.ok v, s)) (fuel : Nat) (acc : List α) :
    decodeSliceElems dec fuel acc s = none := by
  induction fuel generalizing acc with
  | zero => rfl
  | succ fuel ih =>
    simp only [decodeSliceElems, h]
    exact ih _

/-! ## Elements -/

/-- What the decoder of a type does with the encoding of a value, on a fresh stream and, if the
value is a zero `[1]byte`, when a zero byte is cached. -/
structure Treats (dec : Stream → Run GoVal) (t : GoType) (v : GoVal) : Prop where
  accepts : Accepts dec
  reads : v.Safe t → v.zeroByteArray t = false → Reads dec v (v.item t).encode
  sticks : v.zeroByteArray t = true → Sticks dec v (v.item t).encode
  stale : v.zeroByteArray t = true → ∀ {s : Stream} {r : Bytes} {st : List ListPos},
    Stale s r st → dec s = some (.ok v, s)
  fails : ¬ v.Safe t → Fails dec (v.item t).encode

section Elements

variable {dec : Stream → Run GoVal} {t : GoType} {vs : List GoVal}

theorem Treats.readsTo (h : Treats dec t v) (hsafe : v.Safe t) :
    ReadsTo dec v (v.item t).encode := by
  cases hz : v.zeroByteArray t with
  | false => exact (h.reads hsafe hz).readsTo
  | true =>
    intro s r st hs hf
    obtain ⟨s', hd, hs'⟩ := h.sticks hz hs hf
    exact ⟨s', hd, hs'.toPos⟩

theorem seqReads_replicate (h : ∀ v ∈ vs, Treats dec t v)
    (hsafe : SafeSeq (GoVal.Safe t) (GoVal.zeroByteArray t) vs) :
    SeqReads (List.replicate vs.length dec) vs (encodeAll (vs.map (GoVal.item t))) := by
  induction vs with
  | nil => exact .nil
  | cons v vs ih =>
    obtain ⟨hv, hz, hvs⟩ := hsafe
    rw [forall_mem_cons] at h
    cases vs with
    | nil =>
      simp only [length_singleton, replicate_one, map_cons, map_nil,
        encodeAll_cons, encodeAll_nil, append_nil]
      exact .last (h.1.readsTo hv)
    | cons w vs => exact .cons (h.1.reads hv (hz (by simp))) (ih h.2 hvs)

theorem seqFails_replicate (h : ∀ v ∈ vs, Treats dec t v)
    (hbad : ¬ SafeSeq (GoVal.Safe t) (GoVal.zeroByteArray t) vs) :
    SeqFails (List.replicate vs.length dec) (vs.map (GoVal.item t)) := by
  induction vs with
  | nil => exact absurd trivial hbad
  | cons v vs ih =>
    rw [forall_mem_cons] at h
    by_cases hv : v.Safe t
    · by_cases hne : vs = []
      · subst hne
        exact absurd ⟨hv, fun hne => absurd rfl hne, trivial⟩ hbad
      cases hz : v.zeroByteArray t with
      | true =>
        refine .stick (h.1.sticks hz) (fun d hd => ?_) (by simp) (by simpa using hne)
        rw [eq_of_mem_replicate hd]
        exact h.1.accepts
      | false => exact .cons (h.1.reads hv hz) (ih h.2 fun hvs => hbad ⟨hv, fun _ => hz, hvs⟩)
    · exact .fail (h.1.fails hv)

theorem decodeSliceElems_fails (h : ∀ v ∈ vs, Treats dec t v)
    (hbad : ¬ ∀ v ∈ vs, v.Safe t ∧ v.zeroByteArray t = false) :
    ∀ {fuel : Nat} {s : Stream} {r : Bytes} {pos size : Nat} {st : List ListPos}
      {acc vs' : List GoVal}
      {s' : Stream}, size = pos + (encodeAll (vs.map (GoVal.item t))).length →
      Fresh s (encodeAll (vs.map (GoVal.item t)) ++ r) (⟨pos, size⟩ :: st) →
      decodeSliceElems dec fuel acc s ≠ some (.ok vs', s') := by
  induction vs with
  | nil => exact absurd (by simp) hbad
  | cons v vs ih =>
    intro fuel s r pos size st acc vs' s' hsize hs hd
    cases fuel with
    | zero => cases hd
    | succ fuel =>
    rw [forall_mem_cons] at h hbad
    rw [map_cons, encodeAll_cons, length_append] at hsize
    rw [map_cons, encodeAll_cons, append_assoc] at hs
    have hf : Fits (v.item t).encode.length
        ((v.item t).encode ++ (encodeAll (vs.map (GoVal.item t)) ++ r)) (⟨pos, size⟩ :: st) :=
      fits_inList (by omega)
    have ht : TopOk ((v.item t).encode ++ (encodeAll (vs.map (GoVal.item t)) ++ r))
        (⟨pos, size⟩ :: st) := by
      apply topOk_inList
      simp only [length_append]
      omega
    by_cases hv : v.Safe t
    · cases hz : v.zeroByteArray t with
      | true =>
        obtain ⟨s1, hop, hs1⟩ := h.1.sticks hz hs hf
        simp only [decodeSliceElems, hop, decodeSliceElems_stale (h.1.stale hz hs1)] at hd
        cases hd
      | false =>
        obtain ⟨s1, hop, hs1⟩ := h.1.reads hv hz hs hf
        simp only [decodeSliceElems, hop] at hd
        exact ih h.2 (fun hall => hbad ⟨⟨hv, hz⟩, hall⟩) (by simp only; omega) hs1 hd
    · rcases hop : dec s with _ | ⟨e | w, s1⟩
      · simp [decodeSliceElems, hop] at hd
      · -- The element is there, so its decoder cannot report the end of the list.
        have hne : e ≠ .eol := by
          rintro rfl
          exact (h.1.accepts.eol (.inl hs) ht hop).1 (hf.notAtEnd (v.item t).encode_length_pos)
        rw [decodeSliceElems, hop] at hd
        cases e <;> first | exact hne rfl | cases hd
      · exact h.1.fails hv hs hf ht _ _ hop

theorem decodeListSlice_fails (typ : GoType) (h : ∀ v ∈ vs, Treats dec t v)
    (hbad : ¬ ∀ v ∈ vs, v.Safe t ∧ v.zeroByteArray t = false) (fuel : Nat)
    (hlen : (encodeAll (vs.map (GoVal.item t))).length < 2 ^ 63) :
    Fails (decodeListSlice typ dec fuel) (Item.list (vs.map (GoVal.item t))).encode := by
  intro s r st hs hf _ v s' hd
  obtain ⟨s1, st1, hl, hs1, -⟩ := list_listEnd (by omega) hs hf
  have hne : ¬ (encodeAll (vs.map (GoVal.item t))).length = 0 := by
    intro h0
    have hcount := length_le_encodeAll (vs.map (GoVal.item t))
    rw [length_map, h0] at hcount
    rw [length_eq_zero_iff.mp (Nat.le_zero.mp hcount)] at hbad
    exact hbad (by simp)
  simp only [decodeListSlice, hl, if_neg hne] at hd
  rcases hds : decodeSliceElems dec fuel [] s1 with _ | ⟨e | vs', s2⟩
  · simp [hds] at hd
  · simp [hds] at hd
  · exact decodeSliceElems_fails h hbad (Nat.zero_add _).symm hs1 hds

end Elements

/-! ## The decoders -/

theorem zeroByteArray_eq {t : GoType} (ht : t.isByte = true) (b : Bytes) :
    GoVal.zeroByteArray (.array b.length t) (.str b) = true ↔ b = [0] := by
  match b with
  | [] => simp [GoVal.zeroByteArray]
  | [x] => simp [GoVal.zeroByteArray, ht]
  | x :: y :: b => simp [GoVal.zeroByteArray]

theorem zeroByteArray_cases {t : GoType} (h : v.zeroByteArray t = true) :
    ∃ t', t = .array 1 t' ∧ t'.isByte = true ∧ v = .str [0] := by
  unfold GoVal.zeroByteArray at h
  split at h
  · next t' x =>
    rw [Bool.and_eq_true, beq_iff_eq] at h
    obtain ⟨hb, rfl⟩ := h
    exact ⟨t', rfl, hb, rfl⟩
  · cases h

theorem decoder_endsAtEol (h : 2 ≤ fuel) (t : GoType) : EndsAtEol (decoder fuel t) := by
  obtain ⟨fuel, rfl⟩ := Nat.exists_eq_add_of_le' h
  exact (decoder_kindFirst fuel t).endsAtEol

theorem length_decoders (dec : GoType → Stream → Run GoVal) :
    ∀ (fs : Fields) (vs : List GoVal), HaveTypes vs fs →
      (fs.decoders dec).length = (itemFields fs vs).length ∧ ((fs.decoders dec) = [] ↔ vs = [])
  | .nil, vs, h => by
    subst h
    simp [Fields.decoders, itemFields]
  | .cons name t fs, vs, h => by
    obtain ⟨v, vs, rfl, -, hvs⟩ := h
    have := (length_decoders dec fs vs hvs).1
    simp [Fields.decoders, itemFields, this]

theorem decoder_treats_of {t : GoType} {it : Item} (hitem : v.item t = it)
    (hreads : v.Safe t → v.zeroByteArray t = false → Reads (decoder (fuel + 1) t) v it.encode)
    (hfails : ¬ v.Safe t → Fails (decoder (fuel + 1) t) it.encode) :
    Treats (decoder (fuel + 1) t) t v where
  accepts := decoder_accepts (fuel + 1) t
  reads := hitem ▸ hreads
  sticks hz := by
    obtain ⟨t', rfl, hb, rfl⟩ := zeroByteArray_cases hz
    intro s r st hs hf
    obtain ⟨s', hd, hs'⟩ := decodeByteArray_zero (.array 1 t') hs hf
    exact ⟨s', by simp [decoder, hb, hd, Run.map], hs'⟩
  stale hz := by
    obtain ⟨t', rfl, hb, rfl⟩ := zeroByteArray_cases hz
    intro s r st hs
    simp [decoder, hb, decodeByteArray_peeked_zero _ hs, Run.map]
  fails := hitem ▸ hfails

theorem Reads.treats {t : GoType} (h : Reads (decoder (fuel + 1) t) v (v.item t).encode)
    (hsafe : v.Safe t) : Treats (decoder (fuel + 1) t) t v :=
  decoder_treats_of rfl (fun _ _ => h) (absurd hsafe)

mutual

theorem decoder_treats : ∀ (t : GoType) (v : GoVal) (fuel : Nat), v.HasType t →
    sizeOf t + (v.item t).encode.length < fuel → (v.item t).encode.length < 2 ^ 63 →
    Treats (decoder fuel t) t v
  | t, v, 0, _, hfuel, _ => absurd hfuel (Nat.not_lt_zero _)
  | .bool, v, fuel + 1, ht, _, _ => by
    obtain ⟨b, rfl⟩ := ht
    exact Reads.treats ((bool_reads b).wrapped _ _) (by simp [GoVal.Safe])
  | .uint k, v, fuel + 1, ht, _, _ => by
    obtain ⟨n, rfl, hn⟩ := ht
    exact Reads.treats ((uint_reads k hn).wrapped _ _) (by simp [GoVal.Safe])
  | .string, v, fuel + 1, ht, _, hlen => by
    obtain ⟨b, rfl⟩ := ht
    have hb : b.length < 2 ^ 63 := Nat.lt_of_le_of_lt (le_length_encodeStr b) hlen
    exact Reads.treats ((bytes_reads (b := b) (by omega)).wrapped _ _) (by simp [GoVal.Safe])
  | .slice t, v, fuel + 1, ht, hfuel, hlen => by
    rw [GoVal.HasType] at ht
    by_cases hbyte : t.isByte = true
    · rw [if_pos hbyte] at ht
      obtain ⟨b, rfl⟩ := ht
      have hb : b.length < 2 ^ 63 := Nat.lt_of_le_of_lt (le_length_encodeStr b) hlen
      refine Reads.treats ?_ (by simp [GoVal.Safe])
      simp only [decoder, hbyte, if_true]
      exact (bytes_reads (by omega)).wrapped (.slice t) GoVal.str
    · rw [if_neg hbyte] at ht
      obtain ⟨vs, rfl, hvs⟩ := ht
      have hitem : (GoVal.list vs).item (.slice t) = .list (vs.map (GoVal.item t)) := by
        rw [GoVal.item]
      have hall := length_encodeAll_lt (vs.map (GoVal.item t))
      have hcount := length_le_encodeAll (vs.map (GoVal.item t))
      rw [hitem] at hfuel hlen
      rw [GoType.slice.sizeOf_spec] at hfuel
      rw [length_map] at hcount
      have helem : ∀ v ∈ vs, Treats (decoder fuel t) t v := by
        intro v hv
        have hle := length_encode_le_encodeAll (mem_map_of_mem (f := GoVal.item t) hv)
        exact decoder_treats t v fuel (hvs v hv) (by omega) (by omega)
      refine decoder_treats_of hitem (fun hsafe _ => ?_) (fun hbad => ?_)
      · have hflat : vs.flatMap (fun v => (v.item t).encode) =
            encodeAll (vs.map (GoVal.item t)) := by
          rw [encodeAll_eq_flatMap, flatMap_map]
        rw [Item.encode_list, ← hflat]
        simp only [decoder, hbyte]
        exact (decodeListSlice_reads _ (decoder_endsAtEol (by omega) t)
          (fun v hv => (helem v hv).reads (hsafe v hv).1 (hsafe v hv).2)
          (fun v _ => (v.item t).encode_length_pos) (by omega) (by rw [hflat]; omega)).map
            GoVal.list
      · simp only [decoder, hbyte]
        exact (decodeListSlice_fails _ helem hbad fuel (by omega)).map GoVal.list
  | .array n t, v, fuel + 1, ht, hfuel, hlen => by
    rw [GoVal.HasType] at ht
    by_cases hbyte : t.isByte = true
    · rw [if_pos hbyte] at ht
      obtain ⟨b, rfl, rfl⟩ := ht
      have hb : b.length < 2 ^ 63 := Nat.lt_of_le_of_lt (le_length_encodeStr b) hlen
      have hitem : (GoVal.str b).item (.array b.length t) = .str b := by rw [GoVal.item]
      refine decoder_treats_of hitem (fun _ hz => ?_) (absurd (by simp [GoVal.Safe]))
      have hne : b ≠ [0] := by
        rintro rfl
        rw [(zeroByteArray_eq hbyte [0]).mpr rfl] at hz
        cases hz
      simp only [decoder, hbyte, if_true]
      exact (decodeByteArray_reads (.array b.length t) (by omega) hne).map GoVal.str
    · rw [if_neg hbyte] at ht
      obtain ⟨vs, rfl, rfl, hvs⟩ := ht
      have hitem : (GoVal.list vs).item (.array vs.length t) = .list (vs.map (GoVal.item t)) := by
        rw [GoVal.item]
      have hall := length_encodeAll_lt (vs.map (GoVal.item t))
      rw [hitem] at hfuel hlen
      rw [GoType.array.sizeOf_spec] at hfuel
      have helem : ∀ v ∈ vs, Treats (decoder fuel t) t v := by
        intro v hv
        have hle := length_encode_le_encodeAll (mem_map_of_mem (f := GoVal.item t) hv)
        exact decoder_treats t v fuel (hvs v hv) (by omega) (by omega)
      refine decoder_treats_of hitem (fun hsafe _ => ?_) (fun hbad => ?_)
      · simp only [decoder, hbyte]
        exact (decodeListArray_reads _ (seqReads_replicate helem hsafe) (by omega)).map GoVal.list
      · simp only [decoder, hbyte]
        exact (decodeListArray_fails _ (seqFails_replicate helem hbad) (by omega)).map GoVal.list
  | .struct fs, v, fuel + 1, ht, hfuel, hlen => by
    obtain ⟨vs, rfl, hvs⟩ := ht
    have hitem : (GoVal.list vs).item (.struct fs) = .list (itemFields fs vs) := by
      rw [GoVal.item]
    have hall := length_encodeAll_lt (itemFields fs vs)
    rw [hitem] at hfuel hlen
    rw [GoType.struct.sizeOf_spec] at hfuel
    obtain ⟨hreads, hfails⟩ := decodeFields_treats fs vs fuel hvs (by omega) (by omega)
    refine decoder_treats_of hitem (fun hsafe _ => ?_) (fun hbad => ?_)
    · exact (decodeStruct_reads (hreads hsafe) (by omega)).map GoVal.list
    · exact (decodeStruct_fails (hfails hbad) (by omega)).map GoVal.list
  | .iface, v, fuel + 1, ht, hfuel, hlen => by
    obtain ⟨t, rfl⟩ := ht
    have hitem : (GoVal.iface t).item .iface = t := by rw [GoVal.item]
    rw [hitem] at hfuel hlen
    rw [GoType.iface.sizeOf_spec] at hfuel
    refine decoder_treats_of hitem (fun _ _ => ?_) (absurd (by simp [GoVal.Safe]))
    exact (decodeInterface_reads t fuel (by omega) (by omega)).map GoVal.iface

theorem decodeFields_treats : ∀ (fs : Fields) (vs : List GoVal) (fuel : Nat), HaveTypes vs fs →
    sizeOf fs + (encodeAll (itemFields fs vs)).length < fuel →
    (encodeAll (itemFields fs vs)).length < 2 ^ 63 →
    (SafeFields fs vs → SeqReads (fs.decoders (decoder fuel)) vs (encodeAll (itemFields fs vs))) ∧
    (¬ SafeFields fs vs → SeqFails (fs.decoders (decoder fuel)) (itemFields fs vs))
  | .nil, vs, fuel, ht, _, _ => by
    subst ht
    exact ⟨fun _ => .nil, absurd (by simp [SafeFields])⟩
  | .cons name t fs, vs, fuel, ht, hfuel, hlen => by
    obtain ⟨v, vs, rfl, hv, hvs⟩ := ht
    rw [itemFields, encodeAll_cons, length_append] at hfuel hlen
    rw [Fields.cons.sizeOf_spec] at hfuel
    have h := decoder_treats t v fuel hv (by omega) (by omega)
    obtain ⟨hreads, hfails⟩ := decodeFields_treats fs vs fuel hvs (by omega) (by omega)
    obtain ⟨hcount, hnil⟩ := length_decoders (decoder fuel) fs vs hvs
    rw [SafeFields, itemFields, encodeAll_cons, Fields.decoders]
    by_cases hne : vs = []
    · subst hne
      cases fs with
      | nil =>
        simp only [itemFields, encodeAll_nil, append_nil]
        refine ⟨fun hsafe => .last (h.readsTo hsafe.1), fun hbad => .fail (h.fails fun hsafe => ?_)⟩
        exact hbad ⟨hsafe, fun hne => absurd rfl hne, by simp [SafeFields]⟩
      | cons name' t' fs' =>
        obtain ⟨w, ws, hw, -⟩ := hvs
        cases hw
    · refine ⟨fun ⟨hsafe, hz, hrest⟩ => .cons (h.reads hsafe (hz hne)) (hreads hrest),
        fun hbad => ?_⟩
      by_cases hsafe : v.Safe t
      · cases hz : v.zeroByteArray t with
        | true =>
          exact .stick (h.sticks hz) (accepts_decoders (decoder_accepts fuel) fs) hcount
            (mt hnil.mp hne)
        | false =>
          exact .cons (h.reads hsafe hz) (hfails fun hrest => hbad ⟨hsafe, fun _ => hz, hrest⟩)
      · exact .fail (h.fails hsafe)

end

/-! ## `DecodeBytes` of `EncodeToBytes` -/

/-- `DecodeBytes` ends with the result `res`. -/
def Decodes (t : GoType) (b : Bytes) (res : Except Err GoVal) : Prop :=
  ∃ n, ∀ fuel, n ≤ fuel → decodeBytes fuel t b = some res

/-- The typed round trip: decoding the encoding of a value into a variable of its type yields the
value exactly if no zero `[1]byte` is an element of a slice or an element of an array or field of a
struct that is not the last one. -/
theorem decodes_encodeToBytes_iff {t : GoType} {v : GoVal} {b : Bytes} (ht : v.HasType t)
    (henc : encodeToBytes t v = some b) : Decodes t b (.ok v) ↔ v.Safe t := by
  obtain ⟨rfl, hlen⟩ := (encodeToBytes_eq_some_iff ht b).mp henc
  have hs : Fresh (Stream.new (v.item t).encode) ((v.item t).encode ++ []) [] := by
    rw [List.append_nil]
    exact fresh_new _
  have hf : Fits (v.item t).encode.length ((v.item t).encode ++ []) [] :=
    Nat.le_of_eq (by rw [List.append_nil])
  constructor
  · rintro ⟨n, hn⟩
    by_contra hbad
    have hfuel : sizeOf t + (v.item t).encode.length <
        max n (sizeOf t + (v.item t).encode.length + 1) := by omega
    obtain ⟨s', hd, -⟩ := decodeBytes_ok_iff.mp (hn _ (Nat.le_max_left _ _))
    exact (decoder_treats t v _ ht hfuel hlen).fails hbad hs hf trivial v s' hd
  · intro hsafe
    refine ⟨sizeOf t + (v.item t).encode.length + 1, fun fuel hfuel => ?_⟩
    obtain ⟨s', hd, hs'⟩ := (decoder_treats t v fuel ht hfuel hlen).readsTo hsafe hs hf
    exact decodeBytes_ok_iff.mpr ⟨s', hd, hs'.r_eq⟩

/-- `struct { A uint8; B [1]byte }` with the values 5 and 0. -/
theorem decodes_encodeToBytes_last_field :
    Decodes (.struct (.cons "A" (.uint .uint8) (.cons "B" (.array 1 (.uint .uint8)) .nil)))
      [0xC2, 0x05, 0x00] (.ok (.list [.uint 5, .str [0]])) := by
  refine (decodes_encodeToBytes_iff (v := .list [.uint 5, .str [0]]) ?_ rfl).mpr ?_
  · simp [GoVal.HasType, HaveTypes, GoType.isByte, UintKind.bits]
  · simp [GoVal.Safe, SafeFields, GoVal.zeroByteArray]

/-- `struct { A [1]byte; B uint8 }` with the values 0 and 5: the decoder of `B` takes the byte of
`A` once more and reports it as a non-canonical integer. -/
theorem not_decodes_zero_first_field :
    let t : GoType := .struct (.cons "A" (.array 1 (.uint .uint8)) (.cons "B" (.uint .uint8) .nil))
    let v : GoVal := .list [.str [0], .uint 5]
    v.HasType t ∧ encodeToBytes t v = some [0xC2, 0x00, 0x05] ∧
      Decodes t [0xC2, 0x00, 0x05] (.error (.decode "non-canonical integer (leading zero bytes)"
        (.uint .uint8) [.field "B", .target t])) ∧
      ¬ Decodes t [0xC2, 0x00, 0x05] (.ok v) := by
  intro t v
  have herr : ∀ fuel, decodeBytes (fuel + 3) t [0xC2, 0x00, 0x05] =
      some (.error (.decode "non-canonical integer (leading zero bytes)"
        (.uint .uint8) [.field "B", .target t])) := fun fuel => rfl
  refine ⟨?_, rfl, ⟨3, fun fuel hfuel => ?_⟩, ?_⟩
  · simp [t, v, GoVal.HasType, HaveTypes, GoType.isByte, UintKind.bits]
  · obtain ⟨fuel, rfl⟩ := Nat.exists_eq_add_of_le' hfuel
    exact herr fuel
  · rintro ⟨n, hn⟩
    have := hn (n + 3) (Nat.le_add_right _ _)
    rw [herr] at this
    cases this

end Geth.Rlp
