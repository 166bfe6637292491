import Geth.Whisper.Message

/-!
# Parsing Whisper messages

A message that was built is taken apart into what it was built from. On other bytes the slices of
`ValidateAndParse` are in bounds exactly if the size field is, and if the payload ends before the
signature or is as long as the message; the source checks the payload against the end without the
flags and the size field.
-/

namespace Geth.Whisper

open List Option

variable {C : Crypto} {n : Nat} {flags : UInt8}

/-! ## Panics -/

/-- The size field lies within the message, and the payload is too long to be read or ends before
`stop`. -/
def BodyFits (raw : Bytes) (flags : UInt8) (stop : Nat) : Prop :=
  let size := (flags &&& sizeMask).toNat
  let payloadSize := bytesToUintLittleEndian ((raw.take (1 + size)).drop 1)
  size = 0 ∨ 1 + size ≤ raw.length ∧ (stop < payloadSize + 1 ∨ 1 + size + payloadSize ≤ stop)

/-- The slices of `ValidateAndParse` are in bounds, as far as it gets. -/
def Fits (C : Crypto) (raw : Bytes) : Prop :=
  match raw with
  | [] => True
  | flags :: _ =>
    let stop := raw.length - signatureLength
    if isMessageSigned flags then
      raw.length ≤ signatureLength + 1 ∨
        C.sigToPub (C.keccak256 (raw.take stop)) (raw.drop stop) = none ∨ BodyFits raw flags stop
    else BodyFits raw flags raw.length

theorem slice_of_le {b : Bytes} {i j : Nat} (hij : i ≤ j) (hj : j ≤ b.length) :
    slice b i j = some ((b.take j).drop i) :=
  if_pos ⟨hij, hj⟩

theorem slice_of_not {b : Bytes} {i j : Nat} (h : ¬ (i ≤ j ∧ j ≤ b.length)) : slice b i j = none :=
  if_neg h

theorem isSome_parseBody {raw : Bytes} {stop : Nat} (signature : Bytes)
    (src : Option C.PublicKey) (hpos : 1 ≤ stop) (hstop : stop ≤ raw.length) :
    (parseBody raw flags stop signature src).isSome ↔ BodyFits raw flags stop := by
  rw [parseBody, BodyFits]
  split
  · next hzero =>
    rw [slice_of_le hpos hstop]
    exact iff_of_true rfl (.inl hzero)
  · next hsize =>
    by_cases hfield : 1 + (flags &&& sizeMask).toNat ≤ raw.length
    · rw [slice_of_le (by omega) hfield]
      simp only [bind_eq_bind, bind_some, hsize, hfield, false_or, true_and]
      generalize bytesToUintLittleEndian _ = payloadSize
      split
      · next hlong => exact iff_of_true rfl (.inl hlong)
      · next hlong =>
        by_cases hfits : 1 + (flags &&& sizeMask).toNat + payloadSize ≤ stop
        · rw [slice_of_le (by omega) (by omega), bind_some, slice_of_le hfits hstop]
          exact iff_of_true rfl (.inr hfits)
        · refine iff_of_false ?_ (by omega)
          rw [slice_of_not (i := _ + payloadSize) fun h => hfits h.1]
          cases slice raw _ _ <;> exact Bool.false_ne_true
    · rw [slice_of_not fun h => hfield h.2]
      simp only [bind_eq_bind, bind_none, isSome_none, hsize, hfield]
      simp

theorem isSome_validateAndParse (raw : Bytes) :
    (validateAndParse (C := C) raw).isSome ↔ Fits C raw := by
  cases raw with
  | nil => exact iff_of_true rfl trivial
  | cons flags rest =>
    rw [validateAndParse, Fits]
    split
    · split
      · next hshort => exact iff_of_true rfl (.inl hshort)
      · next hshort =>
        dsimp only
        cases C.sigToPub _ _ with
        | none => exact iff_of_true rfl (.inr (.inl rfl))
        | some src =>
          refine (isSome_parseBody _ _ (by omega) (Nat.sub_le _ _)).trans ?_
          exact ⟨fun h => .inr (.inr h),
            fun h => (h.resolve_left hshort).resolve_left (by rintro ⟨⟩)⟩
    · exact isSome_parseBody _ _ (Nat.succ_pos _) le_rfl

/-! ## Messages that were built -/

theorem sizeField_small (h : n < 256) : getSizeOfPayloadSizeField n = 1 := by
  rw [getSizeOfPayloadSizeField, if_neg (by omega)]

theorem sizeField_large (h : 256 ≤ n) :
    getSizeOfPayloadSizeField n = getSizeOfPayloadSizeField (n / 256) + 1 := by
  rw [getSizeOfPayloadSizeField, if_pos h]

/-- The size field of a payload below 2 ^ 24 bytes: its width is in the flags, and it is read
back. -/
theorem sizeField_spec (h : n < 2 ^ 24) :
    ∃ size, getSizeOfPayloadSizeField n = size ∧ (1 ≤ size ∧ size ≤ 3) ∧
      bytesToUintLittleEndian ((putUint32 n).take size) = n := by
  by_cases h1 : n < 256
  · refine ⟨1, sizeField_small h1, by decide, ?_⟩
    simp [putUint32, bytesToUintLittleEndian, UInt8.toNat_ofNat']
    omega
  · by_cases h2 : n < 65536
    · refine ⟨2, ?_, by decide, ?_⟩
      · rw [sizeField_large (by omega), sizeField_small (by omega)]
      · simp [putUint32, bytesToUintLittleEndian, UInt8.toNat_ofNat']
        omega
    · refine ⟨3, ?_, by decide, ?_⟩
      · rw [sizeField_large (by omega), sizeField_large (by omega), sizeField_small (by omega)]
      · simp [putUint32, bytesToUintLittleEndian, UInt8.toNat_ofNat']
        omega

theorem slice_append (a b c : Bytes) : slice (a ++ b ++ c) a.length (a.length + b.length) =
    some b := by
  rw [slice_of_le (Nat.le_add_right _ _) (by simp), ← length_append, take_left, drop_left]

theorem parseBody_built {field payload : Bytes} (padding tail : Bytes) {stop : Nat}
    (hflags : (flags &&& sizeMask).toNat = field.length) (hpos : 1 ≤ field.length)
    (hfield : bytesToUintLittleEndian field = payload.length)
    (hstop : stop = 1 + field.length + payload.length + padding.length)
    (signature : Bytes) (src : Option C.PublicKey) :
    parseBody (flags :: (field ++ payload ++ padding ++ tail)) flags stop signature src =
      some (some ⟨payload, padding, signature, src⟩) := by
  generalize hraw : flags :: (field ++ payload ++ padding ++ tail) = raw
  have h1 : slice raw 1 (1 + field.length) = some field := by
    simpa [← hraw] using slice_append [flags] field (payload ++ (padding ++ tail))
  have h2 : slice raw (1 + field.length) (1 + field.length + payload.length) = some payload := by
    simpa [← hraw, Nat.add_comm 1] using slice_append (flags :: field) payload (padding ++ tail)
  have h3 : slice raw (1 + field.length + payload.length) stop = some padding := by
    simpa [← hraw, hstop, Nat.add_comm 1, Nat.add_right_comm] using
      slice_append (flags :: (field ++ payload)) padding tail
  rw [parseBody, hflags, if_neg (by omega), h1]
  simp only [bind_eq_bind, bind_some, hfield]
  rw [if_neg (by omega), h2, bind_some, h3]
  rfl

/-- The flags and the size field of a payload. -/
structure Headed (payload : Bytes) (flags : UInt8) (field : Bytes) : Prop where
  pos : 1 ≤ field.length
  value : bytesToUintLittleEndian field = payload.length
  size : (flags &&& sizeMask).toNat = field.length
  signedSize : ((flags ||| signatureFlag) &&& sizeMask).toNat = field.length
  unsigned : isMessageSigned flags = false
  signed : isMessageSigned (flags ||| signatureFlag) = true

theorem addPayloadSizeField_headed {payload : Bytes} (h : payload.length < 2 ^ 24) :
    ∃ flags field, addPayloadSizeField 0 payload = flags :: field ∧ Headed payload flags field := by
  obtain ⟨size, hsize, ⟨hpos, hle⟩, hfield⟩ := sizeField_spec h
  have hlen : ((putUint32 payload.length).take size).length = size := by
    rw [length_take]
    exact min_eq_left (hle.trans (by simp [putUint32]))
  rw [addPayloadSizeField, hsize]
  refine ⟨_, _, rfl, hlen.symm ▸ hpos, hfield, ?_, ?_, ?_, ?_⟩
  · rw [hlen]
    interval_cases size <;> rfl
  · rw [hlen]
    interval_cases size <;> rfl
  · interval_cases size <;> rfl
  · interval_cases size <;> rfl

theorem paddingOf_eq_iff {crand : Nat → Option Bytes} {params : MessageParams C} {padding : Bytes}
    (h : paddingOf crand params = some padding) :
    padding = params.padding ↔ params.padding ≠ [] := by
  rw [paddingOf] at h
  split at h
  · next hne =>
    cases h
    exact iff_of_true rfl fun hnil => hne (by rw [hnil]; rfl)
  · next hnil =>
    obtain ⟨-, hvalid⟩ := filter_eq_some_iff.1 h
    have hlen := of_decide_eq_true (Bool.and_eq_true_iff.1 hvalid).1
    have hpos : 0 < padding.length := by
      rw [hlen, padSizeLimit]
      omega
    have hempty := eq_nil_of_length_eq_zero (not_not.1 hnil)
    refine iff_of_false (fun heq => ?_) (not_not.2 hempty)
    rw [heq, hempty] at hpos
    exact absurd hpos (Nat.lt_irrefl 0)

theorem validateAndParse_signed {rest sig : Bytes} {key : C.PublicKey}
    (hsigned : isMessageSigned flags = true) (hsig : sig.length = signatureLength)
    (hrest : 1 ≤ rest.length) (hkey : C.sigToPub (C.keccak256 (flags :: rest)) sig = some key) :
    validateAndParse (flags :: (rest ++ sig)) =
      parseBody (flags :: (rest ++ sig)) flags (rest.length + 1) sig (some key) := by
  have hlen : (flags :: (rest ++ sig)).length = rest.length + 1 + signatureLength := by
    rw [length_cons, length_append, hsig, Nat.add_right_comm]
  have htake : (flags :: (rest ++ sig)).take (rest.length + 1) = flags :: rest := by simp
  have hdrop : (flags :: (rest ++ sig)).drop (rest.length + 1) = sig := by simp
  rw [validateAndParse, if_pos hsigned, hlen, if_neg (by omega), Nat.add_sub_cancel]
  simp [htake, hdrop, hkey]

/-- Parsing panics exactly on the bytes that do not fit; and what was built is read back, with the
padding that was given, if there was any. -/
theorem parsing_exact (C : Crypto)
    (hlength : ∀ hash key sig, C.sign hash key = some sig → sig.length = signatureLength)
    (hrecover : ∀ hash key sig, C.sign hash key = some sig →
      C.sigToPub hash sig = some (C.pub key)) :
    (∀ raw, (validateAndParse (C := C) raw).isSome ↔ Fits C raw) ∧
    ∀ crand (params : MessageParams C) raw, params.payload.length < 2 ^ 24 →
      sentMessage crand params = some raw → ∃ msg : ReceivedMessage C,
        validateAndParse raw = some (some msg) ∧ msg.payload = params.payload ∧
        msg.src = params.src.map C.pub ∧ (msg.padding = params.padding ↔ params.padding ≠ []) := by
  refine ⟨isSome_validateAndParse, fun crand params raw hpayload hraw => ?_⟩
  obtain ⟨flags, field, hhead, hheaded⟩ := addPayloadSizeField_headed hpayload
  rw [sentMessage, newSentMessage, hhead] at hraw
  cases hpad : paddingOf crand params with
  | none =>
    rw [hpad] at hraw
    cases hraw
  | some padding =>
    rw [hpad] at hraw
    cases hsrc : params.src with
    | none =>
      rw [hsrc] at hraw
      cases hraw
      refine ⟨⟨params.payload, padding, [], none⟩, ?_, rfl, rfl, paddingOf_eq_iff hpad⟩
      have hbody := parseBody_built (C := C) padding [] hheaded.size hheaded.pos hheaded.value rfl
        [] none
      rw [append_nil] at hbody
      simp only [cons_append, validateAndParse, hheaded.unsigned, Bool.false_eq_true, if_false]
      rw [← hbody]
      congr 1
      simp only [length_cons, length_append]
      omega
    | some key =>
      rw [hsrc] at hraw
      simp only [map_some, sign, cons_append, hheaded.unsigned, Bool.false_eq_true,
        if_false] at hraw
      obtain ⟨sig, hsig, rfl⟩ := map_eq_some_iff.1 hraw
      refine ⟨⟨params.payload, padding, sig, some (C.pub key)⟩, ?_, rfl, rfl, paddingOf_eq_iff hpad⟩
      have hrest : 1 ≤ (field ++ params.payload ++ padding).length := by
        rw [append_assoc, length_append]
        exact Nat.le_add_right_of_le hheaded.pos
      rw [validateAndParse_signed hheaded.signed (hlength _ _ _ hsig) hrest (hrecover _ _ _ hsig)]
      refine parseBody_built padding sig hheaded.signedSize hheaded.pos hheaded.value ?_ sig _
      simp only [length_append]
      omega

namespace Sample

/-- Keys are bytes, and a signature is its key and 64 zeros. -/
def crypto : Crypto where
  PrivateKey := UInt8
  PublicKey := UInt8
  keccak256 := id
  sign _ key := some (key :: List.replicate 64 0)
  sigToPub _ sig := sig.head?
  pub := id

/-- A message that is signed and padded. -/
def note : MessageParams crypto := ⟨some (7 : UInt8), [1, 2, 3], [4, 5]⟩

theorem parsing_exact_crypto : ∃ raw, ∃ msg : ReceivedMessage crypto,
    sentMessage (fun _ => none) note = some raw ∧ Fits crypto raw ∧
    validateAndParse raw = some (some msg) ∧ msg.payload = [1, 2, 3] ∧ msg.src = some (7 : UInt8) ∧
    msg.padding = [4, 5] := by
  obtain ⟨hfits, hread⟩ := parsing_exact crypto (fun _ _ _ h => by cases h; exact rfl)
    fun _ _ _ h => by cases h; rfl
  obtain ⟨raw, hraw⟩ : ∃ raw, sentMessage (fun _ => none) note = some raw :=
    ⟨_, by simp [sentMessage, newSentMessage, paddingOf, sign, note, addPayloadSizeField,
      getSizeOfPayloadSizeField]; rfl⟩
  obtain ⟨msg, hmsg, hpayload, hsrc, hpadding⟩ := hread _ note raw (by decide) hraw
  refine ⟨raw, msg, hraw, (hfits raw).mp ?_, hmsg, hpayload, hsrc, hpadding.mpr ?_⟩
  · rw [hmsg]
    rfl
  · exact cons_ne_nil 4 [5]

/-- The flags announce a size field of three bytes, and the message has none. -/
theorem parse_panics : validateAndParse (C := crypto) [3] = none := rfl

end Sample

end Geth.Whisper
