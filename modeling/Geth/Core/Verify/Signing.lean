import Geth.Core.Signing

/-!
# Senders of signed transactions

With a curve that recovers the key of a signature (`Ecdsa.Correct`), a signer gets the key's address
back from what it signed, and other chains reject it. The exception is the chain id 0: its `V` is
that of an unprotected transaction, so the sender is derived from another hash than the one that was
signed, and no signer tells the transaction from one of the Homestead rules.
-/

namespace Geth.Core

open Lib Rlp Vm List

/-- What the signing code takes from the curve: signatures have their size, with values in the range
that all the rules accept, and the signature of a hash recovers the public key, which is in the
uncompressed form. -/
structure Ecdsa.Correct (E : Ecdsa) : Prop where
  sign : ∀ h prv, ∃ sig, E.sign h prv = some sig ∧ sig.length = 65 ∧
    1 ≤ beNat (sig.take 32) ∧ (beNat (sig.take 32) : Int) < secp256k1N ∧
    1 ≤ beNat ((sig.drop 32).take 32) ∧ (beNat ((sig.drop 32).take 32) : Int) ≤ secp256k1halfN ∧
    (sig.getD 64 0 = 0 ∨ sig.getD 64 0 = 1) ∧ E.ecrecover h sig = some (E.fromECDSAPub prv)
  uncompressed : ∀ prv, (E.fromECDSAPub prv).head? = some 4

variable {E : Ecdsa} {recid c : Nat}

/-! ## The cache of senders -/

/-- A cached sender is the one that its signer derives. -/
def Transaction.Cached (E : Ecdsa) (tx : Transaction) : Prop :=
  ∀ signer addr, tx.sigCache = some (signer, addr) → signer.sender E tx.data = .ok addr

theorem Signer.equal_iff (a b : Signer) : a.equal b = true ↔ a = b := by
  cases a <;> cases b <;> simp [Signer.equal, eq_comm]

theorem sender_of_miss {tx : Transaction} {signer : Signer}
    (hmiss : tx.sigCache.map (fun c => c.1.equal signer) ≠ some true) :
    sender E signer tx = match signer.sender E tx.data with
      | .error err => (.error err, tx)
      | .ok addr => (.ok addr, { tx with sigCache := some (signer, addr) }) := by
  rw [sender]
  cases hc : tx.sigCache with
  | none => rfl
  | some c =>
    rw [hc] at hmiss
    exact if_neg fun heq => hmiss (congrArg some heq)

theorem sender_eq {tx : Transaction} (h : tx.Cached E) (signer : Signer) :
    (sender E signer tx).1 = signer.sender E tx.data ∧ (sender E signer tx).2.data = tx.data ∧
      (sender E signer tx).2.Cached E := by
  have hderive : tx.sigCache.map (fun c => c.1.equal signer) ≠ some true →
      (sender E signer tx).1 = signer.sender E tx.data ∧ (sender E signer tx).2.data = tx.data ∧
        (sender E signer tx).2.Cached E := by
    intro hmiss
    rw [sender_of_miss hmiss]
    cases hs : signer.sender E tx.data with
    | error err => exact ⟨rfl, rfl, h⟩
    | ok addr =>
      refine ⟨rfl, rfl, fun s a hsa => ?_⟩
      cases hsa
      exact hs
  cases hc : tx.sigCache with
  | none => exact hderive (by rw [hc]; simp)
  | some c =>
    obtain ⟨cached, addr⟩ := c
    by_cases heq : cached.equal signer = true
    · obtain rfl := (Signer.equal_iff cached signer).mp heq
      have hhit : sender E cached tx = (.ok addr, tx) := by
        rw [sender, hc]
        exact if_pos heq
      rw [hhit]
      exact ⟨(h cached addr hc).symm, rfl, h⟩
    · exact hderive (by rw [hc]; simpa using heq)

/-- The transaction after questions for its sender. -/
def asked (E : Ecdsa) (tx : Transaction) (signers : List Signer) : Transaction :=
  signers.foldl (fun tx signer => (sender E signer tx).2) tx

theorem asked_cached {tx : Transaction} (h : tx.Cached E) (signers : List Signer) :
    (asked E tx signers).data = tx.data ∧ (asked E tx signers).Cached E := by
  induction signers generalizing tx with
  | nil => exact ⟨rfl, h⟩
  | cons signer signers ih =>
    obtain ⟨-, hdata, hcached⟩ := sender_eq h signer
    obtain ⟨hdata', hcached'⟩ := ih hcached
    exact ⟨hdata'.trans hdata, hcached'⟩

/-! ## The recovery id in `V` -/

theorem deriveChainId_eq (hc : 0 < c) (hrecid : recid < 2) :
    deriveChainId ((35 + recid + 2 * c : Nat) : Int) = c := by
  rw [deriveChainId]
  split
  case isTrue h =>
    rw [bitLen_le_iff, Int.natAbs_natCast] at h
    have hv := uint64_toNat h
    have hne : ¬ (uint64 ((35 + recid + 2 * c : Nat) : Int) = 27 ∨
        uint64 ((35 + recid + 2 * c : Nat) : Int) = 28) := by
      rintro (heq | heq) <;> rw [heq] at hv
      · have h27 : (27 : UInt64).toNat = 27 := rfl
        omega
      · have h28 : (28 : UInt64).toNat = 28 := rfl
        omega
    have h35 : (35 : UInt64).toNat = 35 := rfl
    have hle : (35 : UInt64) ≤ uint64 ((35 + recid + 2 * c : Nat) : Int) := by
      rw [UInt64.le_iff_toNat_le, hv, h35]
      omega
    have h2 : (2 : UInt64).toNat = 2 := rfl
    rw [if_neg hne, UInt64.toNat_div, UInt64.toNat_sub_of_le _ _ hle, hv, h35, h2]
    omega
  case isFalse => omega

theorem isProtectedV_eq (hc : 0 < c) (recid : Nat) :
    isProtectedV ((35 + recid + 2 * c : Nat) : Int) = true := by
  rw [isProtectedV]
  split
  case isTrue h =>
    rw [bitLen_le_iff, Int.natAbs_natCast] at h
    have hv := uint64_toNat (h.trans (by decide : 2 ^ 8 < 2 ^ 64))
    refine decide_eq_true ⟨fun heq => ?_, fun heq => ?_⟩ <;> rw [heq] at hv
    · have h27 : (27 : UInt64).toNat = 27 := rfl
      omega
    · have h28 : (28 : UInt64).toNat = 28 := rfl
      omega
  case isFalse => rfl

theorem isProtectedV_plain (hrecid : recid < 2) :
    isProtectedV ((27 + recid : Nat) : Int) = false := by
  rcases (by omega : recid = 0 ∨ recid = 1) with rfl | rfl <;> decide

/-! ## Recovery -/

theorem rebuilt_signature {sig : Bytes} (hlen : sig.length = 65) :
    (List.replicate (32 - (beBytes (setBytes (sig.take 32)).toNat).length) 0 ++
        beBytes (setBytes (sig.take 32)).toNat) ++
      (List.replicate (32 - (beBytes (setBytes ((sig.drop 32).take 32)).toNat).length) 0 ++
        beBytes (setBytes ((sig.drop 32).take 32)).toNat) ++ [sig.getD 64 0] = sig := by
  have hr := replicate_append_beBytes_beNat (sig.take 32)
  have hs := replicate_append_beBytes_beNat ((sig.drop 32).take 32)
  rw [length_take_of_le (by omega)] at hr
  rw [length_take_of_le (by rw [length_drop]; omega)] at hs
  have hv : (sig.drop 32).drop 32 = [sig.getD 64 0] := by
    rw [drop_drop, drop_eq_getElem_cons (by omega), drop_of_length_le (by omega),
      getD_eq_getElem _ _ (by omega)]
  rw [setBytes, setBytes, Int.toNat_natCast, Int.toNat_natCast, hr, hs, ← hv, append_assoc,
    take_append_drop, take_append_drop]

theorem recoverPlain_sign (hE : E.Correct) (h : Hash) (prv : E.PrivateKey) :
    ∃ sig, E.sign h prv = some sig ∧ sig.length = 65 ∧ (sig.getD 64 0).toNat < 2 ∧
      ∀ homestead, recoverPlain E h (setBytes (sig.take 32)) (setBytes ((sig.drop 32).take 32))
        ((27 + (sig.getD 64 0).toNat : Nat) : Int) homestead = .ok (keyAddress E prv) := by
  obtain ⟨sig, hsig, hlen, hr, hrN, hs, hsN, hv, hrec⟩ := hE.sign h prv
  have hlt : (sig.getD 64 0).toNat < 2 := by
    rcases hv with hv | hv <;> rw [hv] <;> decide
  refine ⟨sig, hsig, hlen, hlt, fun homestead => ?_⟩
  have hbits : ¬ bitLen ((27 + (sig.getD 64 0).toNat : Nat) : Int) > 8 := by
    rw [not_lt, bitLen_le_iff, Int.natAbs_natCast]
    omega
  have hbyte : (uint64 ((27 + (sig.getD 64 0).toNat : Nat) : Int) - 27).toUInt8 = sig.getD 64
    0 := by
    rcases hv with hv | hv <;> rw [hv] <;> decide
  have hvalid : validateSignatureValues (sig.getD 64 0) (setBytes (sig.take 32))
      (setBytes ((sig.drop 32).take 32)) homestead = true := by
    have hhalf : secp256k1halfN < secp256k1N := by decide
    rw [validateSignatureValues, if_neg (by rw [setBytes, setBytes]; omega),
      if_neg (by rw [setBytes]; omega)]
    exact decide_eq_true ⟨hrN, hsN.trans_lt hhalf, hv⟩
  rw [recoverPlain, if_neg hbits]
  dsimp only
  rw [hbyte, hvalid, Bool.not_true, if_neg Bool.false_ne_true, rebuilt_signature hlen, hrec]
  dsimp only
  rw [if_neg (by rw [hE.uncompressed]; simp)]
  rfl

/-! ## Signed transactions -/

/-- The `V` of a signer for a recovery id. -/
def Signer.vOf : Signer → Nat → Nat
  | .eip155 chainId, recid => if chainId = 0 then 27 + recid else 35 + recid + 2 * chainId.toNat
  | _, recid => 27 + recid

theorem Signer.vOf_eip155 {c : Int} (hc : 0 ≤ c) (hne : Signer.eip155 c ≠ .eip155 0) (recid : Nat) :
    ∃ n : Nat, c = n ∧ 0 < n ∧ (Signer.eip155 c).vOf recid = 35 + recid + 2 * n := by
  have hne' : c ≠ 0 := fun h => hne (congrArg _ h)
  refine ⟨c.toNat, (Int.toNat_of_nonneg hc).symm, by omega, ?_⟩
  rw [Signer.vOf, if_neg hne']

theorem signatureValues_eq {signer : Signer} (hsigner : ∀ c, signer = .eip155 c → 0 ≤ c)
    {sig : Bytes}
    (hlen : sig.length = 65) (hrecid : (sig.getD 64 0).toNat < 2) :
    signer.signatureValues sig = .ok (setBytes (sig.take 32), setBytes ((sig.drop 32).take 32),
      (signer.vOf (sig.getD 64 0).toNat : Int)) := by
  have hadd : ∀ k : UInt8, k.toNat + 2 < 256 →
      (sig.getD 64 0 + k).toNat = (sig.getD 64 0).toNat + k.toNat := by
    intro k hk
    rw [UInt8.toNat_add, Nat.mod_eq_of_lt (by omega)]
  have hplain : setBytes [sig.getD 64 0 + 27] = ((27 + (sig.getD 64 0).toNat : Nat) : Int) := by
    have h27 : (27 : UInt8).toNat = 27 := rfl
    rw [setBytes, beNat, foldl_cons, foldl_nil, hadd 27 (by decide), h27]
    omega
  rw [Signer.signatureValues, if_neg (not_not.mpr hlen)]
  cases signer with
  | frontier =>
    dsimp only [Signer.vOf]
    rw [hplain]
  | homestead =>
    dsimp only [Signer.vOf]
    rw [hplain]
  | eip155 c =>
    dsimp only [Signer.vOf]
    by_cases hc : c = 0
    · rw [if_neg (not_not.mpr hc), if_pos hc, hplain]
    · have hnonneg := hsigner c rfl
      have h35 : (35 : UInt8).toNat = 35 := rfl
      rw [if_pos hc, if_neg hc, hadd 35 (by decide), h35]
      congr 3
      omega

theorem signTx_eq (hE : E.Correct) (tx : Transaction) {signer : Signer}
    (hsigner : ∀ c, signer = .eip155 c → 0 ≤ c) (prv : E.PrivateKey) :
    ∃ r s recid, recid < 2 ∧ signTx E tx signer prv =
        .ok ⟨{ tx.data with r := r, s := s, v := (signer.vOf recid : Nat) }, none⟩ ∧
      ∀ homestead, recoverPlain E (signer.hash E tx.data) r s ((27 + recid : Nat) : Int) homestead =
        .ok (keyAddress E prv) := by
  obtain ⟨sig, hsig, hlen, hrecid, hrec⟩ := recoverPlain_sign hE (signer.hash E tx.data) prv
  refine ⟨_, _, _, hrecid, ?_, hrec⟩
  rw [signTx, hsig]
  dsimp only
  rw [Transaction.withSignature, signatureValues_eq hsigner hlen hrecid]

/-- A signed transaction gives its key back to its signer, and one that is signed for a chain id is
refused by the signers of other chains and by the Homestead signer, whatever senders were asked for
before. -/
def SignedFor (E : Ecdsa) (tx : Transaction) (signer : Signer) (prv : E.PrivateKey) : Prop :=
  ∃ signed, signTx E tx signer prv = .ok signed ∧ ∀ earlier : List Signer,
    (sender E signer (asked E signed earlier)).1 = .ok (keyAddress E prv) ∧
    ∀ chainId, signer = .eip155 chainId →
      (∃ err, (sender E .homestead (asked E signed earlier)).1 = .error err) ∧
      ∀ chainId', chainId' ≠ chainId →
        ∃ err, (sender E (.eip155 chainId') (asked E signed earlier)).1 = .error err

theorem sender_asked {tx : Transaction} (hcache : tx.sigCache = none) (earlier : List Signer)
    (signer : Signer) : (sender E signer (asked E tx earlier)).1 = signer.sender E tx.data := by
  have hcached : tx.Cached E := by
    intro s a h
    rw [hcache] at h
    cases h
  obtain ⟨hdata, hcached'⟩ := asked_cached hcached earlier
  rw [(sender_eq hcached' signer).1, hdata]

theorem recoverPlain_protected (hc : 0 < c) (hrecid : recid < 2) (h : Hash) (r s : Int)
    (homestead : Bool) :
    recoverPlain E h r s ((35 + recid + 2 * c : Nat) : Int) homestead = .error .invalidSig := by
  rw [recoverPlain]
  split
  case isTrue => rfl
  case isFalse hbits =>
    rw [not_lt, bitLen_le_iff, Int.natAbs_natCast] at hbits
    have hv := uint64_toNat (hbits.trans (by decide : 2 ^ 8 < 2 ^ 64))
    have h27 : (27 : UInt64).toNat = 27 := rfl
    have hsub : (uint64 ((35 + recid + 2 * c : Nat) : Int) - 27).toUInt8.toNat = 8 + recid + 2 *
      c := by
      rw [UInt64.toNat_toUInt8, UInt64.toNat_sub_of_le _ _ (by rw [UInt64.le_iff_toNat_le]; omega),
        hv,
        h27]
      omega
    have hinvalid : validateSignatureValues
        (uint64 ((35 + recid + 2 * c : Nat) : Int) - 27).toUInt8 r s homestead = false := by
      rw [validateSignatureValues]
      split
      · rfl
      split
      · rfl
      refine decide_eq_false fun hall => ?_
      have h0 : (0 : UInt8).toNat = 0 := rfl
      have h1 : (1 : UInt8).toNat = 1 := rfl
      rcases hall.2.2 with heq | heq <;> rw [heq] at hsub <;> omega
    dsimp only
    rw [hinvalid]
    rfl

/-- Signing and recovery agree for every signer but that of the chain id 0. -/
theorem signedFor_iff (hE : E.Correct) (tx : Transaction) (signer : Signer)
    (hsigner : ∀ c, signer = .eip155 c → 0 ≤ c) (prv : E.PrivateKey) :
    SignedFor E tx signer prv ↔ signer ≠ .eip155 0 := by
  obtain ⟨r, s, recid, hrecid, hsigned, hrec⟩ := signTx_eq hE tx hsigner prv
  constructor
  · rintro ⟨signed, heq, hall⟩ rfl
    rw [hsigned] at heq
    cases heq
    obtain ⟨hsender, hreject⟩ := hall []
    obtain ⟨⟨err, herr⟩, -⟩ := hreject 0 rfl
    -- Both signers take the Homestead path, which cannot accept and refuse.
    rw [sender_asked rfl] at hsender herr
    have hplain : isProtectedV ((27 + recid : Nat) : Int) = false := isProtectedV_plain hrecid
    dsimp only [Signer.sender, Signer.vOf] at hsender herr
    rw [if_pos rfl, hplain] at hsender
    rw [if_pos rfl] at herr
    rw [Bool.not_false, if_pos rfl, herr] at hsender
    cases hsender
  · intro hne
    refine ⟨_, hsigned, fun earlier => ⟨?_, fun c hc => ?_⟩⟩
    · rw [sender_asked rfl]
      cases signer with
      | frontier => exact hrec false
      | homestead => exact hrec true
      | eip155 c =>
        obtain ⟨n, rfl, hn, hv⟩ := Signer.vOf_eip155 (hsigner c rfl) hne recid
        dsimp only [Signer.sender]
        rw [hv, isProtectedV_eq hn, deriveChainId_eq hn hrecid, Bool.not_true,
          if_neg Bool.false_ne_true,
          if_neg (not_not.mpr rfl)]
        have hsub : ((35 + recid + 2 * n : Nat) : Int) - n * 2 - 8 = ((27 + recid : Nat) :
          Int) := by omega
        rw [hsub]
        exact hrec true
    · subst hc
      obtain ⟨n, rfl, hn, hv⟩ := Signer.vOf_eip155 (hsigner c rfl) hne recid
      refine ⟨⟨.invalidSig, ?_⟩, fun c' hc' => ⟨.invalidChainId, ?_⟩⟩
      · rw [sender_asked rfl]
        dsimp only [Signer.sender, Signer.homesteadSender]
        rw [hv, recoverPlain_protected hn hrecid]
      · rw [sender_asked rfl]
        dsimp only [Signer.sender]
        rw [hv, isProtectedV_eq hn, deriveChainId_eq hn hrecid, Bool.not_true,
          if_neg Bool.false_ne_true,
          if_pos hc'.symm]

namespace Sample

/-- The first value of a signature of the sample curve: the end of the hash, and a one. -/
def signatureR (h : Hash) : Bytes := List.replicate 8 0 ++ h.val.drop 9 ++ [1]

/-- A toy curve with one key: a signature carries its hash, and recovers the key for that hash
only. -/
def curve : Ecdsa where
  PrivateKey := Unit
  sign h _ := some (signatureR h ++ (List.replicate 31 0 ++ [1]) ++ [0])
  ecrecover h sig := if sig.take 32 = signatureR h then some [4, 1] else some [4]
  fromECDSAPub _ := [4, 1]
  keccak := bytesToHash

theorem length_signatureR (h : Hash) : (signatureR h).length = 32 := by
  rw [signatureR, length_append, length_append, length_drop, h.property]
  rfl

theorem curve_correct : curve.Correct where
  sign h _ := by
    have hlen := length_signatureR h
    have htake : (signatureR h ++ (List.replicate 31 0 ++ [1]) ++ [0]).take 32 = signatureR h := by
      rw [append_assoc, ← hlen, take_left]
    have hdrop : (signatureR h ++ (List.replicate 31 0 ++ [1]) ++ [0]).drop 32 =
        List.replicate 31 0 ++ [1] ++ [0] := by
      rw [append_assoc, ← hlen, drop_left]
    have hR : beNat (signatureR h) = beNat (h.val.drop 9) * 256 + 1 := by
      rw [signatureR, beNat_append_singleton]
      rfl
    have hlt := beNat_lt (h.val.drop 9)
    rw [length_drop, h.property] at hlt
    refine ⟨_, rfl, by simp [hlen], ?_, ?_, ?_, ?_, .inl ?_, ?_⟩
    · rw [htake, hR]
      omega
    · rw [htake, hR, secp256k1N]
      omega
    · rw [hdrop]
      decide
    · rw [hdrop]
      decide
    · simp [hlen]
    · exact if_pos htake
  uncompressed _ := rfl

def tx : Transaction := ⟨⟨0, 0, 0, none, 0, [], 0, 0, 0⟩, none⟩

/-- Signed for the chain id 0, the sample transaction has another sender than its key, also under
the Homestead rules. -/
theorem chain_zero_loses_sender : curve.Correct ∧
    ∃ signed, signTx curve tx (.eip155 0) () = .ok signed ∧
      (sender curve (.eip155 0) signed).1 ≠ .ok (keyAddress curve ()) ∧
      (sender curve .homestead signed).1 = .ok ⟨List.replicate 20 0, rfl⟩ :=
  ⟨curve_correct, _, rfl, by decide, by decide⟩

/-- Signed for the chain id 1, it has its key's address on that chain only. -/
theorem chain_one_keeps_sender : SignedFor curve tx (.eip155 1) () :=
  (signedFor_iff curve_correct tx (.eip155 1) (by rintro c ⟨⟩; decide) ()).mpr (by decide)

end Sample

end Geth.Core
