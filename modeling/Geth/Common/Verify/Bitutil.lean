import Geth.Common.Bitutil

/-!
# Compression is a bijection onto its image

Both loops are described by a list: the encoder writes the bit set and the non-zero bytes of its
input, the decoder recovers a list from them. Decompression inverts compression
(`decompress_compress`), and the decoder accepts the encoding of its output only
(`encode_of_decode`).
-/

namespace Geth.Bitutil

open Lib List

/-- The non-zero bytes. -/
def nonZeroBytes (data : Bytes) : Bytes := data.filter (· ≠ 0)

/-- The bit set of the non-zero bytes. -/
def nonZeroBitset (data : Bytes) : Bytes :=
  (gather 0 data (List.replicate ((data.length + 7) / 8) 0, [])).1

theorem nonZeroBytes_cons_of_ne {b : UInt8} (h : b ≠ 0) (data : Bytes) :
    nonZeroBytes (b :: data) = b :: nonZeroBytes data :=
  filter_cons_of_pos (by simpa using h)

theorem nonZeroBytes_cons_zero (data : Bytes) : nonZeroBytes (0 :: data) = nonZeroBytes data :=
  filter_cons_of_neg (by simp)

variable {data bitset : Bytes} {i n : Nat}

theorem nonZeroBytes_eq_nil : nonZeroBytes data = [] ↔ data = List.replicate data.length 0 := by
  rw [nonZeroBytes, filter_eq_nil_iff, eq_replicate_iff]
  simp

/-! ## The encoder -/

theorem gather_bytes (i : Nat) (data : Bytes) (acc : Bytes × Bytes) :
    (gather i data acc).2 = acc.2 ++ nonZeroBytes data := by
  induction data generalizing i acc with
  | nil => exact (append_nil _).symm
  | cons b data ih =>
    rw [gather, ih]
    by_cases hb : b = 0
    · rw [if_neg (not_not.mpr hb), hb, nonZeroBytes_cons_zero]
    · rw [if_pos hb, nonZeroBytes_cons_of_ne hb, append_assoc]
      rfl

theorem getD_cons_sub (b : UInt8) (data : Bytes) {j : Nat} (h : i < j) :
    (b :: data).getD (j - i) 0 = data.getD (j - (i + 1)) 0 := by
  obtain ⟨k, rfl⟩ := Nat.exists_eq_add_of_lt h
  have hk : i + k + 1 - i = k + 1 := by omega
  have hk' : i + k + 1 - (i + 1) = k := by omega
  rw [hk, hk']
  rfl

theorem gather_bits (i : Nat) (data : Bytes) (acc : Bytes × Bytes)
    (hfit : i + data.length ≤ 8 * acc.1.length) (j : Nat) :
    bitAt (gather i data acc).1 j =
      (bitAt acc.1 j || (decide (i ≤ j) && decide (data.getD (j - i) 0 ≠ 0))) := by
  induction data generalizing i acc with
  | nil => simp [gather]
  | cons b data ih =>
    obtain ⟨bitset, bytes⟩ := acc
    rw [length_cons] at hfit
    rw [gather]
    have hrest : ∀ acc' : Bytes × Bytes, acc'.1.length = bitset.length →
        bitAt (gather (i + 1) data acc').1 j =
          (bitAt acc'.1 j || (decide (i + 1 ≤ j) && decide (data.getD (j - (i + 1)) 0 ≠ 0))) :=
      fun acc' hlen => ih (i + 1) acc' (by rw [hlen]; dsimp only at hfit; omega)
    rcases Nat.lt_trichotomy i j with hlt | rfl | hgt
    · rw [getD_cons_sub b data hlt]
      by_cases hb : b = 0
      · rw [if_neg (not_not.mpr hb), hrest _ rfl, decide_eq_true (Nat.succ_le_of_lt hlt),
          decide_eq_true hlt.le]
      · rw [if_pos hb, hrest _ (length_setBit ..), bitAt_setBit (by dsimp only at hfit; omega),
          decide_eq_false hlt.ne, Bool.or_false, decide_eq_true (Nat.succ_le_of_lt hlt),
          decide_eq_true hlt.le]
    · have hhead : (b :: data).getD (i - i) 0 = b := by
        rw [Nat.sub_self]
        rfl
      by_cases hb : b = 0
      · rw [if_neg (not_not.mpr hb), hrest _ rfl, decide_eq_false (Nat.not_succ_le_self i), hb]
        simp
      · rw [if_pos hb, hrest _ (length_setBit ..), bitAt_setBit (by dsimp only at hfit; omega),
          decide_eq_false (Nat.not_succ_le_self i)]
        simp [hb]
    · rw [decide_eq_false (not_le.mpr hgt), Bool.false_and, Bool.or_false]
      by_cases hb : b = 0
      · rw [if_neg (not_not.mpr hb), hrest _ rfl, decide_eq_false (by omega), Bool.false_and,
          Bool.or_false]
      · rw [if_pos hb, hrest _ (length_setBit ..), bitAt_setBit (by dsimp only at hfit; omega),
          decide_eq_false hgt.ne', decide_eq_false (by omega), Bool.false_and, Bool.or_false,
          Bool.or_false]

theorem length_nonZeroBitset (data : Bytes) :
    (nonZeroBitset data).length = (data.length + 7) / 8 := by
  rw [nonZeroBitset, length_gather, length_replicate]

theorem bitAt_nonZeroBitset (data : Bytes) (j : Nat) :
    bitAt (nonZeroBitset data) j = decide (data.getD j 0 ≠ 0) := by
  rw [nonZeroBitset, gather_bits, bitAt_replicate_zero, Bool.false_or,
    decide_eq_true (Nat.zero_le j), Bool.true_and, Nat.sub_zero]
  rw [length_replicate]
  omega

theorem eq_nonZeroBitset (hlen : bitset.length = (data.length + 7) / 8)
    (h : ∀ j < 8 * bitset.length, bitAt bitset j = decide (data.getD j 0 ≠ 0)) :
    bitset = nonZeroBitset data := by
  refine bits_ext (hlen.trans (length_nonZeroBitset data).symm) fun j hj => ?_
  rw [h j hj, bitAt_nonZeroBitset]

theorem bitsetEncodeBytes_eq (h : 2 ≤ data.length) : bitsetEncodeBytes data =
    if nonZeroBytes data = [] then [] else
      bitsetEncodeBytes (nonZeroBitset data) ++ nonZeroBytes data := by
  have hbytes := gather_bytes 0 data (List.replicate ((data.length + 7) / 8) 0, [])
  rw [bitsetEncodeBytes, if_neg (by omega), if_neg (by omega)]
  simp [hbytes, nonZeroBitset]

theorem bitsetEncodeBytes_of_zero (h : nonZeroBytes data = []) : bitsetEncodeBytes data = [] := by
  match data with
  | [] => simp [bitsetEncodeBytes]
  | [b] =>
    have hb : b = 0 := by
      by_contra hb
      rw [nonZeroBytes_cons_of_ne hb] at h
      cases h
    simp [bitsetEncodeBytes, hb]
  | b :: c :: data => rw [bitsetEncodeBytes_eq (by simp), if_pos h]

/-! ## The decoder -/

theorem set_append_replicate (pre : Bytes) (m : Nat) (b : UInt8) :
    (pre ++ List.replicate (m + 1) 0).set pre.length b = (pre ++ [b]) ++ List.replicate m 0 := by
  rw [replicate_succ, set_append_right pre.length b (Nat.le_refl _), Nat.sub_self,
    set_cons_zero, append_assoc]
  rfl

theorem append_replicate_succ (pre : Bytes) (m : Nat) :
    pre ++ List.replicate (m + 1) 0 = (pre ++ [0]) ++ List.replicate m 0 := by
  rw [replicate_succ, append_assoc]
  rfl

theorem bits_cons {suf : Bytes} {b : UInt8} (hhead : bitAt bitset i = decide (b ≠ 0))
    (htail : ∀ j < n, bitAt bitset (i + 1 + j) = decide (suf.getD j 0 ≠ 0)) :
    ∀ j < n + 1, bitAt bitset (i + j) = decide ((b :: suf).getD j 0 ≠ 0) := by
  intro j hj
  cases j with
  | zero => exact hhead
  | succ j =>
    have hcons : (b :: suf).getD (j + 1) 0 = suf.getD j 0 := rfl
    rw [hcons, ← htail j (by omega)]
    congr 1
    omega

theorem distribute_ok {m ptr : Nat} {pre d : Bytes} {p : Nat}
    (hpre : pre.length = i ∨ pre.length ≤ i ∧ m = 0) (hm : m ≤ n)
    (h : distribute bitset data n i (pre ++ List.replicate m 0) ptr = .ok (d, p)) :
    ∃ suf : Bytes, d = pre ++ suf ∧ suf.length = m ∧ p = ptr + (nonZeroBytes suf).length ∧
      data.drop ptr = nonZeroBytes suf ++ data.drop p ∧ (ptr ≤ data.length → p ≤ data.length) ∧
      ∀ j < n, bitAt bitset (i + j) = decide (suf.getD j 0 ≠ 0) := by
  induction n generalizing i m ptr pre with
  | zero =>
    obtain rfl : m = 0 := Nat.le_zero.mp hm
    rw [distribute, replicate_zero, append_nil] at h
    cases h
    exact ⟨[], (append_nil _).symm, rfl, rfl, rfl, id, fun j hj =>
      absurd hj (Nat.not_lt_zero j)⟩
  | succ n ih =>
    rw [distribute] at h
    split at h
    case isTrue hbit =>
      split at h
      · cases h
      rename_i b hb
      split at h
      · cases h
      rename_i hi
      split at h
      · cases h
      rename_i hb0
      rw [length_append, length_replicate, not_le] at hi
      obtain ⟨m, rfl⟩ : ∃ k, m = k + 1 := Nat.exists_eq_succ_of_ne_zero (by omega)
      obtain rfl : pre.length = i := by omega
      rw [set_append_replicate] at h
      obtain ⟨suf, hd, hlen, hp, hdata, hle, hbits⟩ := ih (.inl (by simp)) (by omega) h
      obtain ⟨hptr, hget⟩ := List.getElem?_eq_some_iff.mp hb
      refine ⟨b :: suf, by rw [hd, append_assoc]; rfl, by rw [length_cons, hlen], ?_, ?_,
        fun _ => hle (by omega), bits_cons (by rw [hbit, decide_eq_true hb0]) hbits⟩
      · rw [nonZeroBytes_cons_of_ne hb0, length_cons, hp]
        omega
      · rw [nonZeroBytes_cons_of_ne hb0, drop_eq_getElem_cons hptr, hget, hdata, cons_append]
    case isFalse hbit =>
      rcases m with _ | m
      · obtain ⟨suf, hd, hlen, hp, hdata, hle, hbits⟩ := ih (.inr ⟨by omega, rfl⟩) (by omega) h
        obtain rfl := length_eq_zero_iff.mp hlen
        refine ⟨[], hd, rfl, hp, hdata, hle, fun j hj => ?_⟩
        rw [bits_cons (b := 0) (by simpa using hbit) hbits j hj]
        cases j <;> rfl
      · obtain rfl : pre.length = i := by omega
        rw [append_replicate_succ] at h
        obtain ⟨suf, hd, hlen, hp, hdata, hle, hbits⟩ := ih (.inl (by simp)) (by omega) h
        refine ⟨0 :: suf, by rw [hd, append_assoc]; rfl, by rw [length_cons, hlen], ?_, ?_,
          hle, bits_cons (by simpa using hbit) hbits⟩
        · rw [nonZeroBytes_cons_zero, hp]
        · rw [nonZeroBytes_cons_zero, hdata]

theorem distribute_eq {ptr : Nat} {pre suf rest : Bytes}
    (hpre : pre.length = i ∨ pre.length ≤ i ∧ suf = []) (hm : suf.length ≤ n)
    (hdata : data.drop ptr = nonZeroBytes suf ++ rest)
    (hbits : ∀ j < n, bitAt bitset (i + j) = decide (suf.getD j 0 ≠ 0)) :
    distribute bitset data n i (pre ++ List.replicate suf.length 0) ptr =
      .ok (pre ++ suf, ptr + (nonZeroBytes suf).length) := by
  induction n generalizing i ptr pre suf with
  | zero =>
    obtain rfl := length_eq_zero_iff.mp (Nat.le_zero.mp hm)
    rfl
  | succ n ih =>
    have hhead : bitAt bitset i = decide (suf.getD 0 0 ≠ 0) := hbits 0 (Nat.succ_pos n)
    have htail : ∀ j < n, bitAt bitset (i + 1 + j) = decide (suf.getD (j + 1) 0 ≠ 0) := by
      intro j hj
      rw [← hbits (j + 1) (by omega)]
      congr 1
      omega
    rw [distribute, hhead]
    rcases suf with _ | ⟨b, suf⟩
    · exact ih (.inr ⟨by omega, rfl⟩) (Nat.zero_le n) hdata htail
    · obtain rfl : pre.length = i := hpre.resolve_right (fun h =>
        absurd h.2 (cons_ne_nil b suf))
      have hlen : suf.length ≤ n := by simpa using hm
      by_cases hb : b = 0
      · subst hb
        rw [if_neg (by simp), length_cons, append_replicate_succ,
          ih (.inl (by simp)) hlen hdata htail, append_assoc]
        rfl
      · rw [nonZeroBytes_cons_of_ne hb, cons_append] at hdata
        have hget : data[ptr]? = some b := by
          rw [← Nat.add_zero ptr, ← List.getElem?_drop, hdata]
          rfl
        have hdrop : data.drop (ptr + 1) = nonZeroBytes suf ++ rest := by
          rw [← drop_drop, hdata]
          rfl
        have hin : ¬ pre.length ≥ (pre ++ List.replicate (suf.length + 1) (0 : UInt8)).length := by
          rw [length_append, length_replicate]
          omega
        rw [if_pos (by simpa using hb), hget, length_cons]
        dsimp only
        rw [if_neg hin, if_neg hb, set_append_replicate, ih (.inl (by simp)) hlen hdrop htail,
          append_assoc, nonZeroBytes_cons_of_ne hb, length_cons, Nat.add_assoc,
          Nat.add_comm 1]
        rfl

/-! ## The two directions -/

theorem bitsetDecodePartialBytes_eq (hdata : data ≠ []) (hn : 2 ≤ n) :
    bitsetDecodePartialBytes data n =
      match bitsetDecodePartialBytes data ((n + 7) / 8 : Nat) with
      | .error err => .error err
      | .ok (nonZeroBitset, ptr) =>
        distribute nonZeroBitset data (8 * nonZeroBitset.length) 0 (List.replicate n 0) ptr := by
  obtain ⟨b, data, rfl⟩ := exists_cons_of_ne_nil hdata
  have hcast : ((n : Int) + 7) / 8 = ((n + 7) / 8 : Nat) := by omega
  have hone : ¬ (n : Int) = 1 := by omega
  rw [bitsetDecodePartialBytes, if_neg (by omega), if_neg (by omega)]
  dsimp only
  rw [if_neg hone, hcast]
  rfl

theorem bitsetDecodePartialBytes_nil (n : Nat) :
    bitsetDecodePartialBytes [] n = .ok (List.replicate n 0, 0) := by
  rw [bitsetDecodePartialBytes]
  split
  case isTrue h =>
    obtain rfl : n = 0 := by omega
    rfl
  case isFalse h =>
    rfl

theorem nonZeroBytes_nonZeroBitset :
    nonZeroBytes (nonZeroBitset data) = [] ↔ nonZeroBytes data = [] := by
  constructor
  · intro hzero
    refine nonZeroBytes_eq_nil.mpr (eq_replicate_iff.mpr ⟨rfl, fun b hb => ?_⟩)
    obtain ⟨j, hj, rfl⟩ := getElem_of_mem hb
    have hbit := bitAt_nonZeroBitset data j
    rw [nonZeroBytes_eq_nil.mp hzero, bitAt_replicate_zero, getD_eq_getElem _ _ hj] at hbit
    simpa using hbit.symm
  · intro hzero
    have hbits : nonZeroBitset data = List.replicate (nonZeroBitset data).length 0 := by
      refine bits_ext length_replicate.symm fun j _ => ?_
      rw [bitAt_nonZeroBitset, bitAt_replicate_zero, nonZeroBytes_eq_nil.mp hzero]
      simp
    exact nonZeroBytes_eq_nil.mpr hbits

theorem decode_encode (h : nonZeroBytes data ≠ []) (rest : Bytes) :
    bitsetDecodePartialBytes (bitsetEncodeBytes data ++ rest) data.length =
      .ok (data, (bitsetEncodeBytes data).length) := by
  induction hn : data.length using Nat.strong_induction_on generalizing data rest with
  | _ n ih =>
    match data, h, hn with
    | [], h, _ => exact absurd rfl h
    | [b], h, hn =>
      subst hn
      have hb : b ≠ 0 := by
        rintro rfl
        exact h rfl
      have henc : bitsetEncodeBytes [b] = [b] := by simp [bitsetEncodeBytes, hb]
      rw [henc, bitsetDecodePartialBytes]
      simp [hb]
    | b :: c :: tail, h, hn =>
      generalize hdata : b :: c :: tail = data at h hn
      have h2 : 2 ≤ n := by rw [← hn, ← hdata]; simp
      rw [bitsetEncodeBytes_eq (by omega), if_neg h, append_assoc]
      have hset := ih ((n + 7) / 8) (by omega) (nonZeroBytes_nonZeroBitset.not.mpr h)
        (nonZeroBytes data ++ rest) (by rw [length_nonZeroBitset, hn])
      rw [bitsetDecodePartialBytes_eq (by simp [h]) h2, hset]
      have hlen : data.length ≤ 8 * (nonZeroBitset data).length := by
        rw [length_nonZeroBitset]
        omega
      have hdrop : (bitsetEncodeBytes (nonZeroBitset data) ++ (nonZeroBytes data ++ rest)).drop
          (bitsetEncodeBytes (nonZeroBitset data)).length = nonZeroBytes data ++ rest :=
        drop_left
      have hbits : ∀ j < 8 * (nonZeroBitset data).length,
          bitAt (nonZeroBitset data) (0 + j) = decide (data.getD j 0 ≠ 0) :=
        fun j _ => (congrArg _ (Nat.zero_add j)).trans (bitAt_nonZeroBitset data j)
      have hpre : ([] : Bytes).length = 0 ∨ ([] : Bytes).length ≤ 0 ∧ data = [] := .inl rfl
      have hloop := distribute_eq hpre hlen hdrop hbits
      rw [nil_append, hn] at hloop
      dsimp only
      rw [hloop, length_append]
      rfl

theorem decode_ok {out : Bytes} {p : Nat} (h : bitsetDecodePartialBytes data n = .ok (out, p)) :
    out.length = n ∧ p ≤ data.length ∧ data.take p = bitsetEncodeBytes out := by
  induction n using Nat.strong_induction_on generalizing out p with
  | _ n ih =>
    rcases data with _ | ⟨b, data⟩
    · rw [bitsetDecodePartialBytes_nil] at h
      cases h
      exact ⟨length_replicate, Nat.le_refl 0, (bitsetEncodeBytes_of_zero
        (nonZeroBytes_eq_nil.mpr (by rw [length_replicate]))).symm⟩
    · match n, ih, h with
      | 0, _, h =>
        rw [bitsetDecodePartialBytes, if_pos Int.natCast_zero] at h
        cases h
        exact ⟨rfl, Nat.zero_le _, (bitsetEncodeBytes_of_zero rfl).symm⟩
      | 1, _, h =>
        rw [bitsetDecodePartialBytes, if_neg (by simp), if_neg (by simp)] at h
        cases h
        by_cases hb : b = 0 <;> simp [hb, bitsetEncodeBytes]
      | n + 2, ih, h =>
        rw [bitsetDecodePartialBytes_eq (cons_ne_nil b data) (by omega)] at h
        cases hset : bitsetDecodePartialBytes (b :: data) ((n + 2 + 7) / 8 : Nat) with
        | error err =>
          rw [hset] at h
          cases h
        | ok r =>
          obtain ⟨bitset, ptr⟩ := r
          obtain ⟨hlen, hptr, htake⟩ := ih _ (by omega) hset
          rw [hset] at h
          have hpre : ([] : Bytes).length = 0 ∨ ([] : Bytes).length ≤ 0 ∧ n + 2 = 0 := .inl rfl
          obtain ⟨_, rfl, hout, hp, hdata, hle, hbits⟩ := distribute_ok hpre (by omega) h
          obtain rfl : bitset = nonZeroBitset out :=
            eq_nonZeroBitset (by rw [hlen, hout]) fun j hj => by rw [← hbits j hj, Nat.zero_add]
          refine ⟨hout, hle hptr, ?_⟩
          calc (b :: data).take p = (b :: data).take ptr ++ nonZeroBytes out := by
                rw [hp, take_add, hdata, take_left]
            _ = bitsetEncodeBytes (nonZeroBitset out) ++ nonZeroBytes out := by rw [htake]
            _ = bitsetEncodeBytes out := by
                have henc :=
                  bitsetEncodeBytes_eq (show 2 ≤ out.length from hout ▸ Nat.le_add_left 2 n)
                rw [henc]
                split
                case isTrue hzero =>
                  rw [bitsetEncodeBytes_of_zero (nonZeroBytes_nonZeroBitset.mpr hzero), hzero]
                  rfl
                case isFalse => rfl

theorem encode_of_decode {out : Bytes} {target : Int}
    (h : bitsetDecodeBytes data target = .ok out) : bitsetEncodeBytes out = data := by
  rw [bitsetDecodeBytes] at h
  obtain ⟨n, rfl⟩ : ∃ n : Nat, target = n := by
    refine Int.eq_ofNat_of_zero_le (not_lt.mp fun hneg => ?_)
    rw [bitsetDecodePartialBytes, if_neg (by omega), if_pos hneg] at h
    cases h
  cases hpart : bitsetDecodePartialBytes data n with
  | error err =>
    rw [hpart] at h
    cases h
  | ok r =>
    obtain ⟨-, -, htake⟩ := decode_ok hpart
    rw [hpart] at h
    dsimp only at h
    split at h
    · cases h
    case isFalse hp =>
      cases h
      rw [← htake, not_not.mp hp, take_length]

theorem bitsetDecodeBytes_encode (data : Bytes) :
    bitsetDecodeBytes (bitsetEncodeBytes data) data.length = .ok data := by
  rw [bitsetDecodeBytes]
  by_cases h : nonZeroBytes data = []
  · rw [bitsetEncodeBytes_of_zero h, bitsetDecodePartialBytes_nil, ← nonZeroBytes_eq_nil.mp h]
    rfl
  · have hdec := decode_encode h []
    rw [append_nil] at hdec
    rw [hdec]
    exact if_neg (not_not.mpr rfl)

theorem decompress_compress (data : Bytes) :
    decompressBytes (compressBytes data) data.length = .ok data := by
  rw [compressBytes, decompressBytes]
  split
  case isTrue h => rw [if_neg (by omega), if_neg (by omega), bitsetDecodeBytes_encode]
  case isFalse h => rw [if_neg (by omega), if_pos rfl]

/-- Compression is a bijection onto its image: it is inverted by decompression, and what the decoder
accepts is the encoding of what it returns, so no two inputs decode to one output. -/
theorem compression_bijective :
    (∀ data : Bytes, decompressBytes (compressBytes data) data.length = .ok data) ∧
    (∀ (data out : Bytes) (target : Int), bitsetDecodeBytes data target = .ok out →
      bitsetEncodeBytes out = data) ∧
    ∀ (data data' out : Bytes) (target target' : Int), bitsetDecodeBytes data target = .ok out →
      bitsetDecodeBytes data' target' = .ok out → data = data' :=
  ⟨decompress_compress, fun _ _ _ => encode_of_decode,
    fun _ _ _ _ _ h h' => (encode_of_decode h).symm.trans (encode_of_decode h')⟩

theorem sparse_accepted_once : bitsetDecodeBytes [0x04, 0xff] 8 = .ok [0, 0, 0, 0, 0, 0xff, 0, 0] ∧
      bitsetEncodeBytes [0, 0, 0, 0, 0, 0xff, 0, 0] = [0x04, 0xff] := by
  have hdec : bitsetDecodeBytes [0x04, 0xff] 8 = .ok [0, 0, 0, 0, 0, 0xff, 0, 0] := by
    decide +kernel
  exact ⟨hdec, compression_bijective.2.1 _ _ _ hdec⟩

end Geth.Bitutil
