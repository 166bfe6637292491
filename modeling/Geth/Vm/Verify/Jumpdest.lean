import Geth.Vm.Analysis

/-!
# Jump destinations are decoded instructions

The bit vector of a code marks the bytes that a linear decoding passes over as arguments of a
`PUSH`. Each way to set bits has one rule that says which positions it marks and that it stays in
its range; the loop is then followed along the decoding.
-/

namespace Geth.Vm

open Function List

/-! ## The linear decoding -/

/-- The positions at which the decoding from a position on finds an opcode. -/
inductive Decodes (code : Bytes) : Nat → Nat → Prop
  | here (pc : Nat) : Decodes code pc pc
  | next {pc q : Nat} {op : UInt8} (hop : code[pc]? = some op)
      (hq : Decodes code (pc + 1 + (pushSize op).getD 0) q) : Decodes code pc q

/-- A jump destination: a `JUMPDEST` that the decoding of the whole code finds. -/
def JumpDest (code : Bytes) (n : Nat) : Prop := code[n]? = some 0x5b ∧ Decodes code 0 n

theorem Decodes.le {code : Bytes} {pc q : Nat} (h : Decodes code pc q) : pc ≤ q := by
  induction h with
  | here => exact Nat.le_refl _
  | next _ _ ih => omega

theorem decodes_iff {code : Bytes} {pc q : Nat} {op : UInt8} (hop : code[pc]? = some op)
    (hq : pc < q) : Decodes code pc q ↔ Decodes code (pc + 1 + (pushSize op).getD 0) q := by
  constructor
  · intro h
    cases h with
    | here => exact absurd hq (Nat.lt_irrefl _)
    | next hop' hrest =>
      rw [hop] at hop'
      cases hop'
      exact hrest
  · exact .next hop

/-! ## Marks -/

namespace Bitvec

/-- The position is marked as data. -/
def Marked (bits : Bitvec) (q : Nat) : Prop :=
  ∃ b, bits[q / 8]? = some b ∧ b &&& (0x80 >>> UInt8.ofNat (q % 8)) ≠ 0

variable {bits : Bitvec} {i j : Nat}

theorem codeSegment_eq {q : Nat} (h : q / 8 < bits.length) :
    ∃ segment, bits.codeSegment q = some segment ∧ (segment = true ↔ ¬ bits.Marked q) := by
  rw [codeSegment, Marked, List.getElem?_eq_getElem h]
  refine ⟨_, rfl, ?_⟩
  rw [beq_iff_eq]
  constructor
  · rintro hz ⟨b, hb, hne⟩
    cases hb
    exact hne hz
  · intro hnot
    by_contra hne
    exact hnot ⟨_, rfl, hne⟩

theorem not_marked_replicate (n q : Nat) : ¬ Marked (List.replicate n 0) q := by
  rintro ⟨b, hb, hne⟩
  rw [List.getElem?_replicate] at hb
  split at hb
  · cases hb
    exact hne (by simp)
  · cases hb

theorem or_and_right (a b c : UInt8) : (a ||| b) &&& c = a &&& c ||| b &&& c := by
  rw [← UInt8.toBitVec_inj]
  ext i hi
  simp [Bool.and_or_distrib_right]

theorem modify_or (h : i < bits.length) (mask : UInt8) :
    ∃ bits', bits.modify i (· ||| mask) = some bits' ∧ bits'.length = bits.length ∧
      ∀ q, bits'.Marked q ↔ bits.Marked q ∨
        q / 8 = i ∧ mask &&& (0x80 >>> UInt8.ofNat (q % 8)) ≠ 0 := by
  rw [modify, List.getElem?_eq_getElem h]
  refine ⟨_, rfl, length_set, fun q => ?_⟩
  by_cases hq : q / 8 = i
  · have hget : (List.set bits i (bits[i] ||| mask))[q / 8]? = some (bits[i] ||| mask) := by
      rw [hq]
      exact List.getElem?_set_self h
    have hold : bits[q / 8]? = some bits[i] := by rw [hq, List.getElem?_eq_getElem h]
    rw [Marked, Marked, hget, hold]
    simp only [Option.some.injEq, exists_eq_left', hq, true_and]
    rw [or_and_right, Ne, UInt8.or_eq_zero_iff]
    tauto
  · have hget : (List.set bits i (bits[i] ||| mask))[q / 8]? = bits[q / 8]? :=
      List.getElem?_set_ne (Ne.symm hq)
    rw [Marked, Marked, hget]
    simp [hq]

/-! The masks of `set` and `set8`, position by position. -/

theorem bit_mask (hi : i < 8) (hj : j < 8) :
    (0x80 >>> UInt8.ofNat i : UInt8) &&& (0x80 >>> UInt8.ofNat j) ≠ 0 ↔ i = j := by
  have h : ∀ i j : Fin 8,
      (0x80 >>> UInt8.ofNat i : UInt8) &&& (0x80 >>> UInt8.ofNat j) ≠ 0 ↔ i.val = j.val := by
    decide
  exact h ⟨i, hi⟩ ⟨j, hj⟩

theorem low_mask (hi : i < 8) (hj : j < 8) :
    (0xff >>> UInt8.ofNat i : UInt8) &&& (0x80 >>> UInt8.ofNat j) ≠ 0 ↔ i ≤ j := by
  have h : ∀ i j : Fin 8,
      (0xff >>> UInt8.ofNat i : UInt8) &&& (0x80 >>> UInt8.ofNat j) ≠ 0 ↔ i.val ≤ j.val := by
    decide
  exact h ⟨i, hi⟩ ⟨j, hj⟩

theorem high_mask (hi : i < 8) (hj : j < 8) :
    ~~~(0xff >>> UInt8.ofNat i : UInt8) &&& (0x80 >>> UInt8.ofNat j) ≠ 0 ↔ j < i := by
  have h : ∀ i j : Fin 8,
      ~~~(0xff >>> UInt8.ofNat i : UInt8) &&& (0x80 >>> UInt8.ofNat j) ≠ 0 ↔ j.val < i.val := by
    decide
  exact h ⟨i, hi⟩ ⟨j, hj⟩

/-- What setting bits does: the vector keeps its length, and the positions of a range are marked. -/
def Marks (bits bits' : Bitvec) (start stop : Nat) : Prop :=
  bits'.length = bits.length ∧ ∀ q, bits'.Marked q ↔ bits.Marked q ∨ start ≤ q ∧ q < stop

theorem Marks.refl (bits : Bitvec) (pos : Nat) : Marks bits bits pos pos :=
  ⟨rfl, fun q => by rw [or_iff_left (by omega)]⟩

theorem Marks.trans {bits1 bits2 : Bitvec} {a b c : Nat} (hab : a ≤ b) (hbc : b ≤ c)
    (h : Marks bits bits1 a b) (h' : Marks bits1 bits2 b c) : Marks bits bits2 a c := by
  refine ⟨h'.1.trans h.1, fun q => ?_⟩
  rw [h'.2, h.2, or_assoc]
  refine or_congr Iff.rfl ?_
  omega

theorem set_marks {pos : Nat} (h : pos / 8 < bits.length) :
    ∃ bits', bits.set pos = some bits' ∧ Marks bits bits' pos (pos + 1) := by
  obtain ⟨bits', heq, hlen, hmark⟩ := modify_or h (0x80 >>> UInt8.ofNat (pos % 8))
  refine ⟨bits', heq, hlen, fun q => ?_⟩
  rw [hmark, bit_mask (Nat.mod_lt _ (by decide)) (Nat.mod_lt _ (by decide))]
  refine or_congr Iff.rfl ?_
  omega

theorem set8_marks {pos : Nat} (h : pos / 8 + 1 < bits.length) :
    ∃ bits', bits.set8 pos = some bits' ∧ Marks bits bits' pos (pos + 8) := by
  obtain ⟨bits1, heq1, hlen1, hmark1⟩ :=
    modify_or (Nat.lt_of_succ_lt h) (0xff >>> UInt8.ofNat (pos % 8))
  obtain ⟨bits2, heq2, hlen2, hmark2⟩ :=
    modify_or (show pos / 8 + 1 < bits1.length by omega) (~~~(0xff >>> UInt8.ofNat (pos % 8)))
  refine ⟨bits2, ?_, hlen2.trans hlen1, fun q => ?_⟩
  · rw [set8, heq1]
    exact heq2
  · rw [hmark2, hmark1, low_mask (Nat.mod_lt _ (by decide)) (Nat.mod_lt _ (by decide)),
      high_mask (Nat.mod_lt _ (by decide)) (Nat.mod_lt _ (by decide)), or_assoc]
    refine or_congr Iff.rfl ?_
    omega

theorem sets_marks (n : Nat) (bits : Bitvec) (pc : Nat) (h : ∀ i < n, (pc + i) / 8 < bits.length) :
    ∃ bits', bits.sets n pc = some bits' ∧ Marks bits bits' pc (pc + n) := by
  induction n generalizing bits pc with
  | zero => exact ⟨bits, rfl, Marks.refl bits pc⟩
  | succ n ih =>
    obtain ⟨bits1, heq1, hmark1⟩ := set_marks (show pc / 8 < bits.length from h 0 (Nat.succ_pos n))
    obtain ⟨bits2, heq2, hmark2⟩ := ih bits1 (pc + 1) fun i hi => by
      rw [hmark1.1, Nat.add_assoc, Nat.add_comm 1 i]
      exact h (i + 1) (Nat.succ_lt_succ hi)
    refine ⟨bits2, ?_, ?_⟩
    · rw [sets, heq1]
      exact heq2
    · have := hmark1.trans (by omega) (by omega) hmark2
      rwa [Nat.add_assoc, Nat.add_comm 1 n] at this

theorem set8s_marks (n : Nat) (bits : Bitvec) (pc : Nat)
    (h : ∀ i < n, (pc + 8 * i) / 8 + 1 < bits.length) :
    ∃ bits', bits.set8s n pc = some bits' ∧ Marks bits bits' pc (pc + 8 * n) := by
  induction n generalizing bits pc with
  | zero => exact ⟨bits, rfl, Marks.refl bits pc⟩
  | succ n ih =>
    obtain ⟨bits1, heq1, hmark1⟩ := set8_marks
      (show pc / 8 + 1 < bits.length from h 0 (Nat.succ_pos n))
    obtain ⟨bits2, heq2, hmark2⟩ := ih bits1 (pc + 8) fun i hi => by
      rw [hmark1.1]
      have := h (i + 1) (Nat.succ_lt_succ hi)
      rwa [show pc + 8 * (i + 1) = pc + 8 + 8 * i by omega] at this
    refine ⟨bits2, ?_, ?_⟩
    · rw [set8s, heq1]
      exact heq2
    · have := hmark1.trans (by omega) (by omega) hmark2
      rwa [show pc + 8 + 8 * n = pc + 8 * (n + 1) by omega] at this

end Bitvec

/-! ## The loop -/

open Bitvec

theorem pushSize_le {op : UInt8} {numbits : Nat} (h : pushSize op = some numbits) :
    numbits ≤ 32 := by
  rw [pushSize] at h
  split at h
  · next hop =>
    cases h
    have := UInt8.le_iff_toNat_le.1 hop.2
    change op.toNat ≤ 127 at this
    omega
  · cases h

theorem push_marks {code : Bytes} {bits : Bitvec} (hlen : bits.length = code.length / 8 + 1 + 4)
    {pc numbits : Nat} (hpc : pc < code.length) (hn : numbits ≤ 32) :
    ∃ bits1 bits2, bits.set8s (numbits / 8) (pc + 1) = some bits1 ∧
      bits1.sets (numbits % 8) (pc + 1 + numbits / 8 * 8) = some bits2 ∧
      Marks bits bits2 (pc + 1) (pc + 1 + numbits) := by
  obtain ⟨bits1, heq1, hmark1⟩ := set8s_marks (numbits / 8) bits (pc + 1) fun i hi => by
    omega
  obtain ⟨bits2, heq2, hmark2⟩ := sets_marks (numbits % 8) bits1
    (pc + 1 + numbits / 8 * 8) fun i hi => by
      rw [hmark1.1]
      omega
  refine ⟨bits1, bits2, heq1, heq2, ?_⟩
  rw [Nat.mul_comm 8] at hmark1
  have := hmark1.trans (by omega) (by omega) hmark2
  rwa [show pc + 1 + numbits / 8 * 8 + numbits % 8 = pc + 1 + numbits by omega] at this

theorem codeBitmapLoop_eq (code : Bytes) (n pc : Nat) (bits : Bitvec)
    (hlen : bits.length = code.length / 8 + 1 + 4) (hn : code.length ≤ pc + n) :
    ∃ bits', codeBitmapLoop code n pc bits = some bits' ∧ bits'.length = bits.length ∧
      ∀ q < code.length, bits'.Marked q ↔ bits.Marked q ∨ pc < q ∧ ¬ Decodes code pc q := by
  induction n generalizing pc bits with
  | zero =>
    refine ⟨bits, rfl, rfl, fun q hq => ?_⟩
    rw [or_iff_left (by omega)]
  | succ n ih =>
    rw [codeBitmapLoop]
    by_cases hpc : pc < code.length
    · rw [List.getElem?_eq_getElem hpc]
      have hop : code[pc]? = some code[pc] := List.getElem?_eq_getElem hpc
      cases hpush : pushSize code[pc] with
      | none =>
        dsimp only
        rw [hpush]
        obtain ⟨bits', heq, hlen', hmark⟩ := ih (pc + 1) bits hlen (by omega)
        refine ⟨bits', heq, hlen', fun q hq => ?_⟩
        rw [hmark q hq]
        refine or_congr Iff.rfl ?_
        have hnext : pc < q → (Decodes code pc q ↔ Decodes code (pc + 1) q) := by
          intro hlt
          have := decodes_iff hop hlt
          rwa [hpush, Option.getD_none] at this
        constructor
        · rintro ⟨hlt, hnot⟩
          exact ⟨by omega, fun h => hnot ((hnext (by omega)).1 h)⟩
        · rintro ⟨hlt, hnot⟩
          have hnot' : ¬ Decodes code (pc + 1) q := fun h => hnot ((hnext hlt).2 h)
          refine ⟨Nat.lt_of_le_of_ne hlt fun heq => hnot' ?_, hnot'⟩
          rw [← heq]
          exact .here _
      | some numbits =>
        dsimp only
        rw [hpush]
        obtain ⟨bits1, bits2, heq1, heq2, hmark2⟩ := push_marks hlen hpc (pushSize_le hpush)
        obtain ⟨bits', heq, hlen', hmark⟩ := ih (pc + 1 + numbits) bits2
          (hmark2.1.trans hlen) (by omega)
        dsimp only
        rw [heq1, Option.bind_some, heq2, Option.bind_some]
        refine ⟨bits', heq, hlen'.trans hmark2.1, fun q hq => ?_⟩
        rw [hmark q hq, hmark2.2, or_assoc]
        refine or_congr Iff.rfl ?_
        have hnext : pc < q → (Decodes code pc q ↔ Decodes code (pc + 1 + numbits) q) := by
          intro hlt
          have := decodes_iff hop hlt
          rwa [hpush, Option.getD_some] at this
        constructor
        · rintro (⟨hle, hlt⟩ | ⟨hlt, hnot⟩)
          · exact ⟨hle, fun h => absurd ((hnext hle).1 h).le (by omega)⟩
          · exact ⟨by omega, fun h => hnot ((hnext (by omega)).1 h)⟩
        · rintro ⟨hlt, hnot⟩
          have hnot' : ¬ Decodes code (pc + 1 + numbits) q := fun h => hnot ((hnext hlt).2 h)
          rcases Nat.lt_trichotomy q (pc + 1 + numbits) with hq' | hq' | hq'
          · exact .inl ⟨hlt, hq'⟩
          · rw [hq'] at hnot'
            exact absurd (.here _) hnot'
          · exact .inr ⟨hq', hnot'⟩
    · rw [List.getElem?_eq_none (by omega)]
      refine ⟨bits, rfl, rfl, fun q hq => ?_⟩
      rw [or_iff_left (by omega)]

theorem codeBitmap_eq (code : Bytes) :
    ∃ bits, codeBitmap code = some bits ∧ bits.length = code.length / 8 + 1 + 4 ∧
      ∀ q < code.length, bits.Marked q ↔ ¬ Decodes code 0 q := by
  obtain ⟨bits, heq, hlen, hmark⟩ := codeBitmapLoop_eq code code.length 0 _ length_replicate
    (by omega)
  refine ⟨bits, heq, hlen.trans length_replicate, fun q hq => ?_⟩
  rw [hmark q hq, or_iff_right (not_marked_replicate _ q)]
  refine and_iff_right_of_imp fun hnot => ?_
  rcases Nat.eq_zero_or_pos q with rfl | hpos
  · exact absurd (.here 0) hnot
  · exact hpos

/-! ## Queries -/

/-- The maps that queries leave behind, for codes of a set, each under its hash. -/
inductive Destinations.History (hash : Bytes → Hash) (C : Set Bytes) : Destinations → Prop
  | empty : History hash C fun _ => none
  | has {d d' : Destinations} {code : Bytes} {dest : Int} {b : Bool} (hd : History hash C d)
      (hcode : code ∈ C) (hhas : d.has (hash code) code dest = .ok (b, d')) : History hash C d'

theorem Destinations.History.known {hash : Bytes → Hash} {C : Set Bytes} {d : Destinations}
    (h : History hash C d) {k : Hash} {c : Bytes} (hk : d k = some c) : c ∈ C ∧ hash c = k := by
  induction h generalizing k c with
  | empty => cases hk
  | @has d d' code dest b hd hcode hhas ih =>
    have hupdate : ∀ d'', d'' = d ∨ d'' = update d (hash code) (some ((d (hash code)).getD code)) →
        d'' k = some c → c ∈ C ∧ hash c = k := by
      rintro d'' (rfl | rfl) hc
      · exact ih hc
      · by_cases hkey : k = hash code
        · subst hkey
          rw [update_self] at hc
          cases hold : d (hash code) with
          | none =>
            rw [hold] at hc
            cases hc
            exact ⟨hcode, rfl⟩
          | some c' =>
            rw [hold] at hc
            cases hc
            exact ih hold
        · rw [update_of_ne hkey] at hc
          exact ih hc
    refine hupdate d' ?_ hk
    rw [Destinations.has] at hhas
    dsimp only at hhas
    split at hhas
    · cases hhas
      exact .inl rfl
    · split at hhas
      · split at hhas
        · cases hhas
        · cases hhas
          exact .inr rfl
      · cases hhas
        exact .inr rfl

/-- A query answers whether the destination is one: for every code and every destination, after
every history of queries. A slice in Go never comes near 2 ^ 62 bytes. -/
theorem has_iff (hash : Bytes → Hash) (C : Set Bytes) (hinj : Set.InjOn hash C)
    (d : Destinations) (hd : Destinations.History hash C d) (code : Bytes) (hcode : code ∈ C)
    (hlen : code.length ≤ 2 ^ 62) (dest : Nat) :
    (∃ bits, codeBitmap code = some bits) ∧
    ∃ b d', d.has (hash code) code dest = .ok (b, d') ∧
      (b = true ↔ dest < code.length ∧ JumpDest code dest) := by
  obtain ⟨bits, hbits, hblen, hmark⟩ := codeBitmap_eq code
  refine ⟨⟨bits, hbits⟩, ?_⟩
  have hanalysed : (d (hash code)).getD code = code := by
    cases hold : d (hash code) with
    | none => rfl
    | some c =>
      obtain ⟨hc, heq⟩ := hd.known hold
      exact hinj hc hcode heq
  rw [Destinations.has]
  by_cases hout : bitLen (dest : Int) ≥ 63 ∨ (uint64 (dest : Int)).toNat ≥ code.length
  · rw [if_pos hout]
    refine ⟨false, d, rfl, ?_⟩
    -- A number of 63 bits lies past every code, and below that `Uint64` is exact.
    have hpast : code.length ≤ dest := by
      rcases hout with hbit | hle
      · rw [ge_iff_le, ← Nat.not_lt, Nat.lt_iff_le_pred (by decide), bitLen_le_iff,
          Int.natAbs_natCast] at hbit
        exact hlen.trans (Nat.le_of_not_lt hbit)
      · rw [uint64_natCast] at hle
        exact hle.trans (Nat.mod_le _ _)
    simp [Nat.not_lt.2 hpast]
  · rw [if_neg hout]
    obtain ⟨hbit, hlt⟩ := not_or.1 hout
    have hsmall : dest < 2 ^ 62 := by
      rw [ge_iff_le, Nat.not_le, Nat.lt_iff_le_pred (by decide), bitLen_le_iff,
        Int.natAbs_natCast] at hbit
      exact hbit
    rw [uint64_toNat (by omega)] at hlt ⊢
    have hin : dest < code.length := Nat.lt_of_not_le hlt
    by_cases hop : code[dest]? = some 0x5b
    · obtain ⟨segment, hseg, hiff⟩ := codeSegment_eq (show dest / 8 < bits.length by omega)
      rw [if_pos hop, hanalysed, hbits, Option.bind_some, hseg]
      refine ⟨segment, _, rfl, ?_⟩
      rw [hiff, hmark dest hin, not_not]
      exact ⟨fun hdec => ⟨hin, hop, hdec⟩, fun h => h.2.2⟩
    · rw [if_neg hop]
      refine ⟨false, _, rfl, ?_⟩
      simp [JumpDest, hop]

/-- A `PUSH1` with a `JUMPDEST` as its data, a `JUMPDEST`, and a `PUSH3` with one byte left. -/
def truncatedPush : Bytes := [0x60, 0x5b, 0x5b, 0x62, 0x5b]

theorem history_truncatedPush (hash : Bytes → Hash) : Destinations.History hash {truncatedPush}
      (update (fun _ => none) (hash truncatedPush) (some truncatedPush)) :=
  .has .empty rfl (show Destinations.has _ (hash truncatedPush) truncatedPush 1 =
    .ok (false, _) from rfl)

theorem has_truncatedPush :
    ∃ b d', Destinations.has (Function.update (fun _ => none) Hash.zero (some truncatedPush))
      Hash.zero truncatedPush 2 = .ok (b, d') ∧
      (b = true ↔ 2 < truncatedPush.length ∧ JumpDest truncatedPush 2) :=
  (has_iff (fun _ => Hash.zero) {truncatedPush} (Set.injOn_singleton _ _) _
    (history_truncatedPush _) truncatedPush rfl (by decide) 2).2

end Geth.Vm
