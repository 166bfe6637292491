import Geth.Core.Bloom
import Geth.Lib.Bits

/-!
# Filters without false negatives, and their transposition
-/

namespace Geth.Core

open Lib List

/-! ## Sets of bits -/

/-- All bits of `c` are bits of `n`. -/
def Covers (n c : Nat) : Prop := ∀ i, c.testBit i = true → n.testBit i = true

theorem covers_iff (n c : Nat) : n &&& c = c ↔ Covers n c := by
  constructor
  · intro h i hi
    rw [← h, Nat.testBit_and, Bool.and_eq_true] at hi
    exact hi.1
  · intro h
    refine Nat.eq_of_testBit_eq fun i => ?_
    rw [Nat.testBit_and]
    cases hi : c.testBit i with
    | false => exact Bool.and_false _
    | true => rw [h i hi, Bool.and_true]

theorem Covers.trans {a b c : Nat} (h : Covers a b) (h' : Covers b c) : Covers a c :=
  fun i hi => h i (h' i hi)

theorem covers_or_left (a b : Nat) : Covers (a ||| b) a := by
  intro i hi
  rw [Nat.testBit_or, hi, Bool.true_or]

theorem covers_or_right (a b : Nat) : Covers (a ||| b) b := by
  intro i hi
  rw [Nat.testBit_or, hi, Bool.or_true]

section Fold

variable {α : Type} (f : α → Nat)

theorem covers_foldl_init (xs : List α) (n : Nat) :
    Covers (xs.foldl (fun bin x => bin ||| f x) n) n := by
  induction xs generalizing n with
  | nil => exact fun _ hi => hi
  | cons x xs ih => exact (ih (n ||| f x)).trans (covers_or_left n (f x))

theorem covers_foldl {xs : List α} {x : α} (hx : x ∈ xs) (n : Nat) :
    Covers (xs.foldl (fun bin x => bin ||| f x) n) (f x) := by
  induction xs generalizing n with
  | nil => cases hx
  | cons y ys ih =>
    rcases mem_cons.1 hx with rfl | hx
    · exact (covers_foldl_init f ys (n ||| f x)).trans (covers_or_right n (f x))
    · exact ih hx (n ||| f y)

theorem foldl_or_lt {k : Nat} {xs : List α} (hf : ∀ x ∈ xs, f x < 2 ^ k) {n : Nat}
    (hn : n < 2 ^ k) : xs.foldl (fun bin x => bin ||| f x) n < 2 ^ k := by
  induction xs generalizing n with
  | nil => exact hn
  | cons x xs ih =>
    have hx := Nat.or_lt_two_pow hn (hf x mem_cons_self)
    exact ih (fun y hy => hf y (mem_cons_of_mem x hy)) hx

end Fold

/-! ## Filters -/

section Filters

variable (keccak : Keccak)

theorem two_pow_bloomBitLength : 2 ^ bloomBitLength = 256 ^ 256 := by
  rw [show bloomBitLength = 8 * 256 from rfl, Nat.pow_mul]

theorem bloomIndex_lt (b : Bytes) (i : Nat) : bloomIndex b i < bloomBitLength :=
  Nat.and_lt_two_pow _ (by decide : 2047 < 2 ^ 11)

theorem bloom9_lt (b : Bytes) : bloom9 keccak b < 2 ^ bloomBitLength := by
  refine foldl_or_lt (fun i => 1 <<< bloomIndex (keccak b).val i) (fun i _ => ?_) (by positivity)
  rw [Nat.shiftLeft_eq, Nat.one_mul]
  exact Nat.pow_lt_pow_right (by decide) (bloomIndex_lt _ i)

theorem logBloom_lt (log : State.Log) : logBloom keccak log < 2 ^ bloomBitLength :=
  foldl_or_lt _ (fun topic _ => bloom9_lt keccak topic.val) (bloom9_lt keccak log.address.val)

theorem logsBloom_lt (logs : List State.Log) : logsBloom keccak logs < 2 ^ bloomBitLength :=
  foldl_or_lt _ (fun log _ => logBloom_lt keccak log) (by positivity)

theorem bloomLookup_eq (bin : Bloom) (topic : Bytes) :
    bloomLookup keccak bin topic = true ↔ Covers (beNat bin.val) (bloom9 keccak topic) := by
  rw [bloomLookup, decide_eq_true_iff, covers_iff]

theorem setBytes_beBytes (b : Bloom) {n : Nat} (hle : beNat b.val ≤ n)
    (hn : n < 2 ^ bloomBitLength) : ∃ b', b.setBytes (beBytes n) = some b' ∧ beNat b'.val = n := by
  have hlen : (beBytes n).length ≤ 256 := by
    rw [length_beBytes_le_iff]
    exact Nat.lt_of_lt_of_eq hn two_pow_bloomBitLength
  have hold : (beBytes (beNat b.val)).length ≤ (beBytes n).length := by
    rw [length_beBytes_le_iff]
    exact Nat.lt_of_le_of_lt hle ((length_beBytes_le_iff _ _).1 (Nat.le_refl _))
  have hzero : b.val.take (256 - (beBytes n).length) =
      List.replicate (256 - (beBytes n).length) 0 := by
    rw [← replicate_append_beBytes_beNat b.val, b.property, take_append_of_le_length,
      take_replicate, Nat.min_eq_left (by omega)]
    rw [length_replicate]
    omega
  rw [Bloom.setBytes, dif_pos hlen]
  refine ⟨_, rfl, ?_⟩
  dsimp only
  rw [hzero, beNat_replicate_append, beNat_beBytes]

theorem createBloom_eq (receipts : List Receipt) : ∃ bloom,
    createBloom keccak receipts = some bloom ∧ beNat bloom.val =
      receipts.foldl (fun bin receipt => bin ||| logsBloom keccak receipt.logs) 0 :=
  setBytes_beBytes Bloom.zero (by
    have hzero := beNat_replicate_append 256 []
    rw [append_nil] at hzero
    exact hzero.trans_le (Nat.zero_le _))
    (foldl_or_lt _ (fun receipt _ => logsBloom_lt keccak receipt.logs) (by positivity))

theorem beNat_bloom_lt (b : Bloom) : beNat b.val < 2 ^ bloomBitLength := by
  have hlt := beNat_lt b.val
  rw [b.property] at hlt
  exact Nat.lt_of_lt_of_eq hlt two_pow_bloomBitLength.symm

theorem add_eq (b : Bloom) (d : Int) : ∃ b', b.add keccak d = some b' ∧
    beNat b'.val = beNat b.val ||| bloom9 keccak (beBytes d.natAbs) :=
  setBytes_beBytes b Nat.left_le_or (Nat.or_lt_two_pow (beNat_bloom_lt b) (bloom9_lt keccak _))

theorem addAll_eq (ds : List Int) (b : Bloom) : ∃ b', b.addAll keccak ds = some b' ∧
    beNat b'.val = ds.foldl (fun bin d => bin ||| bloom9 keccak (beBytes d.natAbs))
      (beNat b.val) := by
  induction ds generalizing b with
  | nil => exact ⟨b, rfl, rfl⟩
  | cons d ds ih =>
    obtain ⟨b1, hadd, hbits⟩ := add_eq keccak b d
    obtain ⟨b', hall, hbits'⟩ := ih b1
    refine ⟨b', ?_, ?_⟩
    · rw [Bloom.addAll, foldlM_cons, hadd]
      exact hall
    · rw [hbits', hbits, foldl_cons]

theorem createBloom_covers {receipts : List Receipt} {bloom : Bloom}
    (hcreate : createBloom keccak receipts = some bloom) {receipt : Receipt}
    (hreceipt : receipt ∈ receipts) {log : State.Log} (hlog : log ∈ receipt.logs) :
    bloomLookup keccak bloom log.address.val = true ∧
      ∀ topic ∈ log.topics, bloomLookup keccak bloom topic.val = true := by
  obtain ⟨bloom', hcreate', hbits⟩ := createBloom_eq keccak receipts
  obtain rfl : bloom' = bloom := Option.some.inj (hcreate'.symm.trans hcreate)
  have hcovers : Covers (beNat bloom'.val) (logBloom keccak log) := by
    rw [hbits]
    exact (covers_foldl (fun r : Receipt => logsBloom keccak r.logs) hreceipt 0).trans
      (covers_foldl (logBloom keccak) hlog 0)
  constructor
  · rw [bloomLookup_eq]
    exact hcovers.trans (covers_foldl_init (fun topic : Hash => bloom9 keccak topic.val) _ _)
  · intro topic htopic
    rw [bloomLookup_eq]
    exact hcovers.trans (covers_foldl (fun topic : Hash => bloom9 keccak topic.val) htopic _)

/-- Nothing that has gone into a filter is missed: neither the addresses and topics of the receipts,
nor what has been added, by `Test` and by `TestBytes`, whose bytes may begin with zeros. -/
theorem no_false_negatives :
    (∀ receipts : List Receipt, ∃ bloom, createBloom keccak receipts = some bloom ∧
      ∀ receipt ∈ receipts, ∀ log ∈ receipt.logs, bloomLookup keccak bloom log.address.val = true ∧
        ∀ topic ∈ log.topics, bloomLookup keccak bloom topic.val = true) ∧
    ∀ (b : Bloom) (ds : List Int), ∃ b', b.addAll keccak ds = some b' ∧
      ∀ d ∈ ds, b'.test keccak d = true ∧
        ∀ x : Bytes, beNat x = d.natAbs → b'.testBytes keccak x = true := by
  constructor
  · intro receipts
    obtain ⟨bloom, hcreate, _⟩ := createBloom_eq keccak receipts
    exact ⟨bloom, hcreate, fun receipt hreceipt log hlog =>
      createBloom_covers keccak hcreate hreceipt hlog⟩
  · intro b ds
    obtain ⟨b', hadd, hbits⟩ := addAll_eq keccak ds b
    refine ⟨b', hadd, fun d hd => ?_⟩
    have hcovers : Covers (beNat b'.val) (bloom9 keccak (beBytes d.natAbs)) := by
      rw [hbits]
      exact covers_foldl (fun d : Int => bloom9 keccak (beBytes d.natAbs)) hd (beNat b.val)
    have htest : b'.test keccak d = true := (bloomLookup_eq keccak b' _).2 hcovers
    refine ⟨htest, fun x hx => ?_⟩
    rw [Bloom.testBytes, hx]
    exact htest

end Filters

/-! ## Transposition -/

namespace Generator

/-- The generator after some filters: each vector has the bits of all of them, at their
positions. -/
structure Holds (sections : Nat) (blooms : List Bloom) (b : Generator) : Prop where
  sections_eq : b.sections = sections
  nextBit_eq : b.nextBit = blooms.length
  length_blooms : b.blooms.length = bloomBitLength
  length_row : ∀ row ∈ b.blooms, row.length = sections / 8
  bit : ∀ (idx : Nat) (row : Bytes), b.blooms[idx]? = some row → ∀ j,
    bitAt row j = (blooms[j]?.any fun bloom => hasBit bloom idx)

variable {sections : Nat} {b : Generator} {blooms : List Bloom}

theorem holds_new (h : new sections = .ok b) : sections % 8 = 0 ∧ Holds sections [] b := by
  rw [new] at h
  split at h
  · cases h
  case isFalse hmod =>
    cases h
    refine ⟨not_not.1 hmod, rfl, rfl, length_replicate, ?_, ?_⟩
    · intro row hrow
      rw [eq_of_mem_replicate hrow, length_replicate]
    · intro idx row hrow j
      rw [List.getElem?_replicate] at hrow
      split at hrow
      · cases hrow
        exact bitAt_replicate_zero _ j
      · cases hrow

theorem Holds.addBloom (h : Holds sections blooms b) (hmod : sections % 8 = 0)
    (hroom : blooms.length < sections) (bloom : Bloom) : ∃ b', b.addBloom b.nextBit bloom = .ok b' ∧
      Holds sections (blooms ++ [bloom]) b' := by
  rw [Generator.addBloom, if_neg (by rw [h.nextBit_eq, h.sections_eq]; omega), if_neg (by simp)]
  refine ⟨_, rfl, h.sections_eq, ?_, ?_, ?_, ?_⟩
  · rw [length_append]
    exact congrArg (· + 1) h.nextBit_eq
  · exact (length_mapIdx).trans h.length_blooms
  · intro row hrow
    obtain ⟨i, hi, rfl⟩ := mem_mapIdx.1 hrow
    have hold := h.length_row _ (getElem_mem hi)
    split
    · exact (length_setBit _ _).trans hold
    · exact hold
  · intro idx row hrow j
    rw [List.getElem?_mapIdx] at hrow
    obtain ⟨old, hold, rfl⟩ := Option.map_eq_some_iff.1 hrow
    have hbit := h.bit idx old hold j
    have hlen := h.length_row old (mem_of_getElem? hold)
    have hset : bitAt (setBit old b.nextBit) j = (bitAt old j || decide (b.nextBit = j)) :=
      bitAt_setBit (by rw [hlen, h.nextBit_eq]; omega) j
    rw [h.nextBit_eq] at hset ⊢
    rcases Nat.lt_trichotomy j blooms.length with hlt | rfl | hgt
    · rw [List.getElem?_append_left hlt, ← hbit]
      split
      · exact hset.trans (by rw [decide_eq_false (by omega), Bool.or_false])
      · rfl
    · split
      case isTrue hhas => exact hset.trans (by rw [hbit]; simpa using hhas)
      case isFalse hhas => exact hbit.trans (by simpa using hhas)
    · rw [List.getElem?_eq_none (by simp; omega)]
      rw [List.getElem?_eq_none (by omega)] at hbit
      split
      · exact hset.trans (by rw [hbit, decide_eq_false (by omega)]; rfl)
      · exact hbit

theorem Holds.addAll (h : Holds sections blooms b) (hmod : sections % 8 = 0) (more : List Bloom)
    (hroom : blooms.length + more.length ≤ sections) :
    ∃ b', b.addAll more = .ok b' ∧ Holds sections (blooms ++ more) b' := by
  induction more generalizing blooms b with
  | nil => exact ⟨b, rfl, (append_nil blooms).symm ▸ h⟩
  | cons bloom more ih =>
    rw [length_cons] at hroom
    obtain ⟨b1, hadd, h1⟩ := h.addBloom hmod (by omega) bloom
    obtain ⟨b', hall, h'⟩ := ih h1 (by rw [length_append]; simp; omega)
    refine ⟨b', ?_, by rwa [append_assoc] at h'⟩
    rw [Generator.addAll, hadd]
    exact hall

theorem Holds.of_addAll {b' : Generator} (h : Holds sections blooms b) (hmod : sections % 8 = 0)
    (hroom : blooms.length ≤ sections) {more : List Bloom} (hall : b.addAll more = .ok b') :
    blooms.length + more.length ≤ sections ∧ Holds sections (blooms ++ more) b' := by
  induction more generalizing blooms b with
  | nil =>
    cases hall
    exact ⟨hroom, (append_nil blooms).symm ▸ h⟩
  | cons bloom more ih =>
    rw [Generator.addAll] at hall
    by_cases hlt : blooms.length < sections
    · obtain ⟨b1, hadd, h1⟩ := h.addBloom hmod hlt bloom
      rw [hadd] at hall
      obtain ⟨hle, h'⟩ := ih h1 (by rw [length_append]; exact hlt) hall
      rw [append_assoc] at h'
      refine ⟨?_, h'⟩
      rw [length_append, length_singleton] at hle
      rw [length_cons]
      omega
    · have hfull : b.nextBit ≥ b.sections := by
        rw [h.nextBit_eq, h.sections_eq]
        omega
      rw [Generator.addBloom, if_pos hfull] at hall
      cases hall

theorem hasBit_eq (bloom : Bloom) {i : Nat} (hi : i < bloomBitLength) :
    hasBit bloom i = (beNat bloom.val).testBit i := by
  have hlen : i < 8 * bloom.val.length := by
    rw [bloom.property]
    exact hi
  rw [testBit_beNat _ hlen, bloom.property, hasBit,
    Bool.decide_congr (and_mask_ne_zero _ (Nat.mod_lt i (by decide))), Bool.decide_eq_true]

theorem Holds.bitset_eq (h : Holds sections blooms b) (hfull : blooms.length = sections) (idx : Nat)
    :
    b.bitset idx = if sections ≤ idx then some (.error .sectionOutOfBounds)
      else b.blooms[idx]?.map .ok := by
  rw [bitset, if_neg (by rw [h.nextBit_eq, h.sections_eq, hfull]; exact fun hne => hne rfl),
    h.sections_eq]

/-- The whole of what a generator promises for sections of a size: with the filters of a section the
vector of each bit is there and has the bits of the filters, and what does not belong to the section
is refused. -/
structure Transposes (sections : Nat) : Prop where
  bitset : ∀ b, new sections = .ok b → ∀ blooms : List Bloom, blooms.length = sections →
    ∃ b', b.addAll blooms = .ok b' ∧ ∀ idx < bloomBitLength, ∃ bits,
      b'.bitset idx = some (.ok bits) ∧
      ∀ (j : Nat) (hj : j < blooms.length), bitAt bits j = (beNat blooms[j].val).testBit idx
  addition : ∀ b, new sections = .ok b → ∀ (blooms : List Bloom) (b' : Generator),
    b.addAll blooms = .ok b' → ∀ (index : Nat) (bloom : Bloom),
      index ≠ blooms.length ∨ sections ≤ blooms.length → ∃ err, b'.addBloom index bloom = .error err
  query : ∀ b, new sections = .ok b → ∀ (blooms : List Bloom) (b' : Generator),
    b.addAll blooms = .ok b' → ∀ idx, blooms.length < sections ∨ bloomBitLength ≤ idx →
      ∃ err, b'.bitset idx = some (.error err)

theorem new_ok (hmod : sections % 8 = 0) : ∃ b, new sections = .ok b :=
  ⟨_, if_neg (not_not.2 hmod)⟩

/-- `Bitset` compares the number of a bit with the size of a section instead of the number of bits,
so that only sections of 2048 blocks work. -/
theorem transposes_iff {sections : Nat} (hmod : sections % 8 = 0) :
    Transposes sections ↔ sections = bloomBitLength := by
  constructor
  · intro h
    obtain ⟨b, hb⟩ := new_ok hmod
    obtain ⟨b', hall, hbits⟩ := h.bitset b hb (List.replicate sections Bloom.zero)
      List.length_replicate
    obtain ⟨-, hholds⟩ := (holds_new hb).2.of_addAll hmod (Nat.zero_le _) hall
    rw [List.nil_append] at hholds
    have hanswer := hholds.bitset_eq List.length_replicate
    refine Nat.le_antisymm (Nat.le_of_not_lt fun hlarge => ?_) (Nat.le_of_not_lt fun hsmall => ?_)
    · -- the first number without a vector passes the check
      obtain ⟨err, herr⟩ := h.query b hb _ b' hall bloomBitLength (.inr (Nat.le_refl _))
      rw [hanswer, if_neg (Nat.not_le_of_lt hlarge),
        List.getElem?_eq_none hholds.length_blooms.le] at herr
      cases herr
    · -- the bits beyond the size of a section are refused
      obtain ⟨bits, hok, -⟩ := hbits sections hsmall
      rw [hanswer, if_pos (Nat.le_refl _)] at hok
      cases hok
  · rintro rfl
    refine ⟨?_, ?_, ?_⟩
    · intro b hb blooms hlen
      obtain ⟨b', hall, hholds⟩ := (holds_new hb).2.addAll hmod blooms (by simpa using hlen.le)
      rw [List.nil_append] at hholds
      refine ⟨b', hall, fun idx hidx => ?_⟩
      have hrow : idx < b'.blooms.length := hholds.length_blooms.symm ▸ hidx
      refine ⟨b'.blooms[idx], ?_, fun j hj => ?_⟩
      · rw [hholds.bitset_eq hlen, if_neg (Nat.not_le_of_lt hidx), List.getElem?_eq_getElem hrow]
        rfl
      · rw [hholds.bit idx _ (List.getElem?_eq_getElem hrow) j, List.getElem?_eq_getElem hj]
        exact hasBit_eq _ hidx
    · intro b hb blooms b' hall index bloom hindex
      obtain ⟨hle, hholds⟩ := (holds_new hb).2.of_addAll hmod (Nat.zero_le _) hall
      rw [List.nil_append] at hholds
      rw [Generator.addBloom, hholds.nextBit_eq, hholds.sections_eq]
      split
      · exact ⟨_, rfl⟩
      · rw [if_pos (by omega)]
        exact ⟨_, rfl⟩
    · intro b hb blooms b' hall idx hidx
      obtain ⟨hle, hholds⟩ := (holds_new hb).2.of_addAll hmod (Nat.zero_le _) hall
      rw [List.nil_append] at hholds
      rw [List.length_nil, Nat.zero_add] at hle
      rcases Nat.lt_or_eq_of_le hle with hlt | heq
      · rw [Generator.bitset, if_pos (by rw [hholds.nextBit_eq, hholds.sections_eq]; omega)]
        exact ⟨_, rfl⟩
      · rw [hholds.bitset_eq heq, if_pos (by omega)]
        exact ⟨_, rfl⟩

theorem transposes_section : 2048 % 8 = 0 ∧ Transposes 2048 := ⟨rfl, (transposes_iff rfl).2 rfl⟩

theorem addAll_zero (hmod : sections % 8 = 0) : ∃ b b', new sections = .ok b ∧
    b.addAll (List.replicate sections Bloom.zero) = .ok b' ∧
    Holds sections (List.replicate sections Bloom.zero) b' := by
  obtain ⟨b, hb⟩ := new_ok hmod
  obtain ⟨b', hall, hholds⟩ := (holds_new hb).2.addAll hmod (List.replicate sections Bloom.zero)
    (by simp)
  exact ⟨b, b', hb, hall, hholds⟩

/-- With sections of eight blocks the vector of bit 8 is refused; with the 4096 blocks of
`BloomBitsBlocks` the question for a bit beyond the last one is a panic. -/
theorem bitset_wrong_dimension :
    (∃ b b', new 8 = .ok b ∧ b.addAll (List.replicate 8 Bloom.zero) = .ok b' ∧
      b'.bitset 8 = some (.error .sectionOutOfBounds)) ∧
    ∃ b b', new 4096 = .ok b ∧ b.addAll (List.replicate 4096 Bloom.zero) = .ok b' ∧
      b'.bitset 2048 = none := by
  constructor
  · obtain ⟨b, b', hb, hall, hholds⟩ := addAll_zero (show 8 % 8 = 0 from rfl)
    exact ⟨b, b', hb, hall, hholds.bitset_eq rfl 8⟩
  · obtain ⟨b, b', hb, hall, hholds⟩ := addAll_zero (show 4096 % 8 = 0 from rfl)
    have hnone : b'.blooms[2048]? = none := List.getElem?_eq_none hholds.length_blooms.le
    refine ⟨b, b', hb, hall, ?_⟩
    rw [hholds.bitset_eq List.length_replicate, if_neg (by decide), hnone]
    rfl

end Generator

end Geth.Core
