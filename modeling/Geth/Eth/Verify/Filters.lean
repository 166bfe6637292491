import Geth.Eth.Filters
import Geth.Core.Verify.Bloom

/-!
# A filter finds the matching logs of its range

Whatever part of the range the index covers, the search returns the logs of the blocks of the range
that match, in the order of the chain.
-/

namespace Geth.Eth

open Geth.Core State Vm Option

/-! ## What a filter is for -/

/-- A block of the canonical chain: its header and the receipts of its transactions. -/
structure Block where
  header : Header
  receipts : List Receipt

/-- The logs of a block. -/
def Block.logs (block : Block) : List Log := block.receipts.flatMap Receipt.logs

/-- A log matches some addresses, of which it has one, and topics, for each of whose positions it
has one of the alternatives; no alternative stands for any. -/
def Matches (addresses : List Address) (topics : List (List Hash)) (log : Log) : Prop :=
  (addresses = [] ∨ log.address ∈ addresses) ∧ topics.length ≤ log.topics.length ∧
    ∀ p ∈ topics.zip log.topics, p.1 = [] ∨ p.2 ∈ p.1

instance (addresses : List Address) (topics : List (List Hash)) :
    DecidablePred (Matches addresses topics) := fun log => by
  unfold Matches
  infer_instance

/-- The matching logs of a block. -/
def found (f : Filter) (block : Block) : List Log :=
  block.logs.filter fun log => decide (Matches f.addresses f.topics log)

/-- The matching logs of the blocks from `first` on, up to `last` and without it. -/
def segment (f : Filter) (blocks : List Block) (first last : Nat) : List Log :=
  ((blocks.take last).drop first).flatMap (found f)

/-- The block that a number of a filter stands for: -1 is the latest block. -/
def position (blocks : List Block) (n : Int) : Nat :=
  if n = -1 then blocks.length - 1 else n.toNat

/-- The numbers of a range of blocks, which are those of the type `int64` without the special ones
other than the latest block. -/
def IsNumber (n : Int) : Prop := n = -1 ∨ 0 ≤ n ∧ n < 2 ^ 63

/-- The logs that a client has before it resolves them: all of their address and topics, and either
everything else or no transaction. -/
structure Unresolved (raw : Log → Log) : Prop where
  address : ∀ log, (raw log).address = log.address
  topics : ∀ log, (raw log).topics = log.topics
  complete : (∀ log, raw log = log) ∨ ∀ log, (raw log).txHash = Hash.zero

/-- A backend that serves a chain: the headers have their positions as numbers and the filters of
their receipts, and a session of the matcher reports the blocks of the indexed sections whose
filters match. -/
structure Serves {ε : Type} (b : Backend ε) (hash : Header → Hash) (keccak : Keccak)
    (blocks : List Block) : Prop where
  length : blocks.length ≤ 2 ^ 63
  number : ∀ (n : Nat) (block : Block), blocks[n]? = some block → block.header.number = n
  bloom : ∀ block ∈ blocks, createBloom keccak block.receipts = some block.header.bloom
  latest : b.headerByNumber (-1) = .ok (blocks.getLast?.map Block.header)
  header : ∀ n, n ≠ -1 → n ≠ -2 → b.headerByNumber n = .ok (blocks[toUint64 n]?.map Block.header)
  receipts : ∀ block ∈ blocks, b.getReceipts (hash block.header) = .ok block.receipts
  logs : ∀ block ∈ blocks, ∃ raw, Unresolved raw ∧
    b.getLogs (hash block.header) = .ok (block.receipts.map fun r => r.logs.map raw)
  session : ∀ addresses topics first last, last < b.sections * b.size →
    ∃ numbers, b.session addresses topics first last = .ok (numbers, none) ∧
      numbers.Pairwise (· < ·) ∧ ∀ n, n ∈ numbers ↔ first ≤ n ∧ n ≤ last ∧
        ∃ block, blocks[n]? = some block ∧
          bloomFilter keccak block.header.bloom addresses topics = true

/-! ## One log -/

theorem topicsMatch_iff (topics : List (List Hash)) (logTopics : List Hash) :
    topicsMatch topics logTopics = true ↔ topics.length ≤ logTopics.length ∧
      ∀ p ∈ topics.zip logTopics, p.1 = [] ∨ p.2 ∈ p.1 := by
  induction topics generalizing logTopics with
  | nil => simp [topicsMatch]
  | cons sub topics ih =>
    cases logTopics with
    | nil => simp [topicsMatch]
    | cons topic rest =>
      rw [topicsMatch, Bool.and_eq_true, ih rest, List.zip_cons_cons, List.forall_mem_cons,
        List.length_cons, List.length_cons, Nat.add_le_add_iff_right, Bool.or_eq_true,
        List.isEmpty_iff, List.contains_iff_mem]
      exact ⟨fun ⟨h, hlen, hall⟩ => ⟨hlen, h, hall⟩, fun ⟨hlen, h, hall⟩ => ⟨h, hlen, hall⟩⟩

theorem filterLogs_eq (logs : List Log) (addresses : List Address) (topics : List (List Hash)) :
    filterLogs logs none none addresses topics =
      logs.filter fun log => decide (Matches addresses topics log) := by
  refine List.filter_congr fun log _ => ?_
  rw [Bool.eq_iff_iff, decide_eq_true_iff]
  simp only [any_none, Bool.not_false, Bool.true_and, Bool.and_eq_true, Bool.or_eq_true,
    List.isEmpty_iff, List.contains_iff_mem, topicsMatch_iff, Matches, Bool.not_eq_true',
    decide_eq_false_iff_not, Nat.not_lt]
  exact ⟨fun ⟨⟨h, _⟩, h'⟩ => ⟨h, h'⟩, fun ⟨h, h'⟩ => ⟨⟨h, h'.1⟩, h'⟩⟩

theorem bloomFilter_of_matches {keccak : Keccak} {bloom : Bloom} {receipts : List Receipt}
    (hbloom : createBloom keccak receipts = some bloom) {log : Log}
    (hlog : log ∈ receipts.flatMap Receipt.logs) {addresses : List Address}
    {topics : List (List Hash)} (hmatches : Matches addresses topics log) :
    bloomFilter keccak bloom addresses topics = true := by
  obtain ⟨receipt, hreceipt, hlog⟩ := List.mem_flatMap.1 hlog
  obtain ⟨haddress, htopics⟩ := createBloom_covers keccak hbloom hreceipt hlog
  obtain ⟨haddresses, hlen, hall⟩ := hmatches
  rw [bloomFilter, Bool.and_eq_true, Bool.or_eq_true, List.isEmpty_iff, List.any_eq_true,
    List.all_eq_true]
  refine ⟨haddresses.imp_right fun hmem => ⟨log.address, hmem, haddress⟩, fun sub hsub => ?_⟩
  rw [Bool.or_eq_true, List.isEmpty_iff, List.any_eq_true]
  obtain ⟨i, hi, rfl⟩ := List.getElem_of_mem hsub
  have hi' : i < log.topics.length := Nat.lt_of_lt_of_le hi hlen
  have hmem : (topics[i], log.topics[i]) ∈ topics.zip log.topics := by
    rw [← List.getElem_zip (h := by rw [List.length_zip]; omega)]
    exact List.getElem_mem _
  exact (hall _ hmem).imp_right fun hin => ⟨_, hin, htopics _ (List.getElem_mem hi')⟩

/-! ## Ranges -/

section Ranges

variable (f : Filter) (blocks : List Block)

variable {first last : Nat}

theorem segment_eq_nil (h : ∀ n block, first ≤ n → n < last →
    blocks[n]? = some block → found f block = []) : segment f blocks first last = [] := by
  rw [segment, List.flatMap_eq_nil_iff]
  intro block hmem
  obtain ⟨i, hi⟩ := List.mem_iff_getElem?.1 hmem
  rw [List.getElem?_drop, List.getElem?_take] at hi
  split at hi
  case isTrue hlt => exact h (first + i) block (Nat.le_add_right _ _) hlt hi
  case isFalse => cases hi

theorem segment_append {mid : Nat} (h1 : first ≤ mid) (h2 : mid ≤ last) :
    segment f blocks first last = segment f blocks first mid ++ segment f blocks mid last := by
  have hmid : blocks.take mid = (blocks.take last).take mid := by
    rw [List.take_take, Nat.min_eq_left h2]
  unfold segment
  rw [hmid, ← List.flatMap_append, List.drop_take (j := mid) (i := first)]
  congr 1
  nth_rewrite 1 [← List.take_append_drop (mid - first) ((blocks.take last).drop first)]
  rw [List.drop_drop, Nat.add_sub_of_le h1]

theorem segment_cons {block : Block} (hlt : first < last) (hblock : blocks[first]? = some block) :
    segment f blocks first last = found f block ++ segment f blocks (first + 1) last := by
  obtain ⟨hlen, rfl⟩ := List.getElem?_eq_some_iff.1 hblock
  have htake : first < (blocks.take last).length := by
    rw [List.length_take]
    omega
  rw [segment, List.drop_eq_getElem_cons htake, List.flatMap_cons, List.getElem_take]
  rfl

theorem segment_of_le (h : last ≤ first) : segment f blocks first last = [] :=
  segment_eq_nil f blocks fun _ _ hn hn' _ => absurd (hn.trans_lt hn') (Nat.not_lt.2 h)

theorem segment_of_length_le (h : blocks.length ≤ first) : segment f blocks first last = [] :=
  segment_eq_nil f blocks fun n block hn _ hblock => by
    rw [List.getElem?_eq_none (h.trans hn)] at hblock
    cases hblock

theorem found_begin (f : Filter) (n : Int) (block : Block) :
    found { f with begin_ := n } block = found f block := by
  rfl

theorem segment_begin (n : Int) (first last : Nat) :
    segment { f with begin_ := n } blocks first last = segment f blocks first last := by
  unfold segment
  rw [funext (found_begin f n)]

end Ranges

/-! ## Numbers -/

variable {n : Nat}

theorem toInt64_of_lt (h : n < 2 ^ 63) : toInt64 n = n := by
  unfold toInt64
  rw [Int.bmod_eq_of_le] <;> omega

theorem toInt64_two_pow : toInt64 ((2 ^ 63 : Nat) : Int) = -2 ^ 63 := by decide

theorem toUint64_toInt64 (h : n < 2 ^ 64) : toUint64 (toInt64 n) = n := by
  unfold toUint64 toInt64
  have hmod : (n : Int).bmod (2 ^ 64) % 2 ^ 64 = (n : Int) % 2 ^ 64 := Int.bmod_emod
  omega

theorem toInt64_toInt64_succ (n : Nat) :
    toInt64 (toInt64 n + 1) = toInt64 ((n + 1 : Nat) : Int) := by
  unfold toInt64
  rw [Int.bmod_add_bmod]
  rfl

theorem toInt64_ne (h : n ≤ 2 ^ 63) : toInt64 n ≠ -1 ∧ toInt64 n ≠ -2 := by
  rcases Nat.lt_or_eq_of_le h with hlt | rfl
  · rw [toInt64_of_lt hlt]
    omega
  · rw [toInt64_two_pow]
    omega

/-! ## The search -/

namespace Serves

variable {ε : Type} {b : Backend ε} {hash : Header → Hash} {keccak : Keccak} {blocks : List Block}
  (serves : Serves b hash keccak blocks) {last : Nat}

include serves

theorem headerByNumber (h : n ≤ 2 ^ 63) :
    b.headerByNumber (toInt64 n) = .ok (blocks[n]?.map Block.header) := by
  obtain ⟨hlatest, hpending⟩ := toInt64_ne h
  rw [serves.header _ hlatest hpending, toUint64_toInt64 (by omega)]

theorem checkMatches {block : Block} (hblock : block ∈ blocks) (f : Filter) :
    f.checkMatches b hash block.header = .ok (found f block) := by
  obtain ⟨raw, hraw, hlogs⟩ := serves.logs block hblock
  have hfilter : filterLogs (block.receipts.map fun r => r.logs.map raw).flatten none none
      f.addresses f.topics = (found f block).map raw := by
    have hflatten : (block.receipts.map fun r => r.logs.map raw).flatten = block.logs.map raw := by
      rw [Block.logs, List.map_flatMap, List.flatMap_def]
    rw [hflatten, filterLogs_eq, List.filter_map, found]
    congr 1
    refine List.filter_congr fun log _ => ?_
    simp only [Function.comp_apply, Matches, hraw.address, hraw.topics]
  unfold Filter.checkMatches
  simp only [hlogs, serves.receipts block hblock, bind, Except.bind, hfilter]
  cases hfound : found f block with
  | nil => rfl
  | cons log rest =>
    simp only [List.map_cons]
    split
    case isTrue =>
      rw [filterLogs_eq, ← hfound]
      rfl
    case isFalse htx =>
      rcases hraw.complete with hid | hzero
      · rw [hid, List.map_congr_left fun l _ => hid l, List.map_id']
      · exact absurd (hzero log) htx

theorem found_eq_nil {block : Block} (hblock : block ∈ blocks) {f : Filter}
    (h : bloomFilter keccak block.header.bloom f.addresses f.topics = false) :
    found f block = [] := by
  rw [found, List.filter_eq_nil_iff]
  intro log hlog hmatches
  rw [bloomFilter_of_matches (serves.bloom block hblock) hlog (of_decide_eq_true hmatches)] at h
  cases h

theorem unindexedLogs (hlast : last < 2 ^ 63) :
    ∀ {fuel first : Nat} {f : Filter}, first ≤ 2 ^ 63 → blocks.length - first < fuel →
      { f with begin_ := toInt64 first }.unindexedLogs b hash keccak last fuel =
        some (segment f blocks first (last + 1), none) := by
  intro fuel
  induction fuel with
  | zero => exact fun _ hfuel => absurd hfuel (Nat.not_lt_zero _)
  | succ fuel ih =>
    intro first f hfirst hfuel
    rw [Filter.unindexedLogs]
    dsimp only
    split
    case isFalse hpast =>
      -- the loop is over only past the range: the number that follows the largest one is smaller
      have hle : last + 1 ≤ first := by
        rcases Nat.lt_or_eq_of_le hfirst with hlt | rfl
        · rw [toInt64_of_lt hlt, toInt64_of_lt hlast] at hpast
          omega
        · omega
      rw [segment_of_le f blocks hle]
    case isTrue hin =>
      rw [serves.headerByNumber hfirst]
      cases hblock : blocks[first]? with
      | none =>
        rw [segment_of_length_le f blocks (List.getElem?_eq_none_iff.1 hblock)]
        rfl
      | some block =>
        have hmem : block ∈ blocks := List.mem_of_getElem? hblock
        have hlen : first < blocks.length := (List.getElem?_eq_some_iff.1 hblock).1
        have hlength := serves.length
        have hlt : first < last + 1 := by
          rw [toInt64_of_lt (by omega), toInt64_of_lt hlast] at hin
          omega
        have hfound : (if bloomFilter keccak block.header.bloom f.addresses f.topics then
            Filter.checkMatches b hash { f with begin_ := toInt64 first } block.header
            else .ok []) = .ok (found f block) := by
          split
          case isTrue => rw [serves.checkMatches hmem, found_begin]
          case isFalse hbloom => rw [serves.found_eq_nil hmem (Bool.not_eq_true _ ▸ hbloom)]
        have hrest := @ih (first + 1) f (by omega) (by omega)
        simp only [map_some, hfound, toInt64_toInt64_succ, hrest]
        rw [segment_cons f blocks hlt hblock]

theorem drain (hlast : last < 2 ^ 63) :
    ∀ {numbers : List Nat} {first : Nat} {f : Filter}, numbers.Pairwise (· < ·) →
      (∀ n, n ∈ numbers ↔ first ≤ n ∧ n ≤ last ∧ ∃ block, blocks[n]? = some block ∧
        bloomFilter keccak block.header.bloom f.addresses f.topics = true) →
      Filter.drain b hash last none numbers f = (segment f blocks first (last + 1), none,
        { f with begin_ := toInt64 ((last + 1 : Nat) : Int) }) := by
  intro numbers
  induction numbers with
  | nil =>
    intro first f _ hnumbers
    rw [Filter.drain, toInt64_toInt64_succ, segment_eq_nil f blocks]
    intro n block hn hn' hblock
    refine serves.found_eq_nil (List.mem_of_getElem? hblock) (Bool.not_eq_true _ ▸ fun hbloom => ?_)
    exact List.not_mem_nil ((hnumbers n).2 ⟨hn, Nat.le_of_lt_succ hn', block, hblock, hbloom⟩)
  | cons n numbers ih =>
    intro first f hsorted hnumbers
    obtain ⟨hafter, hsorted⟩ := List.pairwise_cons.1 hsorted
    obtain ⟨hn, hn', block, hblock, hbloom⟩ := (hnumbers n).1 List.mem_cons_self
    -- nothing before the first reported block matches
    have hbefore : segment f blocks first n = [] := by
      refine segment_eq_nil f blocks fun m block hm hm' hblock => ?_
      refine serves.found_eq_nil (List.mem_of_getElem? hblock)
        (Bool.not_eq_true _ ▸ fun hbloom => ?_)
      have hmem := (hnumbers m).2 ⟨hm, by omega, block, hblock, hbloom⟩
      rcases List.mem_cons.1 hmem with rfl | hmem
      · omega
      · exact absurd (hafter m hmem) (by omega)
    have hrest := fun next => @ih (n + 1) { f with begin_ := next } hsorted (fun m => by
        constructor
        · intro hm
          obtain ⟨_, hm', hblock⟩ := (hnumbers m).1 (List.mem_cons_of_mem n hm)
          exact ⟨hafter m hm, hm', hblock⟩
        · rintro ⟨hm, hm', hblock⟩
          refine (List.mem_cons.1 ((hnumbers m).2 ⟨by omega, hm', hblock⟩)).resolve_left ?_
          omega)
    rw [Filter.drain, serves.headerByNumber (by omega), hblock]
    simp only [map_some, serves.checkMatches (List.mem_of_getElem? hblock), hrest,
      found_begin, segment_begin]
    rw [segment_append f blocks hn (by omega : n ≤ last + 1), hbefore, List.nil_append,
      segment_cons f blocks (by omega) hblock]

theorem indexedLogs {first : Nat} (f : Filter) (hfirst : first < 2 ^ 63)
    (hlast : last < 2 ^ 63) (hindexed : last < b.sections * b.size) :
    { f with begin_ := toInt64 first }.indexedLogs b hash last =
      (segment f blocks first (last + 1), none,
        { f with begin_ := toInt64 ((last + 1 : Nat) : Int) }) := by
  obtain ⟨numbers, hsession, hsorted, hnumbers⟩ :=
    serves.session f.addresses f.topics first last hindexed
  rw [Filter.indexedLogs, toUint64_toInt64 (by omega), hsession]
  generalize toInt64 first = n
  rw [← segment_begin f blocks n]
  exact serves.drain (f := { f with begin_ := n }) hlast hsorted hnumbers

theorem head_number {block : Block} (hlatest : blocks.getLast? = some block) :
    (uint64 block.header.number).toNat = blocks.length - 1 := by
  rw [List.getLast?_eq_getElem?] at hlatest
  have hlength := serves.length
  rw [serves.number _ _ hlatest]
  unfold uint64
  rw [Int.natAbs_natCast, UInt64.toNat_ofNat_of_lt']
  exact Nat.lt_of_le_of_lt (Nat.sub_le _ _) (Nat.lt_of_le_of_lt hlength (by decide))

theorem position_lt {n : Int} (hn : IsNumber n) : position blocks n < 2 ^ 63 := by
  have hlength := serves.length
  unfold position
  rcases hn with rfl | hn
  · rw [if_pos rfl]
    omega
  · rw [if_neg (by omega)]
    omega

theorem logs_between {first indexed fuel : Nat} (f : Filter) (hfirst : first < 2 ^ 63)
    (hlast : last < 2 ^ 63) (hindexed : indexed ≤ b.sections * b.size)
    (hfuel : blocks.length < fuel) : ∃ found f', (if toUint64 (toInt64 first) < indexed then
      { f with begin_ := toInt64 first }.indexedLogs b hash
        (if last < indexed then last else indexed - 1)
     else ([], none, { f with begin_ := toInt64 first })) = (found, none, f') ∧
    ∃ rest, f'.unindexedLogs b hash keccak last fuel = some (rest, none) ∧
      found ++ rest = segment f blocks first (last + 1) := by
  rw [toUint64_toInt64 (by omega)]
  by_cases hin : first < indexed
  · -- the index ends with the range, or before it
    obtain ⟨mid, hmid, hle, hlt, hor⟩ : ∃ n, (if last < indexed then last else indexed - 1) = n ∧
        n ≤ last ∧ n < indexed ∧ (n = last ∨ first ≤ n) :=
      ⟨_, rfl, by split <;> omega, by split <;> omega, by split <;> omega⟩
    rw [if_pos hin, hmid]
    refine ⟨_, _, serves.indexedLogs f hfirst (by omega) (by omega), _,
      serves.unindexedLogs hlast (by omega) (by omega), ?_⟩
    by_cases hempty : mid + 1 ≤ first
    · obtain rfl : mid = last := by omega
      rw [segment_of_le f blocks hempty, segment_of_le f blocks (Nat.le_refl _), List.nil_append]
    · rw [← segment_append f blocks (by omega) (by omega)]
  · rw [if_neg hin]
    exact ⟨[], _, rfl, _, serves.unindexedLogs hlast (by omega) (by omega), List.nil_append _⟩

end Serves

/-- A backend that serves a chain gives the matching logs of a range, in the order of the blocks and
of their logs, whatever the size of a section and the number of those that are indexed. -/
theorem Filter.logs_exact {ε : Type} {b : Backend ε} {hash : Header → Hash} {keccak : Keccak}
    {blocks : List Block} (serves : Serves b hash keccak blocks) (f : Filter)
    (hbegin : IsNumber f.begin_) (hend : IsNumber f.end_) {fuel : Nat}
    (hfuel : blocks.length < fuel) :
    f.logs b hash keccak fuel =
      some (((blocks.take (position blocks f.end_ + 1)).drop (position blocks f.begin_)).flatMap
        fun block => block.logs.filter fun log => decide (Matches f.addresses f.topics log),
        none) := by
  rw [Filter.logs, serves.latest]
  cases hlatest : blocks.getLast? with
  | none =>
    obtain rfl := List.getLast?_eq_none_iff.1 hlatest
    simp
  | some block =>
    have hfirst := serves.position_lt hbegin
    have hlast := serves.position_lt hend
    -- the filter and the end of the range, with the latest block in place of its special value
    have hf : (if f.begin_ = -1 then
        { f with begin_ := toInt64 ((blocks.length - 1 : Nat) : Int) } else f) =
        { f with begin_ := toInt64 (position blocks f.begin_) } := by
      unfold position
      split
      case isTrue => rfl
      case isFalse h =>
        have hnum : 0 ≤ f.begin_ ∧ f.begin_ < 2 ^ 63 := hbegin.resolve_left h
        rw [toInt64_of_lt (by omega), Int.toNat_of_nonneg hnum.1]
    have hlastEq : (if f.end_ = -1 then blocks.length - 1 else toUint64 f.end_) =
        position blocks f.end_ := by
      unfold position
      split
      case isTrue => rfl
      case isFalse h =>
        have hnum : 0 ≤ f.end_ ∧ f.end_ < 2 ^ 63 := hend.resolve_left h
        unfold toUint64
        omega
    obtain ⟨found, f', hindexed, rest, hrest, hall⟩ := serves.logs_between f hfirst hlast
      (Nat.mod_le (b.sections * b.size) (2 ^ 64)) hfuel
    simp only [Option.map_some, serves.head_number hlatest, hf, hlastEq, hindexed, hrest, hall]
    rfl

/-! ## A chain of one block, which is indexed -/

namespace Sample

/-- A log of this address with one topic. -/
def log (address topic data : UInt8) : Log :=
  ⟨bytesToAddress [address], [bytesToHash [topic]], [data], 0, Hash.zero, 0, Hash.zero, 0⟩

/-- The bytes backwards, which sets other bits for other addresses and topics. -/
def keccak : Keccak := fun b => ⟨(b.reverse ++ List.replicate 32 0).take 32, by simp⟩

def hash (h : Header) : Hash := bytesToHash [UInt8.ofNat h.number]

def block (number : Nat) (logs : List Log) : Block where
  header :=
    { parentHash := Hash.zero, uncleHash := Hash.zero, coinbase := bytesToAddress [],
      root := Hash.zero, txHash := Hash.zero, receiptHash := Hash.zero,
      bloom := (createBloom keccak [⟨logs⟩]).getD Bloom.zero, difficulty := 1, number := number,
      gasLimit := 0, gasUsed := 0, time := 0, extra := [], mixDigest := Hash.zero,
      nonce := zeroBytes 8 }
  receipts := [⟨logs⟩]

theorem createBloom_block (number : Nat) (logs : List Log) :
    createBloom keccak (block number logs).receipts = some (block number logs).header.bloom := by
  obtain ⟨bloom, hbloom, _⟩ := createBloom_eq keccak [⟨logs⟩]
  have hheader : (createBloom keccak [⟨logs⟩]).getD Bloom.zero = bloom := by
    rw [hbloom, getD_some]
  exact hbloom.trans (congrArg some hheader.symm)

def chain : List Block :=
  [block 0 [log 7 1 0, log 8 1 1], block 1 [log 8 1 2], block 2 [log 7 2 3, log 7 1 4]]

/-- Sections of one block, of which the first two are indexed. -/
def backend : Backend Empty where
  headerByNumber n := .ok (chain[toUint64 (if n = -1 then 2 else n)]?.map Block.header)
  getReceipts h := .ok (((chain.find? fun b => hash b.header = h).map Block.receipts).getD [])
  getLogs h := .ok ((((chain.find? fun b => hash b.header = h).map Block.receipts).getD []).map
    Receipt.logs)
  size := 1
  sections := 2
  session addresses topics first last := .ok ((List.range chain.length).filter fun n =>
    decide (first ≤ n ∧ n ≤ last) && chain[n]?.any fun b =>
      bloomFilter keccak b.header.bloom addresses topics, none)

theorem serves : Serves backend hash keccak chain where
  length := by decide
  number n block h := by
    obtain ⟨hn, rfl⟩ := List.getElem?_eq_some_iff.1 h
    have hall : ∀ i : Fin 3, (chain.get i).header.number = i := by decide
    exact hall ⟨n, hn⟩
  bloom := by
    simp only [chain, List.forall_mem_cons, List.not_mem_nil, false_implies, implies_true, and_true]
    exact ⟨createBloom_block _ _, createBloom_block _ _, createBloom_block _ _⟩
  latest := rfl
  header n hn _ := by
    change Except.ok (chain[toUint64 (if n = -1 then 2 else n)]?.map Block.header) = _
    rw [if_neg hn]
  receipts := by
    simp only [chain, List.forall_mem_cons, List.not_mem_nil, false_implies, implies_true, and_true]
    exact ⟨rfl, rfl, rfl⟩
  logs := by
    have hraw : Unresolved id := ⟨fun _ => rfl, fun _ => rfl, .inl fun _ => rfl⟩
    simp only [chain, List.forall_mem_cons, List.not_mem_nil, false_implies, implies_true, and_true]
    exact ⟨⟨id, hraw, rfl⟩, ⟨id, hraw, rfl⟩, ⟨id, hraw, rfl⟩⟩
  session addresses topics first last hlast := by
    refine ⟨_, rfl, List.pairwise_lt_range.filter _, fun n => ?_⟩
    rw [List.mem_filter, List.mem_range, Bool.and_eq_true, decide_eq_true_iff,
      Option.any_eq_true]
    constructor
    · rintro ⟨-, ⟨hfirst, hle⟩, hblock⟩
      exact ⟨hfirst, hle, hblock⟩
    · rintro ⟨hfirst, hle, block, hblock, hbloom⟩
      exact ⟨(List.getElem?_eq_some_iff.1 hblock).1, ⟨hfirst, hle⟩, block, hblock, hbloom⟩

/-- One log of an indexed block and one of a block that is not, in order. -/
theorem logs_exact_sample :
    (⟨0, -1, [bytesToAddress [7]], [[bytesToHash [1]]]⟩ : Filter).logs backend hash keccak 4 =
      some ([log 7 1 0, log 7 1 4], none) :=
  (Filter.logs_exact serves _ (.inr (by decide)) (.inl rfl) (by decide)).trans (by rfl)

end Sample

end Geth.Eth
