import Geth.Vm.GasTable
import Mathlib.Data.UInt

/-!
# The gas for memory

`memoryGasCost` charges for the words by which the memory grows, as the difference to the cost of
the words that have been paid for. The square of the number of words is taken in 64 bits: it wraps
around from 2 ^ 32 words on, far below the largest size that is let through.
-/

namespace Geth.Vm

open List

/-- The gas for a memory of so many words, over the natural numbers. -/
def cmem (words : Nat) : Nat := 3 * words + words * words / 512

/-- The words that hold so many bytes. -/
def wordsOf (size : Nat) : Nat := (size + 31) / 32

namespace Memory

/-- A memory of so many words that has been paid for. -/
structure Paid (mem : Memory) (words : Nat) : Prop where
  len : mem.len = 32 * words
  addressable : mem.len < 2 ^ 64
  cost : mem.lastGasCost.toNat = cmem words

theorem new_paid : new.Paid 0 := ⟨rfl, by decide, rfl⟩

/-- An expansion, as a round of the interpreter makes it: the gas, and the memory after it. -/
def expand (mem : Memory) (size : UInt64) : Option (UInt64 × Memory) :=
  match safeMul (toWordSize size) 32 with
  | none => none
  | some memorySize =>
    match memoryGasCost mem memorySize with
    | (none, _) => none
    | (some fee, mem) => some (fee, if memorySize > 0 then mem.resize memorySize else mem)

/-- A run of expansions, and the gas that is charged for all of them. -/
def expandAll : List UInt64 → Memory → Option (Nat × Memory)
  | [], mem => some (0, mem)
  | size :: sizes, mem =>
    match mem.expand size with
    | none => none
    | some (fee, mem) => (expandAll sizes mem).map fun (total, mem) => (fee.toNat + total, mem)

end Memory

/-! ## Words -/

theorem toNat_toWordSize (size : UInt64) (h : size.toNat < 2 ^ 64 - 31) :
    (toWordSize size).toNat = wordsOf size.toNat := by
  have hmax : (UInt64.ofNat (2 ^ 64 - 1) - 31).toNat = 2 ^ 64 - 32 := by decide
  have hle : ¬ size > UInt64.ofNat (2 ^ 64 - 1) - 31 := by
    rw [gt_iff_lt, UInt64.lt_iff_toNat_lt, hmax]
    omega
  have h31 : (31 : UInt64).toNat = 31 := rfl
  have h32 : (32 : UInt64).toNat = 32 := rfl
  rw [toWordSize, if_neg hle, UInt64.toNat_div, UInt64.toNat_add, h31, h32, wordsOf,
    Nat.mod_eq_of_lt (by omega)]

theorem wordsOf_le {size words : Nat} (h : size ≤ 32 * words) : wordsOf size ≤ words := by
  unfold wordsOf
  omega

theorem wordsOf_mul (words : Nat) : wordsOf (32 * words) = words := by
  unfold wordsOf
  omega

variable {w : Nat}

theorem cmem_mono {w' : Nat} (h : w ≤ w') : cmem w ≤ cmem w' := by
  have := Nat.div_le_div_right (c := 512) (Nat.mul_le_mul h h)
  unfold cmem
  omega

theorem cmem_lt (h : w < 2 ^ 35) : cmem w < 2 ^ 62 := by
  have hsq : w * w ≤ (2 ^ 35 - 1) * (2 ^ 35 - 1) := Nat.mul_le_mul (by omega) (by omega)
  unfold cmem
  omega

/-! ## One expansion -/

section Cost

variable {mem : Memory} {words : Nat} {size : UInt64}

theorem memoryGasCost_large (mem : Memory) (h : 0xffffffffe0 < size) :
    (memoryGasCost mem size).1 = none := by
  have h0 : size ≠ 0 := by
    rintro rfl
    exact absurd h (by decide)
  rw [memoryGasCost, if_neg h0, if_pos h]

theorem memoryGasCost_of_le (hp : mem.Paid words) (h : size ≤ 0xffffffffe0)
    (hw : wordsOf size.toNat ≤ words) : memoryGasCost mem size = (some 0, mem) := by
  unfold memoryGasCost
  split
  · rfl
  · have hsize : size.toNat ≤ 0xffffffffe0 := UInt64.le_iff_toNat_le.1 h
    have hlen := hp.addressable
    have hwords := toNat_toWordSize size (by omega)
    have hbound : wordsOf size.toNat ≤ 0x7ffffffff := wordsOf_le (by omega)
    rw [if_neg (UInt64.not_lt.2 h)]
    rw [if_neg]
    rw [gt_iff_lt, UInt64.not_lt, UInt64.le_iff_toNat_le, UInt64.toNat_mul, hwords,
      UInt64.toNat_ofNat_of_lt' hlen, hp.len, show (32 : UInt64).toNat = 32 from rfl,
      Nat.mod_eq_of_lt (by omega)]
    omega

theorem memoryGasCost_of_lt (hp : mem.Paid words) (h : size ≤ 0xffffffffe0)
    (hw : words < wordsOf size.toNat) : ∃ total : UInt64, memoryGasCost mem size =
        (some (total - mem.lastGasCost), { mem with lastGasCost := total }) ∧
      total.toNat = 3 * wordsOf size.toNat +
        wordsOf size.toNat * wordsOf size.toNat % 2 ^ 64 / 512 := by
  have hsize : size.toNat ≤ 0xffffffffe0 := UInt64.le_iff_toNat_le.1 h
  have hlen := hp.addressable
  have hwords := toNat_toWordSize size (by omega)
  have hbound : wordsOf size.toNat ≤ 0x7ffffffff := wordsOf_le (by omega)
  have h0 : size ≠ 0 := by
    rintro rfl
    exact Nat.not_lt_zero _ hw
  have hgrow : toWordSize size * 32 > UInt64.ofNat mem.len := by
    rw [gt_iff_lt, UInt64.lt_iff_toNat_lt, UInt64.toNat_mul, hwords, UInt64.toNat_ofNat_of_lt' hlen,
      hp.len, show (32 : UInt64).toNat = 32 from rfl, Nat.mod_eq_of_lt (by omega)]
    omega
  refine ⟨toWordSize size * memoryGas + toWordSize size * toWordSize size / quadCoeffDiv, ?_, ?_⟩
  · rw [memoryGasCost, if_neg h0, if_neg (UInt64.not_lt.2 h), if_pos hgrow]
  · rw [UInt64.toNat_add, UInt64.toNat_div, UInt64.toNat_mul, UInt64.toNat_mul, hwords,
      show memoryGas.toNat = 3 from rfl, show quadCoeffDiv.toNat = 512 from rfl,
      Nat.mod_eq_of_lt (by omega : wordsOf size.toNat * 3 < 2 ^ 64), Nat.mod_eq_of_lt (by omega),
      Nat.mul_comm]

theorem wrapped_lt (h : 2 ^ 32 ≤ w) : w * w % 2 ^ 64 / 512 < w * w / 512 := by
  have : 2 ^ 32 * 2 ^ 32 ≤ w * w := Nat.mul_le_mul h h
  omega

theorem square_lt (h : w < 2 ^ 32) : w * w < 2 ^ 64 := by
  have : w * w ≤ (2 ^ 32 - 1) * (2 ^ 32 - 1) := Nat.mul_le_mul (by omega) (by omega)
  omega

theorem fee_exact_iff (hp : mem.Paid words) (h : size ≤ 0xffffffffe0) :
    (∃ fee, (memoryGasCost mem size).1 = some fee ∧
      fee.toNat = cmem (max words (wordsOf size.toNat)) - cmem words) ↔
    wordsOf size.toNat ≤ words ∨ wordsOf size.toNat < 2 ^ 32 := by
  rcases Nat.lt_or_ge words (wordsOf size.toNat) with hw | hw
  · obtain ⟨total, hcost, htotal⟩ := memoryGasCost_of_lt hp h hw
    have hmono := cmem_mono (Nat.le_of_lt hw)
    have hsize : size.toNat ≤ 0xffffffffe0 := UInt64.le_iff_toNat_le.1 h
    have hbound : wordsOf size.toNat ≤ 0x7ffffffff := wordsOf_le (by omega)
    have hfit := cmem_lt (w := wordsOf size.toNat) (by omega)
    rw [hcost, Nat.max_eq_right (Nat.le_of_lt hw)]
    constructor
    · rintro ⟨fee, hfee, hexact⟩
      obtain rfl := Option.some.inj hfee
      refine .inr (Nat.lt_of_not_le fun hge => ?_)
      -- the total would have to be the cost of all the words
      have hlost := wrapped_lt hge
      rw [UInt64.toNat_sub, hp.cost, htotal] at hexact
      unfold cmem at hexact hmono hfit
      omega
    · intro hlt
      have hsq := square_lt (hlt.resolve_left (Nat.not_le.2 hw))
      refine ⟨_, rfl, ?_⟩
      rw [UInt64.toNat_sub, hp.cost, htotal]
      unfold cmem at hmono hfit ⊢
      omega
  · rw [memoryGasCost_of_le hp h hw, Nat.max_eq_left hw]
    exact ⟨fun _ => .inl hw, fun _ => ⟨0, rfl, by rw [Nat.sub_self]; rfl⟩⟩

end Cost

/-! ## Runs of expansions -/

namespace Memory

theorem len_resize (mem : Memory) (size : UInt64) : (mem.resize size).len = max mem.len
    size.toNat := by
  unfold resize
  split
  · rw [len, length_append, length_replicate, ← len]
    omega
  · omega

variable {mem : Memory}

theorem paid_resize {words : Nat} {bytes : UInt64} (hlen : mem.len = 32 * words)
    (hmax : mem.len < 2 ^ 64) (hbytes : bytes.toNat = 32 * w)
    (hcost : mem.lastGasCost.toNat = cmem (max words w)) :
    (if bytes > 0 then mem.resize bytes else mem).Paid (max words w) := by
  have hlast : (mem.resize bytes).lastGasCost = mem.lastGasCost := by
    unfold resize
    split <;> rfl
  have hlt := bytes.toNat_lt
  split
  · exact ⟨by rw [len_resize]; omega, by rw [len_resize]; omega, by rw [hlast, hcost]⟩
  · next h0 =>
    have hzero : bytes.toNat = 0 := by
      have := UInt64.le_iff_toNat_le.1 (UInt64.not_lt.1 h0)
      exact Nat.le_zero.1 this
    exact ⟨by omega, hmax, hcost⟩

theorem Paid.expand {words : Nat} (hp : mem.Paid words) {size : UInt64}
    (h : size ≤ 0x1fffffffe0) : ∃ (fee : UInt64) (mem' : Memory), mem.expand size = some
      (fee, mem') ∧
      fee.toNat = cmem (max words (wordsOf size.toNat)) - cmem words ∧
      mem'.Paid (max words (wordsOf size.toNat)) := by
  have hsize : size.toNat ≤ 0x1fffffffe0 := UInt64.le_iff_toNat_le.1 h
  have hwords := toNat_toWordSize size (by omega)
  have hbound : wordsOf size.toNat ≤ 0xffffffff := wordsOf_le (by omega)
  have hbytes : (toWordSize size * 32).toNat = 32 * wordsOf size.toNat := by
    rw [UInt64.toNat_mul, hwords, show (32 : UInt64).toNat = 32 from rfl, Nat.mul_comm,
      Nat.mod_eq_of_lt (by omega)]
  have hmul : safeMul (toWordSize size) 32 = some (toWordSize size * 32) := by
    unfold safeMul
    split
    · next hz =>
      have hz := hz.resolve_right (by decide)
      rw [hz, UInt64.zero_mul]
    · next hz =>
      have hpos : 0 < wordsOf size.toNat := by
        rw [← hwords]
        exact Nat.pos_of_ne_zero fun h0 => hz (.inl (UInt64.toNat_inj.1 h0))
      rw [if_neg]
      rw [gt_iff_lt, UInt64.not_lt, UInt64.le_iff_toNat_le, UInt64.toNat_div, hwords,
        show (32 : UInt64).toNat = 32 from rfl]
      rw [Nat.le_div_iff_mul_le hpos]
      have : (UInt64.ofNat (2 ^ 64 - 1)).toNat = 2 ^ 64 - 1 := by decide
      omega
  -- the memory is asked for in whole words
  rw [Memory.expand, hmul]
  dsimp only
  generalize toWordSize size * 32 = bytes at *
  generalize wordsOf size.toNat = w at *
  have hle : bytes ≤ 0xffffffffe0 := by
    rw [UInt64.le_iff_toNat_le, hbytes]
    change 32 * w ≤ 0xffffffffe0
    omega
  have hw : wordsOf bytes.toNat = w := by rw [hbytes, wordsOf_mul]
  obtain ⟨fee, hfee, hexact⟩ := (fee_exact_iff hp hle).2 (.inr (by omega))
  rw [hw] at hexact
  rcases Nat.lt_or_ge words w with hlt | hge
  · obtain ⟨total, hcost, htotal⟩ := memoryGasCost_of_lt hp hle (by rwa [hw])
    rw [hcost] at hfee ⊢
    rw [hw, Nat.mod_eq_of_lt (square_lt (by omega))] at htotal
    obtain rfl := Option.some.inj hfee
    refine ⟨_, _, rfl, hexact, paid_resize hp.len hp.addressable hbytes ?_⟩
    rw [Nat.max_eq_right (Nat.le_of_lt hlt)]
    exact htotal
  · have hcost := memoryGasCost_of_le hp hle (by rwa [hw])
    rw [hcost] at hfee ⊢
    obtain rfl := Option.some.inj hfee
    refine ⟨_, _, rfl, hexact, paid_resize hp.len hp.addressable hbytes ?_⟩
    rw [Nat.max_eq_left hge]
    exact hp.cost

/-- The words of a memory after a run of expansions. -/
def grown (words : Nat) (sizes : List UInt64) : Nat :=
  sizes.foldl (fun words size => max words (wordsOf size.toNat)) words

theorem le_grown (words : Nat) (sizes : List UInt64) : words ≤ grown words sizes := by
  induction sizes generalizing words with
  | nil => exact Nat.le_refl words
  | cons size sizes ih => exact Nat.le_trans (Nat.le_max_left _ _) (ih _)

/-- What a run of expansions to less than 2 ^ 32 words charges depends on its end alone. -/
theorem Paid.expandAll {words : Nat} (hp : mem.Paid words) {sizes : List UInt64}
    (h : ∀ size ∈ sizes, size ≤ 0x1fffffffe0) :
    ∃ mem', expandAll sizes mem = some (cmem (grown words sizes) - cmem words, mem') ∧
      mem'.Paid (grown words sizes) := by
  induction sizes generalizing mem words with
  | nil => exact ⟨mem, by rw [grown, foldl_nil, Nat.sub_self]; rfl, hp⟩
  | cons size sizes ih =>
    obtain ⟨fee, mem1, hstep, hfee, hp1⟩ := hp.expand (h size mem_cons_self)
    obtain ⟨mem2, hrun, hp2⟩ := ih hp1 fun s hs => h s (mem_cons_of_mem size hs)
    refine ⟨mem2, ?_, hp2⟩
    have h1 := cmem_mono (Nat.le_max_left words (wordsOf size.toNat))
    have h2 := cmem_mono (le_grown (max words (wordsOf size.toNat)) sizes)
    rw [Memory.expandAll, hstep]
    dsimp only
    rw [hrun, Option.map_some, hfee]
    refine congrArg some (Prod.ext ?_ rfl)
    change _ = cmem (grown (max words (wordsOf size.toNat)) sizes) - cmem words
    omega

end Memory

/-! ## The cost is exact below 2 ^ 32 words -/

/-- Beyond the largest size there is an error. Up to it the fee is the difference of the costs
exactly when the memory does not grow or has less than 2 ^ 32 words; a run of such expansions
charges for its end alone. -/
theorem memoryGasCost_exact (mem : Memory) (words : Nat) (hp : mem.Paid words) :
    (∀ size, 0xffffffffe0 < size → (memoryGasCost mem size).1 = none) ∧
    (∀ size ≤ 0xffffffffe0, (∃ fee, (memoryGasCost mem size).1 = some fee ∧
        fee.toNat = cmem (max words (wordsOf size.toNat)) - cmem words) ↔
      wordsOf size.toNat ≤ words ∨ wordsOf size.toNat < 2 ^ 32) ∧
    ∀ sizes : List UInt64, (∀ size ∈ sizes, size ≤ 0x1fffffffe0) →
      ∃ mem', Memory.expandAll sizes mem =
          some (cmem (Memory.grown words sizes) - cmem words, mem') ∧
        mem'.Paid (Memory.grown words sizes) :=
  ⟨fun _ => memoryGasCost_large mem, fun _ => fee_exact_iff hp, fun _ => hp.expandAll⟩

/-- From an empty memory: three expansions, of which the second asks for less than the first. -/
theorem memoryGasCost_exact_new : ∃ mem, Memory.expandAll [100, 32, 1024] Memory.new = some
    (98, mem) ∧
    mem.Paid 32 := by
  obtain ⟨-, -, hrun⟩ := memoryGasCost_exact Memory.new 0 Memory.new_paid
  refine hrun [100, 32, 1024] (List.forall_mem_cons.2 ⟨by decide, List.forall_mem_cons.2
    ⟨by decide, List.forall_mem_singleton.2 (by decide)⟩⟩)

/-- 2 ^ 32 words cost 3 * 2 ^ 32, since their square is zero in 64 bits. -/
theorem memoryGasCost_wraps : (memoryGasCost Memory.new 0x2000000000).1 = some (3 * 2 ^ 32) ∧
    (3 * 2 ^ 32 : UInt64).toNat ≠ cmem (wordsOf 0x2000000000) - cmem 0 := by
  decide

end Geth.Vm
