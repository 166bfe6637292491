import Geth.Vm.Precompiles

/-!
# Modular exponentiation

The lengths of the operands are 256-bit numbers, of which `Run` takes the low 64 bits. The price
makes most lengths that do not fit, or that cannot be allocated, unaffordable; not so the length of
the exponent, when the base and the modulus are short.
-/

namespace Geth.Vm.BigModExp

open Lib List Option

/-! ## The specification -/

/-- So many bytes from a position on; the data goes on with zeros. -/
def window (data : Bytes) (off len : Nat) : Bytes :=
  (data.drop off).take len ++ List.replicate (len - (data.length - off)) 0

/-- The number in so many bytes from a position on. -/
def number (data : Bytes) (off len : Nat) : Nat := beNat (window data off len)

def baseLen (input : Bytes) : Nat := number input 0 32

def expLen (input : Bytes) : Nat := number input 32 32

def modLen (input : Bytes) : Nat := number input 64 32

/-- The power modulo the modulus, from operands of the given lengths; zero modulo zero. -/
def value (data : Bytes) (b e m : Nat) : Nat :=
  if number data (b + e) m = 0 then 0
  else number data 0 b ^ number data b e % number data (b + e) m

/-- A number with zeros in front. -/
def fixedBytes (n v : Nat) : Bytes := List.replicate (n - (beBytes v).length) 0 ++ beBytes v

/-- The result of EIP-198. -/
def eip198 (input : Bytes) : Bytes :=
  fixedBytes (modLen input) (value (input.drop 96) (baseLen input) (expLen input) (modLen input))

/-- The index of the highest bit of the first 32 bytes of the exponent. -/
def highestBit (input : Bytes) : Nat :=
  (number (input.drop 96) (baseLen input) (min (expLen input) 32)).log2

/-- The complexity of a multiplication. -/
def multComplexity (x : Nat) : Nat :=
  if x ≤ 64 then x * x
  else if x ≤ 1024 then x * x / 4 + 96 * x - 3072
  else x * x / 16 + 480 * x - 199680

/-- The price of EIP-198. -/
def eip198Gas (input : Bytes) : Nat :=
  multComplexity (max (modLen input) (baseLen input)) *
    max (8 * (expLen input - 32) + highestBit input) 1 / 20

/-! ## Reading the input -/

section Data

variable {data : Bytes} {start size : UInt64}

theorem getData_slice (start size : UInt64) (hdata : data.length < 2 ^ 63) : ∃ i j : UInt64,
    getData data start size = (slice data i j).bind (fun b => rightPadBytes b (intOfUint64 size)) ∧
    i.toNat = min start.toNat data.length ∧
    j.toNat = min ((min start.toNat data.length + size.toNat) % 2 ^ 64) data.length := by
  have hlen : (UInt64.ofNat data.length).toNat = data.length :=
    UInt64.toNat_ofNat_of_lt' (Nat.lt_trans hdata (by decide))
  have hmin : ∀ x : UInt64, (if x > UInt64.ofNat data.length then UInt64.ofNat data.length
      else x).toNat = min x.toNat data.length := by
    intro x
    split
    · next h =>
      rw [gt_iff_lt, UInt64.lt_iff_toNat_lt, hlen] at h
      omega
    · next h =>
      rw [gt_iff_lt, UInt64.lt_iff_toNat_lt, hlen] at h
      omega
  refine ⟨_, _, rfl, hmin start, ?_⟩
  rw [hmin, UInt64.toNat_add, hmin]

theorem getData_eq (hdata : data.length < 2 ^ 63)
    (h : min start.toNat data.length + size.toNat < 2 ^ 64) :
    getData data start size =
      rightPadBytes ((data.drop start.toNat).take size.toNat) (intOfUint64 size) := by
  obtain ⟨i, j, hget, hi, hj⟩ := getData_slice start size hdata
  have hij : i ≤ j := UInt64.le_iff_toNat_le.2 (by omega)
  rw [hget, slice, if_pos ⟨hij, by omega⟩, bind_some, UInt64.toNat_sub_of_le _ _ hij, hi, hj]
  congr 1
  rcases Nat.lt_or_ge start.toNat data.length with hs | hs
  · rw [Nat.min_eq_left (Nat.le_of_lt hs)]
    refine take_eq_take_iff.2 ?_
    rw [length_drop]
    omega
  · rw [drop_eq_nil_of_le hs, drop_eq_nil_of_le (by omega), take_nil, take_nil]

theorem getData_none (hdata : data.length < 2 ^ 63)
    (h : 2 ^ 64 ≤ min start.toNat data.length + size.toNat) : getData data start size = none := by
  obtain ⟨i, j, hget, hi, hj⟩ := getData_slice start size hdata
  have hsize := size.toNat_lt
  have hij : ¬ i ≤ j := by
    rw [UInt64.le_iff_toNat_le]
    omega
  rw [hget, slice, if_neg fun hc => hij hc.1, bind_none]

theorem intOfUint64_of_lt (h : size.toNat < 2 ^ 63) : intOfUint64 size = size.toNat := by
  exact if_pos (by have : size.toBitVec.toNat = size.toNat := rfl; omega)

theorem intOfUint64_neg (h : 2 ^ 63 ≤ size.toNat) : intOfUint64 size < 0 := by
  rw [intOfUint64, BitVec.toInt, if_neg]
  · omega
  · have : size.toBitVec.toNat = size.toNat := rfl
    omega

theorem length_piece (data : Bytes) (start size : UInt64) :
    ((data.drop start.toNat).take size.toNat).length =
      min size.toNat (data.length - start.toNat) := by
  rw [length_take, length_drop]

/-- Reading gives the window when it can be allocated, or when nothing has to be. -/
theorem getData_window (start : UInt64) (hdata : data.length < 2 ^ 63)
    (hsize : size.toNat ≤ maxAlloc ∨
      size.toNat < 2 ^ 63 ∧ start.toNat + size.toNat ≤ data.length) :
    getData data start size = some (window data start.toNat size.toNat) := by
  have hmax : maxAlloc = 2 ^ 48 := rfl
  have hlen := length_piece data start size
  rw [getData_eq hdata (by omega), intOfUint64_of_lt (by omega), rightPadBytes, padBytes, window]
  split
  · next h =>
    have : size.toNat - (data.length - start.toNat) = 0 := by omega
    rw [this, replicate_zero, append_nil]
  · next h =>
    rw [if_pos (by omega)]
    congr 3
    omega

theorem getData_overlong (hdata : data.length < 2 ^ 63) (hsize : maxAlloc < size.toNat)
    (hint : size.toNat < 2 ^ 63) (hend : data.length < start.toNat + size.toNat) :
    getData data start size = none := by
  have hlen := length_piece data start size
  rw [getData_eq hdata (by omega), intOfUint64_of_lt hint, rightPadBytes, padBytes,
    if_neg (by omega), if_neg (by omega)]

end Data

theorem number_eq_zero {data : Bytes} {off : Nat} (h : data.length ≤ off) (len : Nat) :
    number data off len = 0 := by
  rw [number, window, drop_eq_nil_of_le h, take_nil, nil_append,
    ← append_nil (List.replicate _ _), beNat_replicate_append, beNat_nil]

theorem number_zero (data : Bytes) (off : Nat) : number data off 0 = 0 := by
  rw [number, window, Nat.zero_sub, take_zero]
  rfl

theorem operands_eq (input : Bytes) : operands input = input.drop 96 := by
  unfold operands
  split
  · rfl
  · next h => rw [drop_eq_nil_of_le (Nat.not_lt.1 h)]

section Input

variable {input : Bytes}

theorem lengths_eq (h : input.length < 2 ^ 63) :
    lengths input = some ((baseLen input : Int), (expLen input : Int), (modLen input : Int)) := by
  have hsize : (32 : UInt64).toNat ≤ maxAlloc := by decide
  rw [lengths, getData_window 0 h (.inl hsize), getData_window 32 h (.inl hsize),
    getData_window 64 h (.inl hsize)]
  rfl

/-! ## The price -/

theorem complexity_eq (x : Nat) : complexity (x : Int) = (multComplexity x : Int) := by
  unfold complexity multComplexity
  by_cases h1 : x ≤ 64
  · rw [if_pos h1, if_pos (by omega)]
    rfl
  by_cases h2 : x ≤ 1024
  · rw [if_neg h1, if_neg (by omega), if_pos h2, if_pos (by omega)]
    omega
  · rw [if_neg h1, if_neg (by omega), if_neg h2, if_neg (by omega)]
    omega

theorem bitLen_natCast (n : Nat) : bitLen (n : Int) - 1 = n.log2 := by
  unfold bitLen
  split
  · next h =>
    rw [Int.natCast_eq_zero.1 h]
    rfl
  · rw [Int.natAbs_natCast, Nat.add_sub_cancel]

theorem expHead_eq (h : input.length < 2 ^ 63) :
    expHead (operands input) (baseLen input) (expLen input) =
      some ((number (input.drop 96) (baseLen input) (min (expLen input) 32) : Nat) : Int) := by
  have hd : (input.drop 96).length < 2 ^ 63 := by
    rw [length_drop]
    omega
  rw [operands_eq, expHead]
  split
  · next hle => rw [number_eq_zero (by omega)]; rfl
  · next hlt =>
    have hb : (uint64 (baseLen input : Int)).toNat = baseLen input := by
      rw [uint64_toNat (by omega)]
    split
    · next he =>
      rw [getData_window _ hd (.inl (by decide)), hb, map_some, Nat.min_eq_right (by omega)]
      rfl
    · next he =>
      have hexp : (uint64 (expLen input : Int)).toNat = expLen input := by
        rw [uint64_toNat (by omega)]
      have hmax : maxAlloc = 2 ^ 48 := rfl
      rw [getData_window _ hd (.inl (by omega)), hb, hexp, map_some, Nat.min_eq_left (by omega)]
      rfl

theorem adjExpLen_eq (e n : Nat) :
    adjExpLen (e : Int) (n : Int) = ((8 * (e - 32) + n.log2 : Nat) : Int) := by
  rw [adjExpLen, bitLen_natCast]
  split <;> omega

theorem requiredGas_eq (h : input.length < 2 ^ 63) :
    requiredGas input = some (UInt64.ofNat (min (eip198Gas input) (2 ^ 64 - 1))) := by
  have hgas : complexity (max (modLen input : Int) (baseLen input)) * max (adjExpLen (expLen input)
        ((number (input.drop 96) (baseLen input) (min (expLen input) 32) : Nat) : Int)) 1 / 20 =
      (eip198Gas input : Int) := by
    rw [adjExpLen_eq, ← Nat.cast_max, complexity_eq, ← Nat.cast_one, ← Nat.cast_max, ← Nat.cast_mul,
      eip198Gas, highestBit]
    rfl
  rw [requiredGas, lengths_eq h]
  change (expHead _ _ _).bind _ = _
  rw [expHead_eq h, bind_some, hgas]
  refine congrArg some ?_
  split
  · next hbig =>
    rw [gt_iff_lt, ← not_le, bitLen_le_iff, Int.natAbs_natCast] at hbig
    rw [Nat.min_eq_right (by omega)]
  · next hsmall =>
    rw [not_lt, bitLen_le_iff, Int.natAbs_natCast] at hsmall
    rw [Nat.min_eq_left (by omega), uint64, Int.natAbs_natCast]

end Input

/-! ## The power -/

theorem powMod_foldr (b m : Nat) (bits : List Nat) (h : ∀ bit ∈ bits, bit < 2) :
    bits.foldr (fun bit acc => acc * acc * (if bit = 1 then b else 1) % m) (1 % m) =
      b ^ Nat.ofDigits 2 bits % m := by
  induction bits with
  | nil => rw [foldr_nil, Nat.ofDigits_nil, Nat.pow_zero]
  | cons bit bits ih =>
    have hbit := h bit mem_cons_self
    rw [foldr_cons, ih fun x hx => h x (mem_cons_of_mem bit hx), Nat.ofDigits_cons, pow_add,
      pow_mul', pow_two]
    have hone : (if bit = 1 then b else 1) = b ^ bit := by
      split
      · next hb => rw [hb, pow_one]
      · next hb => rw [show bit = 0 by omega, pow_zero]
    rw [hone, Nat.mul_comm (b ^ bit)]
    exact ((Nat.mod_modEq _ m).mul (Nat.mod_modEq _ m)).mul_right _

theorem powMod_eq (b e m : Nat) : powMod b e m = b ^ e % m := by
  rw [powMod, powMod_foldr b m _ fun bit h => Nat.digits_lt_base (by decide) h, Nat.ofDigits_digits]

/-! ## Operands that can be paid for -/

theorem le_multComplexity (x : Nat) : x ≤ multComplexity x := by
  unfold multComplexity
  split
  · exact Nat.le_mul_self x
  · split <;> omega

theorem mul_self_le_multComplexity {x : Nat} (h : 1024 < x) : x * x / 16 ≤ multComplexity x := by
  rw [multComplexity, if_neg (by omega), if_neg (by omega)]
  omega

theorem mul_self_multComplexity {x : Nat} (h : x ≤ 64) : multComplexity x = x * x := if_pos h

section Input

variable {input : Bytes}

/-- The lengths that can be paid for: an exponent of half of the 64-bit range leaves no more than
two bytes to the base and to the modulus, one of nearly all of it no more than one. -/
theorem affordable (h : eip198Gas input < 2 ^ 64) : max (modLen input) (baseLen input) < 2 ^ 48 ∧
    (2 ^ 63 ≤ expLen input → max (modLen input) (baseLen input) ≤ 2) ∧
    (2 ^ 64 - 2 ≤ expLen input → max (modLen input) (baseLen input) ≤ 1) := by
  unfold eip198Gas at h
  generalize max (modLen input) (baseLen input) = x at h ⊢
  generalize expLen input = e at h ⊢
  have hadj : 8 * (e - 32) ≤ max (8 * (e - 32) + highestBit input) 1 :=
    Nat.le_trans (Nat.le_add_right _ _) (Nat.le_max_left _ _)
  have hone : 1 ≤ max (8 * (e - 32) + highestBit input) 1 := Nat.le_max_right _ _
  refine ⟨?_, fun he => ?_, fun he => ?_⟩
  · by_contra hx
    rw [Nat.not_lt] at hx
    have hsq := Nat.mul_le_mul hx hx
    have hm := mul_self_le_multComplexity (Nat.lt_of_lt_of_le (by decide) hx)
    have := Nat.mul_le_mul hm hone
    omega
  · by_contra hx
    have hm : 9 ≤ multComplexity x := by
      rcases Nat.lt_or_ge 64 x with h64 | h64
      · exact Nat.le_trans (by omega) (le_multComplexity x)
      · rw [mul_self_multComplexity h64]
        exact Nat.mul_le_mul (by omega : 3 ≤ x) (by omega : 3 ≤ x)
    have := Nat.mul_le_mul hm hadj
    omega
  · by_contra hx
    have hm : 4 ≤ multComplexity x := by
      rcases Nat.lt_or_ge 64 x with h64 | h64
      · exact Nat.le_trans (by omega) (le_multComplexity x)
      · rw [mul_self_multComplexity h64]
        exact Nat.mul_le_mul (by omega : 2 ≤ x) (by omega : 2 ≤ x)
    have := Nat.mul_le_mul hm hadj
    omega

/-! ## The result -/

/-- The end of the exponent wraps around: a base of one byte that the input has, and an exponent
that is a byte short of the 64-bit range. -/
def WrapsExp (input : Bytes) : Prop :=
  baseLen input = 1 ∧ 96 < input.length ∧ expLen input % 2 ^ 64 = 2 ^ 64 - 1

instance (input : Bytes) : Decidable (WrapsExp input) :=
  inferInstanceAs (Decidable (_ ∧ _ ∧ _))

/-- The exponent is too long to allocate: `getData` pads what the input has of it. -/
def OverlongExp (input : Bytes) : Prop :=
  (baseLen input ≠ 0 ∨ modLen input ≠ 0) ∧ maxAlloc < expLen input % 2 ^ 64 ∧
    expLen input % 2 ^ 64 < 2 ^ 63 ∧ input.length - 96 < baseLen input + expLen input % 2 ^ 64

instance decidableOverlongExp (input : Bytes) : Decidable (OverlongExp input) :=
  inferInstanceAs (Decidable (_ ∧ _ ∧ _ ∧ _))

theorem leftPadBytes_fixed {n : UInt64} (hn : n.toNat ≤ maxAlloc) (v : Nat) :
    leftPadBytes (beBytes v) (intOfUint64 n) = some (fixedBytes n.toNat v) := by
  have hmax : maxAlloc = 2 ^ 48 := rfl
  rw [intOfUint64_of_lt (by omega), leftPadBytes, padBytes, fixedBytes, Int.toNat_natCast]
  split
  · next h => rw [Nat.sub_eq_zero_of_le (by omega), replicate_zero, nil_append]
  · rw [if_pos (by omega)]

theorem fixedBytes_injective (n : Nat) : Function.Injective (fixedBytes n) := by
  intro v w h
  have hval : ∀ u, beNat (fixedBytes n u) = u := by
    intro u
    rw [fixedBytes, beNat_replicate_append, beNat_beBytes]
  rw [← hval v, h, hval w]

/-- What `Run` does with the operands. -/
def modExp (d : Bytes) (b e m : UInt64) : Option Bytes :=
  if b = 0 ∧ m = 0 then some []
  else do
    let base ← getData d 0 b
    let exp ← getData d b e
    let mod ← getData d (b + e) m
    if beNat mod = 0 then leftPadBytes [] (intOfUint64 m)
    else leftPadBytes (beBytes (powMod (beNat base) (beNat exp) (beNat mod))) (intOfUint64 m)

theorem run_eq_modExp (h : input.length < 2 ^ 63) :
    run input = modExp (input.drop 96) (uint64 (baseLen input : Int)) (uint64 (expLen input : Int))
      (uint64 (modLen input : Int)) := by
  rw [run, lengths_eq h, bind_eq_bind, bind_some, operands_eq]
  rfl

section Operands

variable {d : Bytes} {b e m : UInt64}

theorem getData_exp (hd : d.length < 2 ^ 63) (h : min b.toNat d.length + e.toNat < 2 ^ 64)
    (halloc : ¬ (maxAlloc < e.toNat ∧ e.toNat < 2 ^ 63 ∧ d.length < b.toNat + e.toNat)) :
    ∃ exp, getData d b e = some exp ∧
      (e.toNat < 2 ^ 63 → beNat exp = number d b.toNat e.toNat) := by
  rcases Nat.lt_or_ge e.toNat (2 ^ 63) with he | he
  · exact ⟨_, getData_window b hd (by omega), fun _ => rfl⟩
  · -- the length is negative as an `int`, and nothing is padded
    have hneg := intOfUint64_neg he
    refine ⟨(d.drop b.toNat).take e.toNat, ?_, fun hlt => absurd hlt (Nat.not_lt.2 he)⟩
    rw [getData_eq hd h, rightPadBytes, padBytes, if_pos (by omega)]

/-- The modulus that `Run` reads, when the exponent ends within the 64-bit range or there is no
operand at all. -/
theorem number_wrapped (h : b.toNat + e.toNat < 2 ^ 64 ∨ d.length = 0)
    (n : Nat) : number d (b + e).toNat n = number d (b.toNat + e.toNat) n := by
  rw [UInt64.toNat_add]
  rcases h with h | h
  · rw [Nat.mod_eq_of_lt h]
  · rw [number_eq_zero (by omega), number_eq_zero (by omega)]

theorem modExp_eq (hd : d.length < 2 ^ 63) (hb : b.toNat ≤ maxAlloc) (hm : m.toNat ≤ maxAlloc)
    (htwo : 2 ^ 63 ≤ e.toNat → b.toNat ≤ 2) (hone : 2 ^ 64 - 2 ≤ e.toNat → b.toNat ≤ 1) :
    modExp d b e m = if (b.toNat = 1 ∧ 0 < d.length ∧ e.toNat = 2 ^ 64 - 1) ∨
        ((b.toNat ≠ 0 ∨ m.toNat ≠ 0) ∧ maxAlloc < e.toNat ∧ e.toNat < 2 ^ 63 ∧
          d.length < b.toNat + e.toNat) then none
      else some (fixedBytes m.toNat (value d b.toNat e.toNat m.toNat)) := by
  have hlt := e.toNat_lt
  have hmax : maxAlloc = 2 ^ 48 := rfl
  unfold modExp
  by_cases hzero : b = 0 ∧ m = 0
  · obtain ⟨rfl, rfl⟩ := hzero
    rw [if_pos ⟨rfl, rfl⟩, if_neg (by rintro (h | h) <;> simp at h), UInt64.toNat_zero,
      value, if_pos (number_zero d _)]
    rfl
  have hsome : b.toNat ≠ 0 ∨ m.toNat ≠ 0 := by
    rw [← not_and_or]
    exact fun h => hzero ⟨UInt64.toNat_inj.1 h.1, UInt64.toNat_inj.1 h.2⟩
  rw [if_neg hzero, getData_window 0 hd (.inl hb), bind_eq_bind, bind_some]
  split
  · next hpanics =>
    have hnone : getData d b e = none := by
      rcases hpanics with hwrap | ⟨-, hlong, hint, hend⟩
      · exact getData_none hd (by omega)
      · exact getData_overlong hd hlong hint hend
    rw [hnone]
    rfl
  · next hpanics =>
    obtain ⟨hwrap, hlong⟩ := not_or.1 hpanics
    have hend : min b.toNat d.length + e.toNat < 2 ^ 64 := by omega
    obtain ⟨exp, hget, hexp⟩ := getData_exp hd hend fun h => hlong ⟨hsome, h⟩
    rw [hget, bind_some, getData_window _ hd (.inl hm), bind_some]
    change (if number d (b + e).toNat m.toNat = 0 then _
      else leftPadBytes (beBytes (powMod (number d 0 b.toNat) (beNat exp)
        (number d (b + e).toNat m.toNat))) (intOfUint64 m)) = _
    rw [number_wrapped (by omega), value, ← leftPadBytes_fixed hm]
    split
    · rw [beBytes_zero]
    · next hmod =>
      -- a modulus that the input has ends the exponent below the range of `int`
      have he : e.toNat < 2 ^ 63 := by
        by_contra hge
        exact hmod (number_eq_zero (by omega) _)
      rw [hexp he, powMod_eq]

end Operands

/-- `Run` on operands that can be paid for: it reads an exponent of the low 64 bits of the length.
-/
theorem run_eq (h : input.length < 2 ^ 63) (hgas : eip198Gas input < 2 ^ 64) :
    run input = if WrapsExp input ∨ OverlongExp input then none else
      some (fixedBytes (modLen input)
        (value (input.drop 96) (baseLen input) (expLen input % 2 ^ 64) (modLen input))) := by
  obtain ⟨hx, htwo, hone⟩ := affordable hgas
  have hlen : (input.drop 96).length = input.length - 96 := length_drop
  have hb : (uint64 (baseLen input : Int)).toNat = baseLen input := by
    rw [uint64_toNat (by omega)]
  have hm : (uint64 (modLen input : Int)).toNat = modLen input := by
    rw [uint64_toNat (by omega)]
  have he := uint64_natCast (expLen input)
  have hmax : maxAlloc = 2 ^ 48 := rfl
  rw [run_eq_modExp h, modExp_eq (by omega) (by omega) (by omega) (by omega) (by omega), hb, hm, he,
    hlen]
  refine if_congr ?_ rfl rfl
  rw [WrapsExp, OverlongExp, Nat.sub_pos_iff_lt]

/-- The price is that of EIP-198, and `Run` on operands that can be paid for returns the result of
EIP-198 unless the end of the exponent wraps around, or the exponent is too long to allocate, or it
is longer than the 64-bit range and the operands that the cut length gives have another result. -/
theorem run_eip198_iff (h : input.length < 2 ^ 63) :
    requiredGas input = some (UInt64.ofNat (min (eip198Gas input) (2 ^ 64 - 1))) ∧
    (eip198Gas input < 2 ^ 64 → (run input = some (eip198 input) ↔ ¬ WrapsExp input ∧
      ¬ OverlongExp input ∧ (expLen input < 2 ^ 64 ∨
        value (input.drop 96) (baseLen input) (expLen input % 2 ^ 64) (modLen input) = 0))) := by
  refine ⟨requiredGas_eq h, fun hgas => ?_⟩
  rw [run_eq h hgas]
  split
  · next hpanics => exact ⟨nofun, fun hc => absurd hpanics (not_or.2 ⟨hc.1, hc.2.1⟩)⟩
  · next hpanics =>
    obtain ⟨hwrap, hlong⟩ := not_or.1 hpanics
    rw [Option.some_inj, eip198, (fixedBytes_injective _).eq_iff]
    rcases Nat.lt_or_ge (expLen input) (2 ^ 64) with hlt | hge
    · rw [Nat.mod_eq_of_lt hlt]
      exact ⟨fun _ => ⟨hwrap, hlong, .inl hlt⟩, fun _ => rfl⟩
    · have hpast : (input.drop 96).length ≤ baseLen input + expLen input := by
        rw [List.length_drop]
        omega
      have hzero : value (input.drop 96) (baseLen input) (expLen input) (modLen input) = 0 :=
        if_pos (number_eq_zero hpast _)
      rw [hzero]
      exact ⟨fun hv => ⟨hwrap, hlong, .inr hv⟩, fun hc => hc.2.2.resolve_left (Nat.not_lt.2 hge)⟩

end Input

/-- A base of one byte, an exponent of nearly the 64-bit range and no modulus. -/
def wrapping : Bytes :=
  List.replicate 31 0 ++ [1] ++ (List.replicate 24 0 ++ List.replicate 8 255) ++
    List.replicate 32 0 ++ [7]

/-- The price of `wrapping` fits in 64 bits, and `Run` slices out of bounds. -/
theorem run_wrapping : requiredGas wrapping = some 7378697629483820633 ∧
    eip198Gas wrapping = 7378697629483820633 ∧ eip198 wrapping = [] ∧ run wrapping = none := by
  decide

/-- Three to the fifth, modulo a hundred. -/
def smallPower : Bytes :=
  (List.replicate 31 0 ++ [1]) ++ (List.replicate 31 0 ++ [1]) ++ (List.replicate 31 0 ++ [2]) ++
    [3, 5, 0, 100]

theorem run_eip198_smallPower : requiredGas smallPower = some 0 ∧ run smallPower = some [0, 43] :=
  have hlen : smallPower.length < 2 ^ 63 := by decide
  have hgas : eip198Gas smallPower = 0 := by decide
  have hres : eip198 smallPower = [0, 43] := by decide
  ⟨by rw [(run_eip198_iff hlen).1, hgas]; rfl,
    hres ▸ ((run_eip198_iff hlen).2 (by rw [hgas]; decide)).2
      ⟨by decide, by decide, .inl (by decide)⟩⟩

end Geth.Vm.BigModExp
