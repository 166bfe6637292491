import Geth.Vm.Verify.Words

/-!
# The word operations against their specification

Words are the 256-bit vectors. `WordOp.spec` says what an operation is to compute: on the numbers
that the words stand for, unsigned or in two's complement.
-/

namespace Geth.Vm

open List

/-- A word of the machine. -/
abbrev Word := BitVec 256

/-- The integer on the stack that stands for a word. -/
def Word.embed (x : Word) : Int := (x.toNat : Int)

/-- The word of a truth value. -/
def Word.truth (b : Bool) : Word := if b then 1 else 0

def wordOne (f : Word → Word) : List Word → Option (List Word)
  | x :: st => some (f x :: st)
  | _ => none

def wordTwo (f : Word → Word → Word) : List Word → Option (List Word)
  | x :: y :: st => some (f x y :: st)
  | _ => none

def wordThree (f : Word → Word → Word → Word) : List Word → Option (List Word)
  | x :: y :: z :: st => some (f x y z :: st)
  | _ => none

/-- What an operation computes. -/
def WordOp.spec : WordOp → List Word → Option (List Word)
  | add => wordTwo (· + ·)
  | mul => wordTwo (· * ·)
  | sub => wordTwo (· - ·)
  | div => wordTwo fun x y => BitVec.ofNat 256 (x.toNat / y.toNat)
  | sdiv => wordTwo fun x y => BitVec.ofInt 256 (x.toInt.tdiv y.toInt)
  | mod => wordTwo fun x y => if y = 0 then 0 else BitVec.ofNat 256 (x.toNat % y.toNat)
  | smod => wordTwo fun x y => if y = 0 then 0 else BitVec.ofInt 256 (x.toInt.tmod y.toInt)
  | addmod => wordThree fun x y z =>
    if z = 0 then 0 else BitVec.ofNat 256 ((x.toNat + y.toNat) % z.toNat)
  | mulmod => wordThree fun x y z =>
    if z = 0 then 0 else BitVec.ofNat 256 (x.toNat * y.toNat % z.toNat)
  | exp => wordTwo fun x y => BitVec.ofNat 256 (x.toNat ^ y.toNat)
  | signextend => wordTwo fun back x =>
    if back.toNat < 31 then (x.setWidth (8 * (back.toNat + 1))).signExtend 256 else x
  | lt => wordTwo fun x y => Word.truth (decide (x.toNat < y.toNat))
  | gt => wordTwo fun x y => Word.truth (decide (x.toNat > y.toNat))
  | slt => wordTwo fun x y => Word.truth (decide (x.toInt < y.toInt))
  | sgt => wordTwo fun x y => Word.truth (decide (x.toInt > y.toInt))
  | eq => wordTwo fun x y => Word.truth (decide (x = y))
  | iszero => wordOne fun x => Word.truth (decide (x = 0))
  | and => wordTwo (· &&& ·)
  | or => wordTwo (· ||| ·)
  | xor => wordTwo (· ^^^ ·)
  | not => wordOne (~~~ ·)
  | byte => wordTwo fun i x => if i.toNat < 32 then x >>> (8 * (31 - i.toNat)) &&& 0xff else 0
  | shl => wordTwo fun shift x => x <<< shift.toNat
  | shr => wordTwo fun shift x => x >>> shift.toNat
  | sar => wordTwo fun shift x => x.sshiftRight shift.toNat

/-! ## Exponentiation -/

theorem u256_modEq (x : Int) : u256 x ≡ x [ZMOD 2 ^ 256] := Int.mod_modEq x _

theorem expWord_modEq (n word : Nat) (r b : Int) :
    (expWord n word (r, b)).1 ≡ r * b ^ (word % 2 ^ n) [ZMOD 2 ^ 256] ∧
      (expWord n word (r, b)).2 ≡ b ^ 2 ^ n [ZMOD 2 ^ 256] := by
  induction n generalizing word r b with
  | zero =>
    rw [expWord, pow_zero, Nat.mod_one, pow_zero, mul_one, pow_one]
    exact ⟨Int.ModEq.rfl, Int.ModEq.rfl⟩
  | succ n ih =>
    obtain ⟨hr, hb⟩ := ih (word / 2) (if word % 2 = 1 then u256 (r * b) else r) (u256 (b * b))
    have hsq : u256 (b * b) ≡ b ^ 2 [ZMOD 2 ^ 256] := by
      rw [pow_two]
      exact u256_modEq _
    have hmod : word % 2 ^ (n + 1) = word % 2 + 2 * (word / 2 % 2 ^ n) := by
      rw [pow_succ', Nat.mod_mul]
    refine ⟨hr.trans ?_, hb.trans ?_⟩
    · rw [hmod, pow_add, pow_mul, ← mul_assoc]
      refine Int.ModEq.mul ?_ (hsq.pow _)
      split
      · next h =>
        rw [h, pow_one]
        exact u256_modEq _
      · next h =>
        have h0 : word % 2 = 0 := by omega
        rw [h0, pow_zero, mul_one]
    · have hpow : b ^ 2 ^ (n + 1) = (b ^ 2) ^ 2 ^ n := by rw [← pow_mul, ← pow_succ']
      rw [hpow]
      exact hsq.pow _

theorem expWord_range (n word : Nat) {r : Int} (b : Int) (h : 0 ≤ r ∧ r < 2 ^ 256) :
    0 ≤ (expWord n word (r, b)).1 ∧ (expWord n word (r, b)).1 < 2 ^ 256 := by
  induction n generalizing word r b with
  | zero => exact h
  | succ n ih =>
    refine ih _ _ ?_
    split
    · exact ⟨Int.emod_nonneg _ (by decide), Int.emod_lt_of_pos _ (by decide)⟩
    · exact h

theorem exp_fold (w : Nat) (words : List Nat) (hw : ∀ word ∈ words, word < 2 ^ w) {r : Int}
    (b : Int)
    (h : 0 ≤ r ∧ r < 2 ^ 256) :
    (words.foldl (fun acc word => expWord w word acc) (r, b)).1 ≡
        r * b ^ Nat.ofDigits (2 ^ w) words [ZMOD 2 ^ 256] ∧
      0 ≤ (words.foldl (fun acc word => expWord w word acc) (r, b)).1 ∧
      (words.foldl (fun acc word => expWord w word acc) (r, b)).1 < 2 ^ 256 := by
  induction words generalizing r b with
  | nil =>
    rw [foldl_nil, Nat.ofDigits_nil, pow_zero, mul_one]
    exact ⟨Int.ModEq.rfl, h⟩
  | cons word words ih =>
    obtain ⟨hr, hb⟩ := expWord_modEq w word r b
    obtain ⟨hres, hrange⟩ := ih (fun x hx => hw x (mem_cons_of_mem word hx))
      (expWord w word (r, b)).2 (expWord_range w word b h)
    refine ⟨hres.trans ?_, hrange⟩
    rw [Nat.mod_eq_of_lt (hw word mem_cons_self)] at hr
    rw [Nat.ofDigits_cons, pow_add, ← mul_assoc, pow_mul]
    exact hr.mul (hb.pow _)

theorem exp_eq {w : Nat} (hw : 0 < w) (base exponent : Nat) :
    (exp w base exponent).1 = ((base ^ exponent % 2 ^ 256 : Nat) : Int) := by
  rw [exp, Int.natAbs_natCast]
  have hbase : 1 < 2 ^ w := Nat.one_lt_two_pow hw.ne'
  obtain ⟨hmod, hpos, hlt⟩ := exp_fold w (Nat.digits (2 ^ w) exponent)
    (fun word h => Nat.digits_lt_base hbase h) (r := 1) base ⟨by decide, by decide⟩
  rw [Nat.ofDigits_digits, one_mul] at hmod
  rw [← Int.emod_eq_of_lt hpos hlt, hmod]
  rfl

/-! ## Numbers and words -/

namespace Word

theorem embed_ofInt (i : Int) : u256 i = embed (BitVec.ofInt 256 i) := by
  rw [u256, embed, BitVec.toNat_ofInt]
  have : 0 ≤ i % ((2 ^ 256 : Nat) : Int) := Int.emod_nonneg _ (by decide)
  rw [Int.toNat_of_nonneg this]
  rfl

theorem embed_ofNat (n : Nat) : u256 n = embed (BitVec.ofNat 256 n) := by
  rfl

theorem embed_lt (x : Word) : x.embed < 2 ^ 256 := by
  have := x.isLt
  rw [embed]
  exact_mod_cast this

theorem embed_nonneg (x : Word) : 0 ≤ x.embed := Int.natCast_nonneg _

theorem s256_embed (x : Word) : s256 x.embed = x.toInt := by
  rw [s256, BitVec.toInt_eq_toNat_cond, embed]
  split <;> split <;> omega

theorem u256_embed (x : Word) : u256 x.embed = x.embed := by
  rw [u256, Int.emod_eq_of_lt x.embed_nonneg x.embed_lt]

variable {x : Word}

theorem embed_eq_zero : x.embed = 0 ↔ x = 0 := by
  rw [embed, Int.natCast_eq_zero, ← BitVec.toNat_inj]
  rfl

theorem embed_inj {y : Word} : x.embed = y.embed ↔ x = y := by
  rw [embed, embed, Int.natCast_inj, BitVec.toNat_inj]

theorem embed_truth (b : Bool) : embed (truth b) = ofBool b := by
  cases b <;> rfl

theorem embed_pos : x.embed > 0 ↔ x ≠ 0 := by
  have := x.embed_nonneg
  rw [Ne, ← embed_eq_zero]
  omega

/-! ## Unsigned arithmetic -/

theorem add_embed (x y : Word) : u256 (x.embed + y.embed) = (x + y).embed := by
  rw [embed, embed, ← Int.natCast_add, embed_ofNat, embed, embed, BitVec.toNat_add,
    BitVec.toNat_ofNat]

theorem mul_embed (x y : Word) : u256 (x.embed * y.embed) = (x * y).embed := by
  rw [embed, embed, ← Int.natCast_mul, embed_ofNat, embed, embed, BitVec.toNat_mul,
    BitVec.toNat_ofNat]

theorem sub_embed (x y : Word) : u256 (x.embed - y.embed) = (x - y).embed := by
  rw [u256, embed, embed, embed, BitVec.toNat_sub]
  omega

theorem div_embed (x y : Word) :
    div x.embed y.embed = embed (BitVec.ofNat 256 (x.toNat / y.toNat)) := by
  rw [div]
  split
  · rfl
  · next h =>
    have hy : y.toNat = 0 := by simpa [embed] using h
    rw [hy, Nat.div_zero]
    rfl

theorem mod_embed (x y : Word) :
    mod x.embed y.embed = embed (if y = 0 then 0 else BitVec.ofNat 256 (x.toNat % y.toNat)) := by
  rw [mod]
  split
  · next h => rw [if_pos (embed_eq_zero.1 h)]; rfl
  · next h =>
    rw [if_neg (embed_eq_zero.not.1 h), ← embed_ofNat, Int.natCast_emod]
    rfl

theorem modulo_embed {f : Int → Int → Int} {g : Nat → Nat → Nat}
    (hfg : ∀ m n : Nat, f m n = (g m n : Int)) (x y z : Word) :
    (if z.embed > 0 then u256 (f x.embed y.embed % z.embed) else 0) =
      embed (if z = 0 then 0 else BitVec.ofNat 256 (g x.toNat y.toNat % z.toNat)) := by
  split
  · next h =>
    rw [if_neg (embed_pos.1 h), ← embed_ofNat, Int.natCast_emod, ← hfg]
    rfl
  · next h =>
    rw [if_pos (not_not.1 (embed_pos.not.1 h))]
    rfl

/-! ## Signed arithmetic -/

theorem tdiv_eq (a b : Int) : a.tdiv b = if a.sign ≠ b.sign then -((a.natAbs : Int) / b.natAbs)
      else (a.natAbs : Int) / b.natAbs := by
  rcases a with m | m <;> rcases b with n | n
  · rcases m with _ | m <;> rcases n with _ | n
    · rfl
    · rw [if_pos (by simp [Int.sign])]; simp
    · rw [if_pos (by simp [Int.sign])]; simp
    · rw [if_neg (by simp [Int.sign])]; rfl
  · rcases m with _ | m
    · rw [if_pos (by simp [Int.sign])]; rfl
    · rw [if_pos (by simp [Int.sign])]; rfl
  · rcases n with _ | n
    · rw [if_pos (by simp [Int.sign])]; rfl
    · rw [if_pos (by simp [Int.sign])]; rfl
  · rw [if_neg (by simp [Int.sign])]; rfl

theorem sdiv_embed (x y : Word) :
    sdiv x.embed y.embed = embed (BitVec.ofInt 256 (x.toInt.tdiv y.toInt)) := by
  rw [sdiv, s256_embed, s256_embed]
  split
  · next h =>
    have : x.toInt.tdiv y.toInt = 0 := by
      rcases h with h | h <;> simp [h]
    rw [this]
    rfl
  · rw [← apply_ite u256, ← tdiv_eq, embed_ofInt]

theorem tmod_eq (a b : Int) :
    a.tmod b = if a < 0 then -((a.natAbs : Int) % b.natAbs) else (a.natAbs : Int) % b.natAbs := by
  rcases a with m | m <;> rcases b with n | n <;> simp [Int.tmod]

theorem smod_embed (x y : Word) : smod x.embed y.embed =
    embed (if y = 0 then 0 else BitVec.ofInt 256 (x.toInt.tmod y.toInt)) := by
  rw [smod, s256_embed, s256_embed]
  split
  · next h =>
    have hy : y = 0 := by
      rw [← BitVec.toInt_inj, h]
      rfl
    rw [if_pos hy]
    rfl
  · next h =>
    have hy : y ≠ 0 := by
      rintro rfl
      exact h rfl
    rw [if_neg hy, ← apply_ite u256, ← tmod_eq, embed_ofInt]

theorem slt_embed (x y : Word) :
    slt x.embed y.embed = embed (truth (decide (x.toInt < y.toInt))) := by
  have hx := x.embed_lt
  have hy := y.embed_lt
  have hx' := x.embed_nonneg
  have hy' := y.embed_nonneg
  rw [embed_truth]
  simp only [slt, ofBool, decide_eq_true_eq, ← s256_embed, s256]
  split_ifs <;> omega

theorem sgt_embed (x y : Word) :
    sgt x.embed y.embed = embed (truth (decide (x.toInt > y.toInt))) := by
  have hx := x.embed_lt
  have hy := y.embed_lt
  have hx' := x.embed_nonneg
  have hy' := y.embed_nonneg
  rw [embed_truth]
  simp only [sgt, ofBool, decide_eq_true_eq, ← s256_embed, s256]
  split_ifs <;> omega

theorem exp_embed (x y : Word) :
    (exp 64 x.embed y.embed).1 = embed (BitVec.ofNat 256 (x.toNat ^ y.toNat)) := by
  rw [embed, embed, exp_eq (by decide), embed, BitVec.toNat_ofNat]

/-! ## Bits -/

theorem not_embed (x : Word) : u256 (Int.lnot x.embed) = (~~~ x).embed := by
  have hn : Int.lnot x.embed = -(x.toNat : Int) - 1 := by
    change Int.negSucc x.toNat = _
    omega
  rw [hn, u256, embed, BitVec.toNat_not]
  omega

theorem land_embed (x y : Word) : Int.land x.embed y.embed = (x &&& y).embed := by
  rfl

theorem lor_embed (x y : Word) : Int.lor x.embed y.embed = (x ||| y).embed := by
  rfl

theorem xor_embed (x y : Word) : Int.xor x.embed y.embed = (x ^^^ y).embed := by
  rfl

theorem uint64_embed (h : x.toNat < 2 ^ 64) : (uint64 x.embed).toNat = x.toNat := by
  rw [uint64, embed, Int.natAbs_natCast, UInt64.toNat_ofNat_of_lt' h]

theorem int64_embed (h : x.toNat < 2 ^ 63) : int64 x.embed = x.toNat := by
  have hbits : (uint64 x.embed).toBitVec.toNat = x.toNat := uint64_embed (by omega)
  rw [int64, if_neg (Int.not_lt.2 x.embed_nonneg), intOfUint64, BitVec.toInt_eq_toNat_cond, hbits,
    if_pos (by omega)]

theorem byte_embed (i x : Word) : (if i.embed < 32 then byte x.embed 32 (int64 i.embed) else 0) =
    embed (if i.toNat < 32 then x >>> (8 * (31 - i.toNat)) &&& 0xff else 0) := by
  by_cases h : i.toNat < 32
  · have hi : i.embed < 32 := by
      rw [embed]
      omega
    have he : (((32 : Nat) : Int) - 1 - (i.toNat : Int)).toNat = 31 - i.toNat := by omega
    have hpow : 256 ^ (31 - i.toNat) = 2 ^ (8 * (31 - i.toNat)) := by
      rw [Nat.pow_mul]
    rw [if_pos hi, if_pos h, int64_embed (by omega), byte, if_neg (by omega), he, hpow, embed,
      Int.natAbs_natCast, embed, BitVec.toNat_and, BitVec.toNat_ushiftRight,
      Nat.shiftRight_eq_div_pow]
    exact congrArg Int.ofNat (Nat.and_two_pow_sub_one_eq_mod _ 8).symm
  · have hi : ¬ i.embed < 32 := by
      rw [embed]
      omega
    rw [if_neg hi, if_neg h]
    rfl

theorem shl_embed (shift x : Word) : shl shift.embed x.embed = embed (x <<< shift.toNat) := by
  rw [shl, u256_embed, u256_embed]
  split
  · next h =>
    rw [BitVec.shiftLeft_eq_zero (by rw [embed] at h; omega)]
    rfl
  · next h =>
    have hs : shift.toNat < 256 := by
      rw [embed] at h
      omega
    rw [uint64_embed (by omega), embed, embed, BitVec.toNat_shiftLeft, Nat.shiftLeft_eq, u256]
    rfl

theorem shr_embed (shift x : Word) : shr shift.embed x.embed = embed (x >>> shift.toNat) := by
  rw [shr, u256_embed, u256_embed]
  split
  · next h =>
    rw [BitVec.ushiftRight_eq_zero (by rw [embed] at h; omega)]
    rfl
  · next h =>
    have hs : shift.toNat < 256 := by
      rw [embed] at h
      omega
    rw [← u256_embed (x >>> shift.toNat), uint64_embed (by omega), embed, embed,
      BitVec.toNat_ushiftRight]
    rfl

/-! ## Sign extension -/

theorem ldiff_mask (k m : Nat) : Nat.ldiff (2 ^ k - 1) m = 2 ^ k - (m % 2 ^ k + 1) := by
  refine Nat.eq_of_testBit_eq fun i => ?_
  rw [Nat.testBit_ldiff, Nat.testBit_two_pow_sub_one,
    Nat.testBit_two_pow_sub_succ (Nat.mod_lt _ (Nat.two_pow_pos k)), Nat.testBit_mod_two_pow]
  by_cases h : i < k <;> simp [h]

theorem mask_cast (k : Nat) : (2 : Int) ^ k - 1 = ((2 ^ k - 1 : Nat) : Int) := by
  rw [Nat.cast_sub (Nat.two_pow_pos k)]
  rfl

theorem lor_mask (m k : Nat) :
    Int.lor (m : Int) (Int.lnot (2 ^ k - 1)) = (m % 2 ^ k : Nat) - ((2 ^ k : Nat) : Int) := by
  rw [mask_cast]
  change Int.negSucc (Nat.ldiff (2 ^ k - 1) m) = _
  rw [ldiff_mask]
  omega

theorem land_mask (m k : Nat) : Int.land (m : Int) (2 ^ k - 1) = (m % 2 ^ k : Nat) := by
  rw [mask_cast]
  change ((m &&& (2 ^ k - 1) : Nat) : Int) = _
  rw [Nat.and_two_pow_sub_one_eq_mod]

theorem signExtend_embed {back : Word} (h : back.toNat < 31) : signExtend back.embed x.embed =
      embed ((x.setWidth (8 * (back.toNat + 1))).signExtend 256) := by
  have hbit : (uint64 back.embed * 8 + 7).toNat = 8 * back.toNat + 7 := by
    rw [UInt64.toNat_add, UInt64.toNat_mul, uint64_embed (by omega),
      show (8 : UInt64).toNat = 8 from rfl, show (7 : UInt64).toNat = 7 from rfl,
      Nat.mod_eq_of_lt (by omega), Nat.mod_eq_of_lt (by omega), Nat.mul_comm]
  rw [signExtend, hbit]
  have hw : 8 * (back.toNat + 1) = 8 * back.toNat + 7 + 1 := by omega
  rw [hw]
  generalize 8 * back.toNat + 7 = k at *
  have hpow : 2 ^ (k + 1) ≤ 2 ^ 255 := Nat.pow_le_pow_right (by decide) (by omega)
  have hsplit : x.toNat % 2 ^ (k + 1) = x.toNat % 2 ^ k + 2 ^ k * (x.toNat / 2 ^ k % 2) :=
    Nat.mod_pow_succ
  have hnum : Vm.bit x.embed k = decide (x.toNat / 2 ^ k % 2 = 1) :=
    Nat.testBit_eq_decide_div_mod_eq
  have hmsb : (x.setWidth (k + 1)).msb = decide (x.toNat / 2 ^ k % 2 = 1) := by
    rw [BitVec.msb_setWidth, Nat.add_sub_cancel, BitVec.getLsbD, Nat.testBit_eq_decide_div_mod_eq,
      decide_eq_true (Nat.succ_pos k), Bool.true_and]
  have hval : embed ((x.setWidth (k + 1)).signExtend 256) =
      ((x.toNat % 2 ^ (k + 1) + if x.toNat / 2 ^ k % 2 = 1 then 2 ^ 256 - 2 ^ (k + 1) else 0 : Nat)
        :
        Int) := by
    rw [embed, BitVec.toNat_signExtend, hmsb, BitVec.toNat_setWidth, BitVec.toNat_setWidth,
      Nat.mod_eq_of_lt (by omega : x.toNat % 2 ^ (k + 1) < 2 ^ 256)]
    simp
  rw [hval, hnum]
  by_cases hb : x.toNat / 2 ^ k % 2 = 1
  · rw [if_pos (by simpa using hb), if_pos hb, embed, lor_mask, u256]
    rw [hb] at hsplit
    omega
  · rw [if_neg (by simpa using hb), if_neg hb, embed, land_mask, u256]
    have h0 : x.toNat / 2 ^ k % 2 = 0 := by omega
    rw [h0] at hsplit
    omega

theorem lt_embed (x y : Word) :
    ofBool (decide (x.embed < y.embed)) = embed (truth (decide (x.toNat < y.toNat))) := by
  rw [embed_truth]
  simp [embed]

theorem gt_embed (x y : Word) :
    ofBool (decide (x.embed > y.embed)) = embed (truth (decide (x.toNat > y.toNat))) :=
  lt_embed y x

theorem eq_embed (x y : Word) :
    ofBool (decide (x.embed = y.embed)) = embed (truth (decide (x = y))) := by
  rw [embed_truth]
  simp [embed_inj]

theorem iszero_embed (x : Word) :
    (if x.embed > 0 then 0 else 1) = embed (truth (decide (x = 0))) := by
  rw [embed_truth, ofBool]
  simp [embed_pos]

theorem sar_word (shift x : Word) : ∃ z, sar shift.embed x.embed = embed z := by
  rw [sar]
  split
  · split
    · exact ⟨_, embed_ofInt _⟩
    · exact ⟨_, embed_ofInt _⟩
  · exact ⟨_, embed_ofInt _⟩

end Word

/-! ## The operations -/

namespace WordOp

open Word

variable {ws ws' : List Word}

theorem one_embed {f : Int → Int} {g : Word → Word} (h : ∀ x : Word, f x.embed = embed (g x))
    (hw : wordOne g ws = some ws') : onOne f (ws.map embed) = some (ws'.map embed) := by
  match ws, hw with
  | x :: st, hw =>
    obtain rfl := Option.some.inj hw
    exact congrArg (fun z => some (z :: st.map embed)) (h x)

theorem two_embed {f : Int → Int → Int} {g : Word → Word → Word}
    (h : ∀ x y : Word, f x.embed y.embed = embed (g x y))
    (hw : wordTwo g ws = some ws') : onTwo f (ws.map embed) = some (ws'.map embed) := by
  match ws, hw with
  | x :: y :: st, hw =>
    obtain rfl := Option.some.inj hw
    exact congrArg (fun z => some (z :: st.map embed)) (h x y)

theorem three_embed {f : Int → Int → Int → Int} {g : Word → Word → Word → Word}
    (h : ∀ x y z : Word, f x.embed y.embed z.embed = embed (g x y z))
    (hw : wordThree g ws = some ws') : onThree f (ws.map embed) = some (ws'.map embed) := by
  match ws, hw with
  | x :: y :: z :: st, hw =>
    obtain rfl := Option.some.inj hw
    exact congrArg (fun z => some (z :: st.map embed)) (h x y z)

theorem signextend_embed (hw : signextend.spec ws = some ws') :
    signextend.value (ws.map embed) = some (ws'.map embed) := by
  match ws, hw with
  | back :: x :: st, hw =>
    obtain rfl := Option.some.inj hw
    by_cases h : back.toNat < 31
    · have hlt : back.embed < 31 := by
        rw [embed]
        omega
      have hv := signExtend_embed (x := x) h
      simp [value, IntOp.signExtendStack, hlt, h, hv]
    · have hge : ¬ back.embed < 31 := by
        rw [embed]
        omega
      simp [value, IntOp.signExtendStack, hge, h]

theorem value_embed (op : WordOp) (hop : op ≠ sar) (hw : op.spec ws = some ws') :
    op.value (ws.map embed) = some (ws'.map embed) := by
  cases op with
  | add => exact two_embed add_embed hw
  | mul => exact two_embed mul_embed hw
  | sub => exact two_embed sub_embed hw
  | div => exact two_embed div_embed hw
  | sdiv => exact two_embed sdiv_embed hw
  | mod => exact two_embed mod_embed hw
  | smod => exact two_embed smod_embed hw
  | addmod => exact three_embed (modulo_embed Int.natCast_add) hw
  | mulmod => exact three_embed (modulo_embed Int.natCast_mul) hw
  | exp => exact two_embed exp_embed hw
  | signextend => exact signextend_embed hw
  | lt => exact two_embed lt_embed hw
  | gt => exact two_embed gt_embed hw
  | slt => exact two_embed slt_embed hw
  | sgt => exact two_embed sgt_embed hw
  | eq => exact two_embed eq_embed hw
  | iszero => exact one_embed iszero_embed hw
  | and => exact two_embed land_embed hw
  | or => exact two_embed lor_embed hw
  | xor => exact two_embed xor_embed hw
  | not => exact one_embed not_embed hw
  | byte => exact two_embed byte_embed hw
  | shl => exact two_embed shl_embed hw
  | shr => exact two_embed shr_embed hw
  | sar => exact absurd rfl hop

/-! ## Runs -/

variable {values : List Int}

theorem one_word {f : Int → Int} (h : ∀ x : Word, ∃ z : Word, f x.embed = z.embed)
    (hv : onOne f (ws.map embed) = some values) : ∃ ws' : List Word, values = ws'.map embed := by
  match ws, hv with
  | x :: st, hv =>
    obtain ⟨z, hz⟩ := h x
    exact ⟨z :: st, (Option.some.inj hv).symm.trans (congrArg (· :: st.map embed) hz)⟩

theorem two_word {f : Int → Int → Int} (h : ∀ x y : Word, ∃ z : Word, f x.embed y.embed = z.embed)
    (hv : onTwo f (ws.map embed) = some values) : ∃ ws' : List Word, values = ws'.map embed := by
  match ws, hv with
  | x :: y :: st, hv =>
    obtain ⟨z, hz⟩ := h x y
    exact ⟨z :: st, (Option.some.inj hv).symm.trans (congrArg (· :: st.map embed) hz)⟩

theorem three_word {f : Int → Int → Int → Int}
    (h : ∀ x y z : Word, ∃ r : Word, f x.embed y.embed z.embed = r.embed)
    (hv : onThree f (ws.map embed) = some values) : ∃ ws' : List Word, values = ws'.map embed := by
  match ws, hv with
  | x :: y :: z :: st, hv =>
    obtain ⟨r, hr⟩ := h x y z
    exact ⟨r :: st, (Option.some.inj hv).symm.trans (congrArg (· :: st.map embed) hr)⟩

theorem signextend_word (hv : signextend.value (ws.map embed) = some values) :
    ∃ ws' : List Word, values = ws'.map embed := by
  match ws, hv with
  | back :: st, hv =>
    by_cases h : back.toNat < 31
    · have hlt : back.embed < 31 := by
        rw [embed]
        omega
      match st, hv with
      | x :: st, hv =>
        simp only [value, IntOp.signExtendStack, map_cons, hlt, if_true,
          signExtend_embed (x := x) h, Option.some.injEq] at hv
        exact ⟨_ :: st, hv.symm⟩
      | [], hv => simp [value, IntOp.signExtendStack, hlt] at hv
    · have hge : ¬ back.embed < 31 := by
        rw [embed]
        omega
      simp only [value, IntOp.signExtendStack, map_cons, hge, if_false, Option.some.injEq]
        at hv
      exact ⟨st, hv.symm⟩

theorem value_word (op : WordOp) (hv : op.value (ws.map embed) = some values) :
    ∃ ws' : List Word, values = ws'.map embed := by
  cases op with
  | add => exact two_word (fun x y => ⟨_, add_embed x y⟩) hv
  | mul => exact two_word (fun x y => ⟨_, mul_embed x y⟩) hv
  | sub => exact two_word (fun x y => ⟨_, sub_embed x y⟩) hv
  | div => exact two_word (fun x y => ⟨_, div_embed x y⟩) hv
  | sdiv => exact two_word (fun x y => ⟨_, sdiv_embed x y⟩) hv
  | mod => exact two_word (fun x y => ⟨_, mod_embed x y⟩) hv
  | smod => exact two_word (fun x y => ⟨_, smod_embed x y⟩) hv
  | addmod => exact three_word (fun x y z => ⟨_, modulo_embed Int.natCast_add x y z⟩) hv
  | mulmod => exact three_word (fun x y z => ⟨_, modulo_embed Int.natCast_mul x y z⟩) hv
  | exp => exact two_word (fun x y => ⟨_, exp_embed x y⟩) hv
  | signextend => exact signextend_word hv
  | lt => exact two_word (fun x y => ⟨_, lt_embed x y⟩) hv
  | gt => exact two_word (fun x y => ⟨_, gt_embed x y⟩) hv
  | slt => exact two_word (fun x y => ⟨_, slt_embed x y⟩) hv
  | sgt => exact two_word (fun x y => ⟨_, sgt_embed x y⟩) hv
  | eq => exact two_word (fun x y => ⟨_, eq_embed x y⟩) hv
  | iszero => exact one_word (fun x => ⟨_, iszero_embed x⟩) hv
  | and => exact two_word (fun x y => ⟨_, land_embed x y⟩) hv
  | or => exact two_word (fun x y => ⟨_, lor_embed x y⟩) hv
  | xor => exact two_word (fun x y => ⟨_, xor_embed x y⟩) hv
  | not => exact one_word (f := fun x => u256 (Int.lnot x)) (fun x => ⟨_, not_embed x⟩) hv
  | byte => exact two_word (fun x y => ⟨_, byte_embed x y⟩) hv
  | shl => exact two_word (fun x y => ⟨_, shl_embed x y⟩) hv
  | shr => exact two_word (fun x y => ⟨_, shr_embed x y⟩) hv
  | sar => exact two_word sar_word hv

/-- A run of operations on the values of the stack; `none` is an underflow. -/
def valueAll (ops : List WordOp) (values : List Int) : Option (List Int) :=
  ops.foldlM (fun values op => op.value values) values

theorem executeAll_words (ops : List WordOp) {s : Ints} (h : Holds s [] (ws.map embed))
    (hv : valueAll ops (ws.map embed) = some values) :
    ∃ (s' : Ints) (ws' : List Word), executeAll ops s = some ((), s') ∧
      Holds s' [] (ws'.map embed) ∧
      values = ws'.map embed := by
  induction ops generalizing s ws with
  | nil =>
    obtain rfl := Option.some.inj hv
    exact ⟨s, ws, rfl, h, rfl⟩
  | cons op ops ih =>
    obtain ⟨values1, hop, hrest⟩ := Option.bind_eq_some_iff.1 hv
    obtain ⟨ws1, rfl⟩ := op.value_word hop
    obtain ⟨s1, hstep, h1⟩ := op.execute_computes s _ _ h hop
    obtain ⟨s', ws', hrun, h', hval⟩ := ih h1 hrest
    exact ⟨s', ws', (IntOp.bind_some hstep).trans hrun, h', hval⟩

/-- The operations of arithmetic, comparison and bitwise logic, on references to integers that are
changed in place and reused, compute what they are to compute on words; and any run of them leaves
words on the stack. `SAR` is left out of the first part: by 256 bits or more it makes all ones of
zero. -/
theorem arithmetic_correct :
    (∀ op : WordOp, op ≠ sar → ∀ (s : Ints) (ws ws' : List Word), Holds s [] (ws.map embed) →
      op.spec ws = some ws' → ∃ s', op.execute s = some ((), s') ∧ Holds s' [] (ws'.map embed)) ∧
    (∀ (ops : List WordOp) (s : Ints) (ws : List Word) (values : List Int),
      Holds s [] (ws.map embed) → valueAll ops (ws.map embed) = some values →
        ∃ (s' : Ints) (ws' : List Word), executeAll ops s = some ((), s') ∧
          Holds s' [] (ws'.map embed) ∧
          values = ws'.map embed) ∧
    ∀ (S : Type) (op : WordOp), (op.execution : Execution S) = onStack op.value := by
  refine ⟨fun op hop s ws ws' h hw => ?_, fun ops s ws values h hv => executeAll_words ops h hv,
    fun S op => op.execution_eq⟩
  exact op.execute_computes s _ _ h (op.value_embed hop hw)

/-- The smallest signed word divided by minus one is itself. -/
theorem arithmetic_correct_sdiv_min : ∃ s',
    sdiv.execute ⟨fun p => if p = 0 then 2 ^ 255 else 2 ^ 256 - 1, 2, [0, 1], []⟩ = some ((), s') ∧
      Holds s' [] [2 ^ 255] := by
  have h := arithmetic_correct.1 sdiv (by decide)
    ⟨fun p => if p = 0 then 2 ^ 255 else 2 ^ 256 - 1, 2, [0, 1], []⟩
    [BitVec.ofNat 256 (2 ^ 255), BitVec.ofNat 256 (2 ^ 256 - 1)] [BitVec.ofNat 256 (2 ^ 255)]
    ⟨by decide, by decide, by decide, by decide⟩ (by decide)
  exact h

end WordOp

end Geth.Vm
