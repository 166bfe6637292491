import Geth.Ethash.Consensus

/-!
# Headers that the engine accepts

The gas limit that a miner chooses against the bounds of `verifyHeader`, and the difficulty of an
accepted header against the formula of its fork.
-/

namespace Geth.Ethash

/-! ## The gas limit of a miner -/

/-- The bounds of a gas limit: at least 5000, below 2 ^ 63, and less than a 1024th of the parent's
limit away from it. -/
def GasLimitBounds (parent limit : Nat) : Prop :=
  ((parent : Int) - limit).natAbs < parent / 1024 ∧ 5000 ≤ limit ∧ limit ≤ gasLimitCap

theorem toNat_ofNat_of_lt {n : Nat} (h : n < 2 ^ 63) : (UInt64.ofNat n).toNat = n :=
  UInt64.toNat_ofNat_of_lt' (Nat.lt_trans h (by decide))

theorem toNat_absDiff {a b : Nat} (ha : a < 2 ^ 63) (hb : b < 2 ^ 63) :
    (if Int64.ofNat a - Int64.ofNat b < 0 then (Int64.ofNat a - Int64.ofNat b) * -1
      else Int64.ofNat a - Int64.ofNat b).toUInt64.toNat = ((a : Int) - b).natAbs := by
  have hdiff : (Int64.ofNat a - Int64.ofNat b).toInt = (a : Int) - b := by
    rw [Int64.toInt_sub, Int64.toInt_ofNat_of_lt ha, Int64.toInt_ofNat_of_lt hb]
    exact Int.bmod_eq_of_le (by omega) (by omega)
  generalize Int64.ofNat a - Int64.ofNat b = diff at hdiff
  split
  case isTrue hneg =>
    rw [Int64.lt_iff_toInt_lt, hdiff, Int64.toInt_zero] at hneg
    have hopp : (diff * -1).toInt = (b : Int) - a := by
      rw [Int64.mul_neg, Int64.mul_one, Int64.toInt_neg, hdiff]
      rw [Int.bmod_eq_of_le (by omega) (by omega)]
      omega
    have hnn : 0 ≤ diff * -1 := by
      rw [Int64.le_iff_toInt_le, hopp, Int64.toInt_zero]
      omega
    rw [Int64.toNat_toUInt64_of_le hnn, Int64.toNatClampNeg, hopp]
    omega
  case isFalse hpos =>
    rw [Int64.lt_iff_toInt_lt, hdiff, Int64.toInt_zero] at hpos
    have hnn : 0 ≤ diff := by
      rw [Int64.le_iff_toInt_le, hdiff, Int64.toInt_zero]
      omega
    rw [Int64.toNat_toUInt64_of_le hnn, Int64.toNatClampNeg, hdiff]
    omega

theorem gasLimit_checks_iff {header parent : Header} (hparent : parent.gasLimit ≤ gasLimitCap) :
    (¬ header.gasLimit > gasLimitCap ∧ gasLimitOutOfBounds header parent = false) ↔
      GasLimitBounds parent.gasLimit header.gasLimit := by
  rw [gasLimitCap] at hparent
  rw [GasLimitBounds, gasLimitCap]
  constructor
  · rintro ⟨hcap, hbounds⟩
    rw [gasLimitOutOfBounds, Bool.or_eq_false_iff, decide_eq_false_iff_not,
      decide_eq_false_iff_not, ge_iff_le, UInt64.le_iff_toNat_le,
      toNat_absDiff (by omega) (by omega), UInt64.toNat_div,
      toNat_ofNat_of_lt (by omega)] at hbounds
    obtain ⟨hnear, hmin⟩ := hbounds
    exact ⟨Nat.lt_of_not_le hnear, by omega, by omega⟩
  · rintro ⟨hnear, hmin, hcap⟩
    refine ⟨by omega, ?_⟩
    rw [gasLimitOutOfBounds, Bool.or_eq_false_iff, decide_eq_false_iff_not,
      decide_eq_false_iff_not, ge_iff_le, UInt64.le_iff_toNat_le,
      toNat_absDiff (by omega) (by omega), UInt64.toNat_div,
      toNat_ofNat_of_lt (by omega)]
    exact ⟨Nat.not_le_of_lt hnear, by omega⟩

theorem toNat_calcGasLimit (target : UInt64) {parent : Header} (hmin : 5000 ≤ parent.gasLimit)
    (hmax : parent.gasLimit ≤ gasLimitCap) (hused : parent.gasUsed ≤ parent.gasLimit) :
    (calcGasLimit target parent).toNat =
      let moved := parent.gasLimit + 1 + (parent.gasUsed + parent.gasUsed / 2) / 1024 -
        parent.gasLimit / 1024
      if max moved 5000 < target.toNat then
        min (parent.gasLimit + parent.gasLimit / 1024 - 1) target.toNat
      else max moved 5000 := by
  rw [gasLimitCap] at hmax
  rw [calcGasLimit]
  have hl := toNat_ofNat_of_lt (show parent.gasLimit < 2 ^ 63 by omega)
  have hu := toNat_ofNat_of_lt (show parent.gasUsed < 2 ^ 63 by omega)
  generalize UInt64.ofNat parent.gasLimit = l at hl ⊢
  generalize UInt64.ofNat parent.gasUsed = u at hu ⊢
  have hcontrib : ((u + u / 2) / 1024).toNat = (parent.gasUsed + parent.gasUsed / 2) / 1024 := by
    rw [UInt64.toNat_div, UInt64.toNat_add, UInt64.toNat_div, hu]
    change (parent.gasUsed + parent.gasUsed / 2) % 2 ^ 64 / 1024 = _
    rw [Nat.mod_eq_of_lt (by omega)]
  have hdecay : (l / 1024 - 1).toNat = parent.gasLimit / 1024 - 1 := by
    have hq : (l / 1024).toNat = parent.gasLimit / 1024 := by
      rw [UInt64.toNat_div, hl]
      rfl
    have hle : 1 ≤ l / 1024 := by
      rw [UInt64.le_iff_toNat_le, hq]
      exact (show 1 ≤ parent.gasLimit / 1024 by omega)
    rw [UInt64.toNat_sub_of_le _ _ hle, hq]
    rfl
  generalize (u + u / 2) / 1024 = contrib at hcontrib ⊢
  generalize l / 1024 - 1 = decay at hdecay ⊢
  have hmoved : (l - decay + contrib).toNat = parent.gasLimit + 1 +
      (parent.gasUsed + parent.gasUsed / 2) / 1024 - parent.gasLimit / 1024 := by
    rw [UInt64.toNat_add, UInt64.toNat_sub_of_le _ _ (by rw [UInt64.le_iff_toNat_le]; omega)]
    omega
  have hraised : (l + decay).toNat = parent.gasLimit + parent.gasLimit / 1024 - 1 := by
    rw [UInt64.toNat_add]
    omega
  generalize l - decay + contrib = moved at hmoved ⊢
  have hclamp : (if moved < 5000 then 5000 else moved).toNat = max moved.toNat 5000 := by
    split
    case isTrue hlt =>
      exact (Nat.max_eq_right hlt.le).symm
    case isFalse hge =>
      rw [UInt64.lt_iff_toNat_lt, Nat.not_lt] at hge
      exact (Nat.max_eq_left hge).symm
  rw [← hmoved, ← hraised]
  dsimp only
  rw [← hclamp]
  generalize (if moved < 5000 then 5000 else moved) = clamped
  by_cases hlt : clamped < target
  · rw [if_pos hlt, if_pos (UInt64.lt_iff_toNat_lt.1 hlt)]
    split
    case isTrue hgt => exact (Nat.min_eq_right (UInt64.lt_iff_toNat_lt.1 hgt).le).symm
    case isFalse hle =>
      rw [gt_iff_lt, UInt64.lt_iff_toNat_lt, Nat.not_lt] at hle
      exact (Nat.min_eq_left hle).symm
  · rw [if_neg hlt, if_neg fun h => hlt (UInt64.lt_iff_toNat_lt.2 h)]

/-- The gas limit that a miner chooses is within the bounds, except after a parent whose limit is
below 5120 and that is nearly full, and except where the limit would pass 2 ^ 63. -/
theorem calcGasLimit_valid_iff (target : UInt64) (parent header : Header)
    (hmin : 5000 ≤ parent.gasLimit) (hmax : parent.gasLimit ≤ gasLimitCap)
    (hused : parent.gasUsed ≤ parent.gasLimit)
    (hlimit : header.gasLimit = (calcGasLimit target parent).toNat) :
    ((¬ header.gasLimit > gasLimitCap ∧ gasLimitOutOfBounds header parent = false) ↔
      GasLimitBounds parent.gasLimit header.gasLimit) ∧
    (GasLimitBounds parent.gasLimit header.gasLimit ↔
      (5120 ≤ parent.gasLimit ∨ parent.gasUsed < 4779 ∨ parent.gasLimit + 4 < target.toNat) ∧
      (parent.gasLimit + parent.gasLimit / 1024 ≤ 2 ^ 63 ∨ target.toNat < 2 ^ 63 ∧
        parent.gasLimit + 1 + (parent.gasUsed + parent.gasUsed / 2) / 1024 <
          2 ^ 63 + parent.gasLimit / 1024)) := by
  refine ⟨gasLimit_checks_iff hmax, ?_⟩
  rw [GasLimitBounds, hlimit, toNat_calcGasLimit target hmin hmax hused]
  rw [gasLimitCap] at hmax ⊢
  dsimp only
  -- A full parent adds half as much again as the decay takes away, up to the rounding: only a
  -- limit below 5120 lets the rounding decide.
  have hsmall : parent.gasLimit < 5120 → parent.gasLimit / 1024 = 4 ∧
      (parent.gasUsed + parent.gasUsed / 2) / 1024 ≤ 7 ∧
      ((parent.gasUsed + parent.gasUsed / 2) / 1024 = 7 ↔ 4779 ≤ parent.gasUsed) := by omega
  have hlarge : 5120 ≤ parent.gasLimit → 5 ≤ parent.gasLimit / 1024 ∧
      (parent.gasUsed + parent.gasUsed / 2) / 1024 + 2 ≤ 2 * (parent.gasLimit / 1024) := by omega
  have hle : parent.gasLimit / 1024 ≤ parent.gasLimit := Nat.div_le_self _ _
  generalize (parent.gasUsed + parent.gasUsed / 2) / 1024 = contrib at *
  generalize parent.gasLimit / 1024 = q at *
  generalize parent.gasLimit = l at *
  generalize target.toNat = t
  rcases Nat.lt_or_ge l 5120 with hlt | hge
  · obtain ⟨rfl, hseven, hfull⟩ := hsmall hlt
    split <;> omega
  · obtain ⟨hfive, hroom⟩ := hlarge hge
    split <;> omega

namespace Sample

/-- A header with nothing in it. -/
def header : Header where
  parentHash := Hash.zero
  uncleHash := Hash.zero
  coinbase := bytesToAddress []
  root := Hash.zero
  txHash := Hash.zero
  receiptHash := Hash.zero
  bloom := zeroBytes 256
  difficulty := 0
  number := 0
  gasLimit := 0
  gasUsed := 0
  time := 0
  extra := []
  mixDigest := Hash.zero
  nonce := zeroBytes 8

/-- A parent with this limit that used this much of it. -/
def used (gasLimit gasUsed : Nat) : Header :=
  { header with gasLimit := gasLimit, gasUsed := gasUsed }

/-- The block that a miner with this target puts on the parent. -/
def mined (target : UInt64) (parent : Header) : Header :=
  { header with gasLimit := (calcGasLimit target parent).toNat }

theorem calcGasLimit_valid_half :
    GasLimitBounds 8000000 (mined 4712388 (used 8000000 4000000)).gasLimit ∧
    ¬ (mined 4712388 (used 8000000 4000000)).gasLimit > gasLimitCap ∧
    gasLimitOutOfBounds (mined 4712388 (used 8000000 4000000)) (used 8000000 4000000) = false := by
  obtain ⟨hchecks, hbounds⟩ := calcGasLimit_valid_iff 4712388 (used 8000000 4000000)
    (mined 4712388 (used 8000000 4000000)) (by decide) (by decide) (by decide) rfl
  have hvalid := hbounds.mpr ⟨.inl (by decide), .inl (by decide)⟩
  exact ⟨hvalid, hchecks.mpr hvalid⟩

/-- After a full block with a limit of 5000, a miner whose target is 5000 goes 4 up, where less
than 4 is allowed. -/
theorem calcGasLimit_full : (mined 5000 (used 5000 5000)).gasLimit = 5004 ∧
      gasLimitOutOfBounds (mined 5000 (used 5000 5000)) (used 5000 5000) = true := by
  decide

end Sample

/-! ## The difficulty -/

/-- How many 2048ths of the parent's difficulty are added to it, by the seconds since the parent. -/
def adjustment (env : Env) (config : ChainConfig) (parent : Header) (delta : Int) : Int :=
  let number : Int := parent.number + 1
  if config.isByzantium number then
    max ((if parent.uncleHash = env.emptyUncleHash then 1 else 2) - delta / 9) (-99)
  else if config.isHomestead number then max (1 - delta / 10) (-99)
  else if delta < durationLimit then 1
  else -1

/-- The exponential part of a difficulty, delayed by three million blocks from Byzantium on. -/
def bomb (config : ChainConfig) (parent : Header) : Int :=
  let number : Int := parent.number + 1
  let period := (if config.isByzantium number then max (number - 3000000) 0 else number) / 100000
  if period > 1 then 2 ^ (period - 2).toNat else 0

/-- The part of a difficulty that depends on the time. -/
def adjusted (env : Env) (config : ChainConfig) (parent : Header) (delta : Int) : Int :=
  parent.difficulty + parent.difficulty / 2048 * adjustment env config parent delta

/-- The difficulty of a block that comes so many seconds after its parent, in unbounded numbers. -/
def prescribed (env : Env) (config : ChainConfig) (parent : Header) (delta : Int) : Int :=
  max (adjusted env config parent delta) minimumDifficulty + bomb config parent

section Difficulty

variable (env : Env) (config : ChainConfig) (parent : Header)

theorem addBomb_eq (x period : Int) :
    addBomb x period = x + if period > 1 then 2 ^ (period - 2).toNat else 0 := by
  rw [addBomb]
  split
  · rfl
  · rw [add_zero]

theorem ite_lt_eq_max (x y : Int) : (if x < y then y else x) = max x y := by
  split
  case isTrue h => exact (max_eq_right h.le).symm
  case isFalse h => exact (max_eq_left (Int.not_lt.1 h)).symm

theorem calcDifficulty_eq (time : UInt64) : calcDifficulty env config time parent =
      prescribed env config parent ((time.toNat : Int) - parent.time) := by
  rw [calcDifficulty, prescribed, adjusted, adjustment, bomb]
  by_cases hbyz : config.isByzantium (parent.number + 1) = true
  · simp only [if_pos hbyz]
    have huncles : ∀ x : Int, (if parent.uncleHash = env.emptyUncleHash then 1 - x else 2 - x) =
        (if parent.uncleHash = env.emptyUncleHash then 1 else 2) - x := by
      intro x
      split <;> rfl
    have hfake : (if parent.number ≥ 2999999 then (parent.number : Int) - 2999999 else 0) =
        max ((parent.number : Int) + 1 - 3000000) 0 := by
      split <;> omega
    rw [calcDifficultyByzantium]
    simp only [huncles, hfake, addBomb_eq, ite_lt_eq_max]
    rfl
  · simp only [if_neg hbyz]
    by_cases hhome : config.isHomestead (parent.number + 1) = true
    · simp only [if_pos hhome]
      rw [calcDifficultyHomestead, addBomb_eq]
      simp only [ite_lt_eq_max]
      rfl
    · simp only [if_neg hhome]
      rw [calcDifficultyFrontier]
      have hadjust : (if (time.toNat : Int) - parent.time < durationLimit then
            parent.difficulty + parent.difficulty / difficultyBoundDivisor
          else parent.difficulty - parent.difficulty / difficultyBoundDivisor) =
          parent.difficulty + parent.difficulty / 2048 *
            if (time.toNat : Int) - parent.time < durationLimit then 1 else -1 := by
        rw [difficultyBoundDivisor]
        split <;> ring
      simp only [hadjust, ite_lt_eq_max]
      rw [expDiffPeriod]
      split
      · exact max_eq_left (le_add_of_le_of_nonneg (le_max_right _ _) (by positivity))
      · rw [add_zero]

theorem bomb_nonneg : 0 ≤ bomb config parent := by
  rw [bomb]
  generalize (if config.isByzantium ((parent.number : Int) + 1) then
    max ((parent.number : Int) + 1 - 3000000) 0 else (parent.number : Int) + 1) / 100000 = period
  split
  · positivity
  · exact le_refl 0

theorem neg_le_adjustment (delta : Int) : -99 ≤ adjustment env config parent delta := by
  rw [adjustment]
  split
  · exact le_max_right _ _
  · split
    · exact le_max_right _ _
    · split <;> decide

theorem adjustment_le {delta delta' : Int} (h : delta' ≤ delta) :
    adjustment env config parent delta ≤ adjustment env config parent delta' := by
  rw [adjustment, adjustment]
  split
  · exact max_le_max_right _ (by omega)
  · split
    · exact max_le_max_right _ (by omega)
    · split <;> split <;> omega

theorem prescribed_eq_iff {delta delta' : Int} (h : delta' ≤ delta) :
    prescribed env config parent delta' = prescribed env config parent delta ↔
      parent.difficulty / 2048 = 0 ∨
      adjustment env config parent delta' = adjustment env config parent delta ∨
      adjusted env config parent delta' ≤ minimumDifficulty := by
  have hle := adjustment_le env config parent h
  have hlow := neg_le_adjustment env config parent delta
  rw [prescribed, prescribed, add_left_inj, adjusted, adjusted]
  generalize adjustment env config parent delta = s at *
  generalize adjustment env config parent delta' = s' at *
  rw [minimumDifficulty]
  rcases lt_trichotomy (parent.difficulty / 2048) 0 with hneg | hzero | hpos
  · -- A negative difficulty is below the minimum, with any adjustment.
    have hbelow : ∀ x : Int, -99 ≤ x →
        parent.difficulty + parent.difficulty / 2048 * x ≤ 131072 := by
      intro x hx
      have := mul_le_mul_of_nonpos_left hx hneg.le
      omega
    have h1 := hbelow s hlow
    have h2 := hbelow s' (hlow.trans hle)
    rw [max_eq_right h1, max_eq_right h2]
    exact iff_of_true rfl (.inr (.inr h2))
  · rw [hzero, zero_mul, zero_mul]
    exact iff_of_true rfl (.inl rfl)
  · have hmul := mul_le_mul_of_nonneg_left hle hpos.le
    constructor
    · intro heq
      rcases hle.eq_or_lt with hs | hlt
      · exact .inr (.inl hs.symm)
      · have := mul_lt_mul_of_pos_left hlt hpos
        exact .inr (.inr (by omega))
    · rintro (hzero | hs | hmin)
      · omega
      · rw [hs]
      · rw [max_eq_right hmin, max_eq_right (by omega)]

end Difficulty

theorem ite_error_eq_ok {ε α : Type} {c : Prop} [Decidable c] {e : ε} {x : Except ε α} {a : α} :
    (if c then .error e else x) = .ok a ↔ ¬ c ∧ x = .ok a := by
  by_cases h : c
  · simp [h]
  · simp [h]

theorem verifyHeader_ok {env : Env} {ethash : Engine} {config : ChainConfig} {deadline : Int64}
    {header parent : Header} {uncle sealed : Bool}
    (h : ethash.verifyHeader env config deadline header parent uncle sealed = .ok ()) :
    (uncle = false → (header.time : Int) ≤ deadline.toInt) ∧ parent.time < header.time ∧
      calcDifficulty env config (UInt64.ofNat header.time) parent = header.difficulty ∧
      header.gasLimit ≤ gasLimitCap ∧ gasLimitOutOfBounds header parent = false ∧
      header.number = parent.number + 1 := by
  obtain ⟨-, h⟩ := ite_error_eq_ok.1 h
  obtain ⟨-, h⟩ := ite_error_eq_ok.1 h
  obtain ⟨hfuture, h⟩ := ite_error_eq_ok.1 h
  obtain ⟨htime, h⟩ := ite_error_eq_ok.1 h
  obtain ⟨hdifficulty, h⟩ := ite_error_eq_ok.1 h
  obtain ⟨hcap, h⟩ := ite_error_eq_ok.1 h
  obtain ⟨-, h⟩ := ite_error_eq_ok.1 h
  obtain ⟨hbounds, h⟩ := ite_error_eq_ok.1 h
  obtain ⟨hnumber, -⟩ := ite_error_eq_ok.1 h
  refine ⟨fun huncle => ?_, Nat.lt_of_not_le htime, not_not.1 hdifficulty, Nat.le_of_not_lt hcap,
    Bool.eq_false_iff.2 hbounds, by omega⟩
  rw [huncle] at hfuture
  exact Int.not_lt.1 fun hlt => hfuture ⟨Bool.false_ne_true, hlt⟩

theorem time_lt_of_block {env : Env} {ethash : Engine} {config : ChainConfig} {deadline : Int64}
    {header parent : Header} {sealed : Bool}
    (h : ethash.verifyHeader env config deadline header parent false sealed = .ok ()) :
    header.time < 2 ^ 64 := by
  have hle := (verifyHeader_ok h).1 rfl
  have hdeadline := deadline.toInt_lt
  omega

/-- The difficulty of an accepted header is the prescribed one, except for an uncle whose time
takes more than 64 bits: its difficulty follows from the low 64 bits, and is the prescribed one only
where the adjustments of both times come to the same. -/
theorem difficulty_prescribed_iff (env : Env) (ethash : Engine) (config : ChainConfig)
    (deadline : Int64) (header parent : Header) (uncle sealed : Bool)
    (h : ethash.verifyHeader env config deadline header parent uncle sealed = .ok ()) :
    (header.difficulty = prescribed env config parent ((header.time : Int) - parent.time) ∧
      parent.time < header.time ∧
      (minimumDifficulty ≤ parent.difficulty → minimumDifficulty ≤ header.difficulty)) ↔
    (uncle = false ∨ header.time < 2 ^ 64 ∨ parent.difficulty / 2048 = 0 ∨
      adjustment env config parent ((header.time % 2 ^ 64 : Nat) - parent.time) =
        adjustment env config parent (header.time - parent.time) ∨
      adjusted env config parent ((header.time % 2 ^ 64 : Nat) - parent.time) ≤
        minimumDifficulty) := by
  obtain ⟨-, htime, hdifficulty, -, -, -⟩ := verifyHeader_ok h
  rw [calcDifficulty_eq, UInt64.toNat_ofNat'] at hdifficulty
  have hmin : minimumDifficulty ≤ header.difficulty := by
    rw [← hdifficulty, prescribed]
    exact le_add_of_le_of_nonneg (le_max_right _ _) (bomb_nonneg config parent)
  have hcut : ((header.time % 2 ^ 64 : Nat) : Int) - parent.time ≤
      (header.time : Int) - parent.time := by
    have := Nat.mod_le header.time (2 ^ 64)
    omega
  have hiff := prescribed_eq_iff env config parent hcut
  rw [hdifficulty] at hiff
  constructor
  · rintro ⟨heq, -, -⟩
    exact .inr (.inr (hiff.1 heq))
  · intro hcond
    refine ⟨?_, htime, fun _ => hmin⟩
    rcases hcond with rfl | hlt | hcond
    · rw [← hdifficulty, Nat.mod_eq_of_lt (time_lt_of_block h)]
    · rw [← hdifficulty, Nat.mod_eq_of_lt hlt]
    · exact hiff.2 hcond

namespace Sample

/-- Hash functions that are constant. -/
def hashes : Hashes where
  keccak256 _ := List.replicate 32 0
  keccak512 _ := List.replicate 64 0
  length_keccak256 _ := List.length_replicate
  length_keccak512 _ := List.length_replicate

def env : Env where
  hashes := hashes
  hash header := bytesToHash header.extra
  hashNoNonce header := bytesToHash header.extra
  emptyUncleHash := Hash.zero
  cache _ := []
  datasetSize _ := 0

/-- An engine that takes every seal as valid, except for the block 100. -/
def faker : Engine := ⟨⟨.fake, 100⟩, none⟩

/-- Homestead from the start, and no later fork. -/
def homestead : ChainConfig :=
  ⟨⟨some 0, none, none, none, none⟩, none, none, false, Hash.zero, none⟩

def parent : Header :=
  { header with difficulty := 2 ^ 20, number := 7, gasLimit := 5000, time := 1500000000 }

/-- The next header at this time, with the difficulty of a block that comes a second later. -/
def child (time : Nat) : Header :=
  { header with
    difficulty := 2 ^ 20 + 2 ^ 9, number := 8, gasLimit := 5000, time := time, extra := [1] }

theorem difficulty_prescribed_child : ((child 1500000001).difficulty =
        prescribed env homestead parent (((child 1500000001).time : Int) - parent.time) ∧
      parent.time < (child 1500000001).time ∧
      (minimumDifficulty ≤ parent.difficulty →
        minimumDifficulty ≤ (child 1500000001).difficulty)) :=
  (difficulty_prescribed_iff env faker homestead 1500000010 (child 1500000001) parent false true
    (by decide)).2 (.inl rfl)

/-- An uncle 2 ^ 64 seconds later is accepted with the same difficulty, where the formula gives the
largest decrease. -/
theorem difficulty_uncle :
    (faker.verifyHeader env homestead 1500000010 (child (2 ^ 64 + 1500000001)) parent true
      true).isOk = true ∧
      (child (2 ^ 64 + 1500000001)).difficulty = 1049088 ∧
      prescribed env homestead parent
        (((child (2 ^ 64 + 1500000001)).time : Int) - parent.time) = 997888 := by
  decide

end Sample

end Geth.Ethash
