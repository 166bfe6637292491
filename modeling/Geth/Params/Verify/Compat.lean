import Geth.Params.Config
import Mathlib.Data.ENat.Lattice

/-!
# Compatible configurations

Where two configurations part: the first block of a conflict that `checkCompatible` looks for, and
the first block for which the configurations give different rules.
-/

namespace Geth

open List

open Vm (isForked)

namespace ChainConfig

/-! ## Agreement -/

/-- The support for the DAO fork at a block, as far as the fork has happened. -/
def daoSupport (c : ChainConfig) (num : Int) : Option Bool :=
  if c.isDAOFork num then some c.daoForkSupport else none

/-- Two configurations give the same rules, the same support for the DAO fork and the same signer
at a block. -/
structure SameAt (c c' : ChainConfig) (num : Int) : Prop where
  homestead : c.isHomestead num = c'.isHomestead num
  daoFork : c.isDAOFork num = c'.isDAOFork num
  daoSupport : c.daoSupport num = c'.daoSupport num
  eip150 : c.isEIP150 num = c'.isEIP150 num
  eip155 : c.isEIP155 num = c'.isEIP155 num
  eip158 : c.isEIP158 num = c'.isEIP158 num
  byzantium : c.isByzantium num = c'.isByzantium num
  constantinople : c.isConstantinople num = c'.isConstantinople num
  signer : c.makeSigner num = c'.makeSigner num

/-- Two configurations agree on all blocks up to a height. -/
def AgreeUpTo (c c' : ChainConfig) (height : Nat) : Prop :=
  ∀ num : Nat, num ≤ height → SameAt c c' num

/-- The largest height up to which two configurations agree, and 0 if there is none. -/
def LargestAgreed (c c' : ChainConfig) (height : Nat) : Prop :=
  (AgreeUpTo c c' height ∧ ¬ AgreeUpTo c c' (height + 1)) ∨ (height = 0 ∧ ¬ AgreeUpTo c c' 0)

/-! ## First conflicts -/

/-- The first block at which a fork has happened. -/
def since (s : Option Int) : ℕ∞ := s.elim ⊤ fun s => (s.toNat : ℕ∞)

/-- The first block that a conflict of this kind affects, if there is one. -/
def conflictIf (conflict : Prop) [Decidable conflict] (block : ℕ∞) : ℕ∞ :=
  if conflict then block else ⊤

/-- The numbers of a fork in two configurations. -/
def forks (c c' : ChainConfig) : List (Option Int × Option Int) :=
  [(c.homesteadBlock, c'.homesteadBlock), (c.daoForkBlock, c'.daoForkBlock),
    (c.eip150Block, c'.eip150Block), (c.eip155Block, c'.eip155Block),
    (c.eip158Block, c'.eip158Block), (c.byzantiumBlock, c'.byzantiumBlock),
    (c.constantinopleBlock, c'.constantinopleBlock)]

/-- The first block of a conflict as `checkCompatible` sees it: two numbers of a fork differ, or the
chain ids differ once EIP158 has happened. -/
noncomputable def checkedConflict (c c' : ChainConfig) : ℕ∞ :=
  ((forks c c').map fun f => conflictIf (f.1 ≠ f.2) (min (since f.1) (since f.2))).foldr min
    (min (conflictIf (c.daoForkSupport ≠ c'.daoForkSupport) (since c.daoForkBlock))
      (conflictIf (c.chainID ≠ c'.chainID) (since c.eip158Block)))

/-- The first block with different rules: a fork that happens at different blocks, or chain ids that
differ for the signer once EIP155 has happened. -/
noncomputable def realConflict (c c' : ChainConfig) : ℕ∞ :=
  ((forks c c').map fun f =>
      conflictIf (since f.1 ≠ since f.2) (min (since f.1) (since f.2))).foldr min
    (min (conflictIf (c.daoForkSupport ≠ c'.daoForkSupport) (since c.daoForkBlock))
      (conflictIf (c.chainID.getD 0 ≠ c'.chainID.getD 0) (since c.eip155Block)))

theorem isForked_iff (s : Option Int) (num : Nat) : isForked s num = true ↔ since s ≤ num := by
  cases s with
  | none => simp [isForked, since]
  | some s => simp [isForked, since]

theorem lt_foldr_min {x a : ℕ∞} (l : List ℕ∞) : x < l.foldr min a ↔ (∀ y ∈ l, x < y) ∧ x < a := by
  induction l with
  | nil => simp
  | cons y l ih => rw [foldr_cons, lt_min_iff, ih, forall_mem_cons, and_assoc]

theorem lt_conflictIf {conflict : Prop} [Decidable conflict] {block : ℕ∞} (x : Nat) :
    (x : ℕ∞) < conflictIf conflict block ↔ (conflict → (x : ℕ∞) < block) := by
  rw [conflictIf]
  split
  case isTrue h => exact ⟨fun hx _ => hx, fun hx => hx h⟩
  case isFalse h => exact iff_of_true (ENat.natCast_lt_top x) fun h' => absurd h' h

/-! ## What is checked -/

section Checked

variable {c c' : ChainConfig}

theorem isForkIncompatible_eq_false (s₁ s₂ : Option Int) (x : Nat) :
    ¬ isForkIncompatible s₁ s₂ x = true ↔
      (x : ℕ∞) < conflictIf (s₁ ≠ s₂) (min (since s₁) (since s₂)) := by
  rw [lt_conflictIf, lt_min_iff, isForkIncompatible, configNumEqual, Bool.and_eq_true,
    Bool.or_eq_true, isForked_iff, isForked_iff, ← not_le, ← not_le]
  simp only [Bool.not_eq_true', decide_eq_false_iff_not]
  tauto

theorem ite_some_eq_none {α : Type} {p : Prop} [Decidable p] {a : α} {x : Option α} :
    (if p then some a else x) = none ↔ ¬ p ∧ x = none := by
  by_cases h : p
  · simp [h]
  · simp [h]

theorem checkCompatible_eq_none (x : Nat) :
    c.checkCompatible c' x = none ↔ (x : ℕ∞) < checkedConflict c c' := by
  have hdao : ¬ (c.isDAOFork x && c.daoForkSupport != c'.daoForkSupport) = true ↔
      (x : ℕ∞) < conflictIf (c.daoForkSupport ≠ c'.daoForkSupport) (since c.daoForkBlock) := by
    rw [lt_conflictIf, Bool.and_eq_true, isDAOFork, isForked_iff, ← not_le, bne_iff_ne]
    tauto
  have hchain : ¬ (c.isEIP158 x && !configNumEqual c.chainID c'.chainID) = true ↔
      (x : ℕ∞) < conflictIf (c.chainID ≠ c'.chainID) (since c.eip158Block) := by
    rw [lt_conflictIf, Bool.and_eq_true, Vm.ChainConfig.isEIP158, isForked_iff, ← not_le,
      configNumEqual]
    simp only [Bool.not_eq_true', decide_eq_false_iff_not]
    tauto
  rw [checkedConflict, lt_foldr_min, lt_min_iff, checkCompatible]
  simp only [ite_some_eq_none, hdao, hchain, isForkIncompatible_eq_false, forks, map_cons,
    map_nil, forall_mem_cons, not_mem_nil, false_implies, implies_true, and_true]
  tauto

end Checked

/-! ## What differs -/

section Real

variable {c c' : ChainConfig}

theorem forked_agree_iff (s₁ s₂ : Option Int) (x : Nat) :
    (∀ num : Nat, num ≤ x → isForked s₁ num = isForked s₂ num) ↔
      (x : ℕ∞) < conflictIf (since s₁ ≠ since s₂) (min (since s₁) (since s₂)) := by
  -- The smaller of two different numbers is that of a block with different rules.
  have hdiffer : ∀ {s₁ s₂ : Option Int}, since s₁ < since s₂ → since s₁ ≤ x →
      ∃ num : Nat, num ≤ x ∧ isForked s₁ num ≠ isForked s₂ num := by
    intro s₁ s₂ hlt hle
    obtain ⟨k, hk⟩ := ENat.ne_top_iff_exists.1 (ne_top_of_lt hlt)
    refine ⟨k, by rw [← hk] at hle; exact_mod_cast hle, fun heq => ?_⟩
    have h1 : isForked s₁ k = true := (isForked_iff s₁ k).2 hk.ge
    rw [heq, isForked_iff, hk] at h1
    exact absurd hlt (not_lt.2 h1)
  rw [lt_conflictIf, lt_min_iff]
  constructor
  · intro hagree hne
    rcases lt_or_gt_of_ne hne with hlt | hgt
    · by_contra hnot
      have hle : since s₁ ≤ x := by
        by_contra hgt
        exact hnot ⟨not_le.1 hgt, (not_le.1 hgt).trans hlt⟩
      obtain ⟨num, hnum, hdiff⟩ := hdiffer hlt hle
      exact hdiff (hagree num hnum)
    · by_contra hnot
      have hle : since s₂ ≤ x := by
        by_contra hlt
        exact hnot ⟨(not_le.1 hlt).trans hgt, not_le.1 hlt⟩
      obtain ⟨num, hnum, hdiff⟩ := hdiffer hgt hle
      exact hdiff (hagree num hnum).symm
  · intro hconflict num hnum
    rw [Bool.eq_iff_iff, isForked_iff, isForked_iff]
    by_cases hsame : since s₁ = since s₂
    · rw [hsame]
    · obtain ⟨h1, h2⟩ := hconflict hsame
      have hle : (num : ℕ∞) ≤ x := by exact_mod_cast hnum
      exact iff_of_false (not_le.2 (hle.trans_lt h1)) (not_le.2 (hle.trans_lt h2))

theorem forall_forked_iff {p : Prop} [Decidable p] (s : Option Int) (x : Nat) :
    (∀ num : Nat, num ≤ x → isForked s num = true → p) ↔ (x : ℕ∞) < conflictIf (¬ p) (since s) := by
  rw [lt_conflictIf, ← not_le, ← isForked_iff]
  constructor
  · intro h hnot hforked
    exact hnot (h x le_rfl hforked)
  · intro h num hnum hforked
    by_contra hnot
    refine h hnot ((isForked_iff _ x).2 (((isForked_iff _ num).1 hforked).trans ?_))
    exact_mod_cast hnum

theorem daoSupport_agree_iff {x : Nat}
    (hfork : ∀ num : Nat, num ≤ x → c.isDAOFork num = c'.isDAOFork num) :
    (∀ num : Nat, num ≤ x → c.daoSupport num = c'.daoSupport num) ↔
      (x : ℕ∞) < conflictIf (c.daoForkSupport ≠ c'.daoForkSupport) (since c.daoForkBlock) := by
  have hat : ∀ num : Nat, num ≤ x → (c.daoSupport num = c'.daoSupport num ↔
      (c.isDAOFork num = true → c.daoForkSupport = c'.daoForkSupport)) := by
    intro num hnum
    rw [daoSupport, daoSupport, ← hfork num hnum]
    cases c.isDAOFork num <;> simp
  exact (forall₂_congr hat).trans (forall_forked_iff c.daoForkBlock x)

theorem signer_agree_iff {x : Nat}
    (heip155 : ∀ num : Nat, num ≤ x → c.isEIP155 num = c'.isEIP155 num)
    (hhomestead : ∀ num : Nat, num ≤ x → c.isHomestead num = c'.isHomestead num) :
    (∀ num : Nat, num ≤ x → c.makeSigner num = c'.makeSigner num) ↔
      (x : ℕ∞) < conflictIf (c.chainID.getD 0 ≠ c'.chainID.getD 0) (since c.eip155Block) := by
  have hat : ∀ num : Nat, num ≤ x → (c.makeSigner num = c'.makeSigner num ↔
      (c.isEIP155 num = true → c.chainID.getD 0 = c'.chainID.getD 0)) := by
    intro num hnum
    rw [makeSigner, makeSigner, ← heip155 num hnum, ← hhomestead num hnum]
    cases c.isEIP155 num <;> simp
  exact (forall₂_congr hat).trans (forall_forked_iff c.eip155Block x)

theorem agreeUpTo_iff (x : Nat) : AgreeUpTo c c' x ↔ (x : ℕ∞) < realConflict c c' := by
  rw [realConflict, lt_foldr_min, lt_min_iff]
  simp only [forks, map_cons, map_nil, forall_mem_cons, not_mem_nil,
    false_implies, implies_true, and_true, ← forked_agree_iff]
  constructor
  · intro h
    have hdao := fun num hnum => (h num hnum).daoFork
    have heip155 := fun num hnum => (h num hnum).eip155
    have hhomestead := fun num hnum => (h num hnum).homestead
    exact ⟨⟨hhomestead, hdao, fun num hnum => (h num hnum).eip150, heip155,
      fun num hnum => (h num hnum).eip158, fun num hnum => (h num hnum).byzantium,
      fun num hnum => (h num hnum).constantinople⟩,
      (daoSupport_agree_iff hdao).1 fun num hnum => (h num hnum).daoSupport,
      (signer_agree_iff heip155 hhomestead).1 fun num hnum => (h num hnum).signer⟩
  · rintro ⟨⟨hhomestead, hdao, heip150, heip155, heip158, hbyzantium, hconst⟩, hsupport, hsigner⟩
    intro num hnum
    exact ⟨hhomestead num hnum, hdao num hnum, (daoSupport_agree_iff hdao).2 hsupport num hnum,
      heip150 num hnum, heip155 num hnum, heip158 num hnum, hbyzantium num hnum, hconst num hnum,
      (signer_agree_iff heip155 hhomestead).2 hsigner num hnum⟩

end Real

/-! ## Rewinding -/

section Rewind

variable {c c' : ChainConfig}

variable {s₁ s₂ : Option Int} {x : Nat}

theorem rewindTo_newCompatError (what : String) (hx : x < 2 ^ 64)
    (h : min (since s₁) (since s₂) ≤ x) :
    ∃ t : Nat, (t : ℕ∞) = min (since s₁) (since s₂) ∧
      (newCompatError what s₁ s₂).rewindTo.toNat = t - 1 := by
  -- The number that the error rewinds to stands for the smaller of the two.
  have hone : ∀ rew : Int, rew.toNat ≤ x →
      (if rew > 0 then Vm.uint64 rew - 1 else 0 : UInt64).toNat = rew.toNat - 1 := by
    intro rew hrew
    split
    case isTrue hpos =>
      lift rew to Nat using hpos.le
      have hn : (Vm.uint64 (rew : Int)).toNat = rew := Vm.uint64_toNat (by omega)
      have hle : 1 ≤ Vm.uint64 (rew : Int) := by
        rw [UInt64.le_iff_toNat_le, hn]
        exact (show 1 ≤ rew by omega)
      rw [UInt64.toNat_sub_of_le _ _ hle, hn]
      rfl
    case isFalse hneg =>
      rw [Int.toNat_of_nonpos (Int.not_lt.1 hneg)]
      rfl
  rcases s₁ with _ | a <;> rcases s₂ with _ | b
  · simp [since] at h
  · refine ⟨b.toNat, by simp [since], hone b ?_⟩
    simpa [since] using h
  · refine ⟨a.toNat, by simp [since], hone a ?_⟩
    simpa [since] using h
  · change min (a.toNat : ℕ∞) (b.toNat : ℕ∞) ≤ x at h
    change ∃ t : Nat, (t : ℕ∞) = min (a.toNat : ℕ∞) (b.toNat : ℕ∞) ∧ _
    rcases lt_or_ge a b with hab | hab
    · have hle : (a.toNat : ℕ∞) ≤ b.toNat := by exact_mod_cast Int.toNat_le_toNat hab.le
      rw [min_eq_left hle] at h ⊢
      refine ⟨a.toNat, rfl, ?_⟩
      rw [newCompatError]
      simp only [if_pos hab]
      exact hone a (by exact_mod_cast h)
    · have hle : (b.toNat : ℕ∞) ≤ a.toNat := by exact_mod_cast Int.toNat_le_toNat hab
      rw [min_eq_right hle] at h ⊢
      refine ⟨b.toNat, rfl, ?_⟩
      rw [newCompatError]
      simp only [if_neg (Int.not_lt.2 hab)]
      exact hone b (by exact_mod_cast h)

theorem foldr_min_le {x a : ℕ∞} {l : List ℕ∞} (h : x ∈ l) : l.foldr min a ≤ x := by
  by_contra hlt
  exact lt_irrefl x (((lt_foldr_min l).1 (not_le.1 hlt)).1 x h)

theorem checkedConflict_le_fork (hmem : (s₁, s₂) ∈ forks c c') (hne : s₁ ≠ s₂) :
    checkedConflict c c' ≤ min (since s₁) (since s₂) := by
  refine foldr_min_le (mem_map.2 ⟨(s₁, s₂), hmem, ?_⟩)
  exact if_pos hne

/-- An error rewinds to the block before some conflict that the head is past. -/
def RewindsBelow (c c' : ChainConfig) (x : Nat) (err : ConfigCompatError) : Prop :=
  ∃ t : Nat, checkedConflict c c' ≤ t ∧ t ≤ x ∧ err.rewindTo.toNat = t - 1

theorem rewindsBelow_fork (hx : x < 2 ^ 64) (what : String) (hmem : (s₁, s₂) ∈ forks c c')
    (h : isForkIncompatible s₁ s₂ x = true) :
    RewindsBelow c c' x (newCompatError what s₁ s₂) := by
  have hconflict := mt (isForkIncompatible_eq_false s₁ s₂ x).2 (not_not.2 h)
  rw [lt_conflictIf, Classical.not_imp, not_lt] at hconflict
  obtain ⟨t, ht, hrewind⟩ := rewindTo_newCompatError what hx hconflict.2
  rw [← ht] at hconflict
  refine ⟨t, ht ▸ checkedConflict_le_fork hmem hconflict.1, by exact_mod_cast hconflict.2, hrewind⟩

theorem rewindsBelow_flag (hx : x < 2 ^ 64) (what : String)
    (hcompat : ¬ isForkIncompatible s₁ s₂ x = true) (hforked : isForked s₁ x = true)
    (hle : checkedConflict c c' ≤ since s₁) :
    RewindsBelow c c' x (newCompatError what s₁ s₂) := by
  have hsame : s₁ = s₂ := by
    rw [isForkIncompatible, hforked, Bool.true_or, Bool.true_and, configNumEqual] at hcompat
    simpa using hcompat
  subst hsame
  rw [isForked_iff] at hforked
  obtain ⟨t, ht, hrewind⟩ := rewindTo_newCompatError what hx ((min_self _).trans_le hforked)
  rw [min_self] at ht
  rw [← ht] at hforked hle
  exact ⟨t, hle, by exact_mod_cast hforked, hrewind⟩

theorem checkCompatible_rewinds (hx : x < 2 ^ 64) {err : ConfigCompatError}
    (h : c.checkCompatible c' x = some err) : RewindsBelow c c' x err := by
  have hflags : ∀ y, y = conflictIf (c.daoForkSupport ≠ c'.daoForkSupport) (since c.daoForkBlock) ∨
      y = conflictIf (c.chainID ≠ c'.chainID) (since c.eip158Block) →
      checkedConflict c c' ≤ y := by
    intro y hy
    by_contra hlt
    obtain ⟨-, hlt⟩ := (lt_foldr_min _).1 (not_le.1 hlt)
    rw [lt_min_iff] at hlt
    rcases hy with rfl | rfl
    · exact lt_irrefl _ hlt.1
    · exact lt_irrefl _ hlt.2
  rw [checkCompatible] at h
  split at h
  case isTrue hfork => cases h; exact rewindsBelow_fork hx _ (by simp [forks]) hfork
  split at h
  case isTrue hfork => cases h; exact rewindsBelow_fork hx _ (by simp [forks]) hfork
  case isFalse hdao =>
  split at h
  case isTrue hflag =>
    cases h
    obtain ⟨hforked, hne⟩ := (Bool.and_eq_true _ _).mp hflag
    refine rewindsBelow_flag hx _ hdao hforked (hflags _ (.inl ?_))
    exact (if_pos (bne_iff_ne.1 hne)).symm
  split at h
  case isTrue hfork => cases h; exact rewindsBelow_fork hx _ (by simp [forks]) hfork
  split at h
  case isTrue hfork => cases h; exact rewindsBelow_fork hx _ (by simp [forks]) hfork
  split at h
  case isTrue hfork => cases h; exact rewindsBelow_fork hx _ (by simp [forks]) hfork
  case isFalse heip158 =>
  split at h
  case isTrue hflag =>
    cases h
    obtain ⟨hforked, hne⟩ := (Bool.and_eq_true _ _).mp hflag
    refine rewindsBelow_flag hx _ heip158 hforked (hflags _ (.inr ?_))
    refine (if_pos ?_).symm
    simpa [configNumEqual] using hne
  split at h
  case isTrue hfork => cases h; exact rewindsBelow_fork hx _ (by simp [forks]) hfork
  split at h
  case isTrue hfork => cases h; exact rewindsBelow_fork hx _ (by simp [forks]) hfork
  · cases h

theorem checkCompatibleLoop_eq {n k : Nat} {last : ConfigCompatError}
    (hk : checkedConflict c c' = k) (hlow : k ≤ last.rewindTo.toNat + 1)
    (hn : last.rewindTo.toNat < n) :
    ∃ err, checkCompatibleLoop c c' n (some last) last.rewindTo = some (some err) ∧
      err.rewindTo.toNat = k - 1 := by
  induction n generalizing last with
  | zero => omega
  | succ n ih =>
    rw [checkCompatibleLoop]
    cases hcheck : c.checkCompatible c' last.rewindTo.toNat with
    | none =>
      refine ⟨last, rfl, ?_⟩
      rw [checkCompatible_eq_none, hk] at hcheck
      have : last.rewindTo.toNat < k := by exact_mod_cast hcheck
      omega
    | some err =>
      obtain ⟨t, hkt, htx, hrewind⟩ :=
        checkCompatible_rewinds last.rewindTo.toNat_lt hcheck
      rw [hk] at hkt
      have hkt' : k ≤ t := by exact_mod_cast hkt
      by_cases hsame : err.rewindTo = last.rewindTo
      · refine ⟨last, by simp [hsame], ?_⟩
        have := congrArg UInt64.toNat hsame
        omega
      · have hne : err.rewindTo.toNat ≠ last.rewindTo.toNat :=
          fun h => hsame (UInt64.toNat_inj.1 h)
        obtain ⟨res, hres, hto⟩ := ih (show k ≤ err.rewindTo.toNat + 1 by omega) (by omega)
        refine ⟨res, ?_, hto⟩
        simpa [hsame] using hres

theorem checkCompatible_height (height : UInt64) :
    ((height.toNat : ℕ∞) < checkedConflict c c' ∧ c.CheckCompatible c' height = some none) ∨
    ∃ (k : Nat) (err : ConfigCompatError), checkedConflict c c' = k ∧ k ≤ height.toNat ∧
      c.CheckCompatible c' height = some (some err) ∧ err.rewindTo.toNat = k - 1 := by
  rw [CheckCompatible, checkCompatibleLoop]
  cases hcheck : c.checkCompatible c' height.toNat with
  | none => exact .inl ⟨(checkCompatible_eq_none _).1 hcheck, rfl⟩
  | some err =>
    obtain ⟨t, hkt, htx, hrewind⟩ := checkCompatible_rewinds height.toNat_lt hcheck
    obtain ⟨k, hk⟩ := ENat.ne_top_iff_exists.1 (ne_top_of_le_ne_top (ENat.natCast_ne_top t) hkt)
    rw [← hk] at hkt
    have hkt' : k ≤ t := by exact_mod_cast hkt
    obtain ⟨res, hres, hto⟩ := checkCompatibleLoop_eq (n := height.toNat + 1) hk.symm
      (show k ≤ err.rewindTo.toNat + 1 by omega) (by omega)
    exact .inr ⟨k, res, hk.symm, by omega, hres, hto⟩

theorem largestAgreed_iff {a : Nat} (ha : realConflict c c' = a) (r : Nat) :
    LargestAgreed c c' r ↔ r = a - 1 := by
  rw [LargestAgreed, agreeUpTo_iff, agreeUpTo_iff, agreeUpTo_iff, ha]
  norm_cast
  omega

end Rewind

/-- The check is exact: it terminates, it finds no error exactly when the configurations agree up to
the height, and an error rewinds to the largest height of an agreement. -/
def Exact (c c' : ChainConfig) (height : UInt64) : Prop :=
  ∃ res, c.CheckCompatible c' height = some res ∧ (res = none ↔ AgreeUpTo c c' height.toNat) ∧
    ∀ err, res = some err → LargestAgreed c c' err.rewindTo.toNat

/-- The check is exact where the first conflict that it looks for and the first real one are both
past the height, or both up to the height and at the same place (or at 0 and 1, which both rewind
to 0). -/
theorem exact_iff (c c' : ChainConfig) (height : UInt64) : Exact c c' height ↔
      ((height.toNat : ℕ∞) < checkedConflict c c' ∧ (height.toNat : ℕ∞) < realConflict c c') ∨
      (checkedConflict c c' ≤ height.toNat ∧ realConflict c c' ≤ height.toNat ∧
        checkedConflict c c' - 1 = realConflict c c' - 1) := by
  rcases checkCompatible_height height with ⟨hlt, hres⟩ | ⟨k, err, hk, hkh, hres, hto⟩
  · constructor
    · rintro ⟨res, heq, hiff, -⟩
      cases hres.symm.trans heq
      exact .inl ⟨hlt, (agreeUpTo_iff _).1 (hiff.1 rfl)⟩
    · rintro (⟨-, hreal⟩ | ⟨hle, -⟩)
      · exact ⟨none, hres, iff_of_true rfl ((agreeUpTo_iff _).2 hreal), fun _ h => (nomatch h)⟩
      · exact absurd hle (not_le.2 hlt)
  · have hle : checkedConflict c c' ≤ height.toNat := by
      rw [hk]
      exact_mod_cast hkh
    constructor
    · rintro ⟨res, heq, hiff, hlargest⟩
      cases hres.symm.trans heq
      have hreal : realConflict c c' ≤ height.toNat := by
        refine not_lt.1 fun hlt => ?_
        cases hiff.2 ((agreeUpTo_iff _).2 hlt)
      obtain ⟨a, ha⟩ := ENat.ne_top_iff_exists.1 (ne_top_of_le_ne_top (ENat.natCast_ne_top _) hreal)
      have hrewind := (largestAgreed_iff ha.symm _).1 (hlargest err rfl)
      refine .inr ⟨hle, hreal, ?_⟩
      rw [hk, ← ha]
      exact_mod_cast hto.symm.trans hrewind
    · rintro (⟨hlt, -⟩ | ⟨-, hreal, heq⟩)
      · exact absurd hle (not_le.2 hlt)
      · obtain ⟨a, ha⟩ :=
          ENat.ne_top_iff_exists.1 (ne_top_of_le_ne_top (ENat.natCast_ne_top _) hreal)
        rw [hk, ← ha] at heq
        refine ⟨some err, hres, iff_of_false (by simp) fun hagree => ?_, fun e he => ?_⟩
        · exact absurd hreal (not_le.2 ((agreeUpTo_iff _).1 hagree))
        · cases he
          refine (largestAgreed_iff ha.symm _).2 (hto.trans ?_)
          exact_mod_cast heq

namespace Sample

/-- Replay protection from the start, EIP158 never. -/
def protected155 (chainID : Int) : ChainConfig :=
  ⟨⟨some 0, some 0, none, none, none⟩, some chainID, none, false, Hash.zero, some 0⟩

/-- Two chain ids pass the check, although the signers differ at every block. -/
theorem chainID_unchecked : (protected155 1).CheckCompatible (protected155 2) 10 = some none ∧
      (protected155 1).makeSigner 5 ≠ (protected155 2).makeSigner 5 ∧
      ¬ Exact (protected155 1) (protected155 2) 10 := by
  have hres : (protected155 1).CheckCompatible (protected155 2) 10 = some none := rfl
  have hdiffer : (protected155 1).makeSigner 5 ≠ (protected155 2).makeSigner 5 := by decide
  refine ⟨hres, hdiffer, ?_⟩
  rintro ⟨res, heq, hiff, -⟩
  cases hres.symm.trans heq
  exact hdiffer (hiff.1 rfl 5 (by decide)).signer

end Sample

end ChainConfig

end Geth
