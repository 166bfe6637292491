import Geth.Clique.Verify.Batches
import Geth.Clique.Verify.Tally

/-!
# Who can go on signing

The set of signers shrinks by one member at a time, so that it can only run empty from a single
signer, who alone can vote. As long as somebody is left, the window of recent signers leaves one of
them free to sign.
-/

namespace Geth.Clique

open Geth.Core List

theorem Counted.tally_eq_none {votes : List Vote} {tally : Address → Option Tally}
    (h : Counted votes tally) {a : Address} (hnone : ∀ vote ∈ votes, vote.address ≠ a) :
    tally a = none := by
  cases ht : tally a with
  | none => rfl
  | some t =>
    have hcount := h.count a
    have hpos := h.positive a t ht
    have hempty : votesOn votes a = [] :=
      filter_eq_nil_iff.2 fun vote hvote => by simpa using hnone vote hvote
    rw [ht, hempty] at hcount
    exact absurd hcount (Nat.ne_of_gt hpos)

namespace Snapshot

variable {E : Ecdsa} {epoch : Nat} {s : Snapshot}

/-! ## The last signer -/

/-- The header by which the only signer drops itself. -/
def SelfDrop (s : Snapshot) (header : Header) : Prop :=
  s.signers = {header.coinbase} ∧ header.nonce = nonceDropVote

theorem pass_signers (t : Snapshot) (number : Nat) (address : Address) :
    (t.pass number address).signers = match t.tally address with
      | none => t.signers
      | some tally =>
        if tally.votes > t.signers.card / 2 then
          if tally.authorize then insert address t.signers else t.signers.erase address
        else t.signers := by
  rw [pass]
  cases t.tally address with
  | none => rfl
  | some tally =>
    dsimp only
    split
    · split
      · exact (discardOn_sameWindow _ address).signers
      · rw [(discardOn_sameWindow _ address).signers, (discardBy_sameWindow _ address).signers,
          shift_signers]
    · rfl

/-- What a single signer has voted about itself before is gone when it votes again. -/
theorem Consistent.dropEarlier_tally {a : Address} (h : s.Consistent) (hsole : s.signers = {a}) :
    (s.dropEarlier a a).tally a = none := by
  obtain ⟨hcounted, hvotes, hnew⟩ := counted_dropEarlier h.counted a a
  refine hcounted.tally_eq_none fun vote hvote haddress => ?_
  have hvoter := h.voters vote (hvotes vote hvote)
  rw [hsole, Finset.mem_singleton] at hvoter
  exact hnew vote hvote ⟨hvoter, haddress⟩

variable {s' : Snapshot} {header : Header} {hash : Header → Hash}

theorem applyHeader_signers_empty_iff (hcons : s.Consistent)
    (h : applyHeader E epoch s header = .ok s') : s'.signers = ∅ ↔ s.SelfDrop header := by
  obtain ⟨signer, authorize, -, hmem, -, hnonce, rfl⟩ := applyHeader_ok h
  have hset := hcons.setRecent epoch (blockNumber header) signer
  have hsigners : ((s.prepare epoch (blockNumber header)).setRecent (blockNumber header)
      signer).signers = s.signers := prepare_signers s epoch (blockNumber header)
  generalize (s.prepare epoch (blockNumber header)).setRecent (blockNumber header) signer = p
    at hset hsigners ⊢
  have hdropped := (dropEarlier_sameWindow p signer header.coinbase).signers
  -- With a single signer, who is the one of this header, only the new vote counts.
  have hsole : s.signers = {header.coinbase} →
      signer = header.coinbase ∧ (p.dropEarlier signer header.coinbase).tally header.coinbase = none
      := by
    intro hsole
    obtain rfl : signer = header.coinbase := by rwa [hsole, Finset.mem_singleton] at hmem
    exact ⟨rfl, hset.dropEarlier_tally (hsigners.trans hsole)⟩
  generalize p.dropEarlier signer header.coinbase = u at hsole hdropped ⊢
  have husigners : u.signers = s.signers := hdropped.trans hsigners
  rw [pass_signers, (addVote_sameWindow u signer _ header.coinbase authorize).signers,
    husigners]
  constructor
  · intro hempty
    have hne : s.signers ≠ ∅ := Finset.ne_empty_of_mem hmem
    cases htally : (u.addVote signer (blockNumber header) header.coinbase authorize).tally
        header.coinbase with
    | none =>
      rw [htally] at hempty
      exact absurd hempty hne
    | some tally =>
      rw [htally] at hempty
      dsimp only at hempty
      split at hempty
      case isFalse => exact absurd hempty hne
      split at hempty
      · exact absurd hempty (Finset.insert_ne_empty _ _)
      have hone : s.signers = {header.coinbase} :=
        (Finset.erase_eq_empty_iff _ _).1 hempty |>.resolve_left hne
      refine ⟨hone, ?_⟩
      cases authorize with
      | false => exact hnonce
      | true =>
        have hinvalid : u.validVote header.coinbase true = false := by
          rw [validVote, husigners, hone]
          simp
        rw [addVote, cast, hinvalid, Bool.not_false, if_pos rfl] at htally
        cases htally.symm.trans (hsole hone).2
  · rintro ⟨hone, hdrop⟩
    obtain rfl : authorize = false := by
      cases authorize with
      | false => rfl
      | true => exact absurd (hnonce.symm.trans hdrop) (by decide)
    have hvalid : u.validVote header.coinbase false = true := by
      rw [validVote, husigners, hone]
      simp
    rw [addVote, cast, hvalid, Bool.not_true, if_neg Bool.false_ne_true, (hsole hone).2]
    dsimp only
    rw [Function.update_self, hone]
    simp

/-! ## Somebody is free to sign -/

/-- The recent signers stand under different blocks, as they do in a map. -/
def Keyed (s : Snapshot) : Prop := (s.recents.map Prod.fst).Nodup

theorem Keyed.of_sublist (h : s.Keyed) (hsub : s'.recents.Sublist s.recents) : s'.Keyed :=
  h.sublist (hsub.map Prod.fst)

theorem shift_sublist (s : Snapshot) (number : Nat) :
    (s.shift number).recents.Sublist s.recents := by
  rw [shift]
  split
  · exact filter_sublist
  · exact Sublist.refl _

theorem Keyed.setRecent (h : s.Keyed) (block : Nat) (signer : Address) :
    (s.setRecent block signer).Keyed := by
  refine nodup_cons.2 ⟨fun hmem => ?_, h.sublist (filter_sublist.map Prod.fst)⟩
  obtain ⟨e, he, heq⟩ := mem_map.1 hmem
  exact of_decide_eq_true (mem_filter.1 he).2 heq

theorem pass_sublist (s : Snapshot) (number : Nat) (address : Address) :
    (s.pass number address).recents.Sublist s.recents := by
  rw [pass]
  split
  · exact Sublist.refl _
  split
  · split
    · rw [(discardOn_sameWindow _ address).recents]
    · rw [(discardOn_sameWindow _ address).recents, (discardBy_sameWindow _ address).recents]
      exact shift_sublist { s with signers := s.signers.erase address } number
  · exact Sublist.refl _

theorem Keyed.applyHeader (hk : s.Keyed) (h : applyHeader E epoch s header = .ok s') :
    s'.Keyed := by
  obtain ⟨signer, authorize, -, -, -, -, rfl⟩ := applyHeader_ok h
  have hprepare : (s.prepare epoch (blockNumber header)).Keyed := by
    refine Keyed.of_sublist (s := if (blockNumber header) % epoch = 0 then
      { s with votes := [], tally := fun _ => none } else s) ?_ (shift_sublist _ _)
    split <;> exact hk
  refine (hprepare.setRecent (blockNumber header) signer).of_sublist ?_
  refine (pass_sublist _ _ _).trans ?_
  rw [(addVote_sameWindow ..).recents, (dropEarlier_sameWindow ..).recents]

/-- What every snapshot reached from a genesis block keeps. -/
structure Reached (s : Snapshot) : Prop where
  consistent : s.Consistent
  window : s.Window s.number
  keyed : s.Keyed

theorem reached_new (genesis : Hash) (signers : List Address) :
    (new 0 genesis signers).Reached where
  consistent := ⟨counted_nil, fun _ _ ht => (nomatch ht), fun _ hvote => (nomatch hvote)⟩
  window _ he := nomatch he
  keyed := nodup_nil

theorem apply_singleton_ok {t : Snapshot} :
    apply E hash epoch s [header] = .ok t ↔ blockNumber header = s.number + 1 ∧
      ∃ u, applyHeader E epoch s header = .ok u ∧ t = u.relabel (s.number + 1) (hash header) := by
  rw [apply_eq_ok, Numbered, Numbered, and_true, applyLoop]
  refine and_congr_right fun _ => ?_
  cases hu : applyHeader E epoch s header with
  | error err =>
    constructor
    · rintro ⟨_, h, -⟩
      cases h
    · rintro ⟨_, h, -⟩
      cases h
  | ok u =>
    have hstamp : stamp hash [header] u = u.relabel (s.number + 1) (hash header) := by
      rw [stamp_eq_relabel, applyHeader_number hu]
      rfl
    simp [applyLoop, hstamp]

theorem Reached.apply_singleton {t : Snapshot} (hs : s.Reached)
    (h : apply E hash epoch s [header] = .ok t) : t.Reached := by
  obtain ⟨hnumber, u, hu, rfl⟩ := apply_singleton_ok.1 h
  obtain ⟨hcounted, hvalid, hvoters⟩ := hs.consistent.applyHeader hu
  have hwindow : u.Window (s.number + 1) := (hs.window.applyHeader hnumber hu).1
  have hkeyed : u.Keyed := hs.keyed.applyHeader hu
  exact ⟨⟨hcounted, hvalid, hvoters⟩, hwindow, hkeyed⟩

theorem reached_of_apply {genesis : Hash} {signers : List Address} {headers : List Header}
    {snap : Snapshot} (h : apply E hash epoch (new 0 genesis signers) headers = .ok snap) :
    snap.Reached := by
  induction headers using List.reverseRecOn generalizing snap with
  | nil =>
    cases h
    exact reached_new genesis signers
  | append_singleton headers header ih =>
    obtain ⟨mid, hmid, hlast⟩ := apply_append_ok.1 h
    exact (ih hmid).apply_singleton hlast

/-- The entries that still block a signer from the next block are fewer than the signers. -/
theorem Reached.exists_free (hs : s.Reached) (hne : s.signers.Nonempty) :
    ∃ signer ∈ s.signers, ∀ e ∈ s.recents, e.1 + s.limit ≠ s.number + 1 → e.2 ≠ signer := by
  let blocking := s.recents.filter fun e => e.1 + s.limit ≠ s.number + 1
  have hmem : ∀ e ∈ blocking, e.1 ≤ s.number ∧ s.number - e.1 < s.signers.card / 2 := by
    intro e he
    obtain ⟨hrecent, hblocks⟩ := mem_filter.1 he
    have hne := of_decide_eq_true hblocks
    obtain ⟨hle, hlt⟩ := hs.window e hrecent
    rw [limit] at hne hlt
    omega
  have hlength : blocking.length ≤ s.signers.card / 2 := by
    -- The entries stand under different blocks, which are among the last `card / 2`.
    have hkeys : (blocking.map Prod.fst).Nodup :=
      hs.keyed.sublist (filter_sublist.map Prod.fst)
    have hages : ((blocking.map Prod.fst).map (s.number - ·)).Nodup := by
      refine hkeys.map_on fun x hx y hy heq => ?_
      obtain ⟨e, he, rfl⟩ := mem_map.1 hx
      obtain ⟨f, hf, rfl⟩ := mem_map.1 hy
      have hxe := hmem e he
      have hyf := hmem f hf
      omega
    have hsub : ((blocking.map Prod.fst).map (s.number - ·)).toFinset ⊆
        Finset.range (s.signers.card / 2) := by
      intro x hx
      obtain ⟨y, hy, rfl⟩ := mem_map.1 (mem_toFinset.1 hx)
      obtain ⟨e, he, rfl⟩ := mem_map.1 hy
      exact Finset.mem_range.2 (hmem e he).2
    have hcard := Finset.card_le_card hsub
    rwa [toFinset_card_of_nodup hages, length_map, length_map, Finset.card_range] at hcard
  have hpos := hne.card_pos
  have hfew : (blocking.map Prod.snd).toFinset.card < s.signers.card := by
    have := (blocking.map Prod.snd).toFinset_card_le
    rw [length_map] at this
    omega
  obtain ⟨signer, hsigner, hfree⟩ := Finset.exists_mem_notMem_of_card_lt_card hfew
  refine ⟨signer, hsigner, fun e he hblocks heq => hfree ?_⟩
  refine mem_toFinset.2 (mem_map.2 ⟨e, mem_filter.2 ⟨he, ?_⟩, heq⟩)
  exact decide_eq_true hblocks

theorem apply_of_free {signer : Address} (hepoch : epoch ≠ 0)
    (hnumber : blockNumber header = s.number + 1) (hrecover : ecrecover E header = .ok signer)
    (hsigner : signer ∈ s.signers)
    (hfree : ∀ e ∈ s.recents, e.1 + s.limit ≠ s.number + 1 → e.2 ≠ signer)
    (hnonce : header.nonce = nonceAuthVote ∨ header.nonce = nonceDropVote) :
    ∃ t, apply E hash epoch s [header] = .ok t := by
  have hround : ∃ u, applyHeader E epoch s header = .ok u := by
    have hrecent : ¬ (s.prepare epoch (blockNumber header)).recents.any
        (fun recent => decide (recent.2 = signer)) = true := by
      intro hany
      obtain ⟨e, he, heq⟩ := any_eq_true.1 hany
      obtain ⟨hmem, hne⟩ := (mem_prepare s epoch (blockNumber header) e).1 he
      exact hfree e hmem (hnumber ▸ hne) (of_decide_eq_true heq)
    rw [applyHeader, if_neg hepoch, hrecover]
    dsimp only
    rw [prepare_signers, if_neg (not_not.2 hsigner), if_neg hrecent]
    by_cases hauth : header.nonce = nonceAuthVote
    · rw [if_pos hauth]
      exact ⟨_, rfl⟩
    · rw [if_neg hauth, if_pos (hnonce.resolve_left hauth)]
      exact ⟨_, rfl⟩
  obtain ⟨u, hu⟩ := hround
  exact ⟨_, apply_singleton_ok.2 ⟨hnumber, u, hu, rfl⟩⟩

/-! ## Whole runs -/

/-- The chain can go on: there are signers, the difficulty of the next block is defined for
everybody, and some signer can extend the chain with any header of its own. -/
structure Alive (E : Ecdsa) (hash : Header → Hash) (epoch : Nat) (s : Snapshot) : Prop where
  nonempty : s.signers.Nonempty
  inturn : ∀ number signer, s.inturn number signer ≠ none
  difficulty : ∀ signer, s.calcDifficulty signer ≠ none
  extends_ : ∃ signer ∈ s.signers, ∀ header : Header, blockNumber header = s.number + 1 →
    ecrecover E header = .ok signer →
    header.nonce = nonceAuthVote ∨ header.nonce = nonceDropVote →
    ∃ t, apply E hash epoch s [header] = .ok t

theorem Reached.alive (hs : s.Reached) (hepoch : epoch ≠ 0) (hne : s.signers.Nonempty) :
    Alive E hash epoch s := by
  have hcard : ¬ s.signers.card = 0 := Finset.card_ne_zero.2 hne
  have hinturn : ∀ number signer, s.inturn number signer ≠ none := by
    intro number signer h
    rw [Snapshot.inturn, if_neg hcard] at h
    cases h
  obtain ⟨signer, hsigner, hfree⟩ := hs.exists_free hne
  refine ⟨hne, hinturn, fun signer h => ?_, signer, hsigner, fun header hnumber hrecover hnonce =>
    apply_of_free hepoch hnumber hrecover hsigner hfree hnonce⟩
  exact hinturn (s.number + 1) signer (Option.map_eq_none_iff.1 h)

/-- The chain can go on after every header of a run, exactly when in the run the only signer never
drops itself. -/
theorem alive_iff_no_selfDrop (E : Ecdsa) (hash : Header → Hash) (epoch : Nat) (genesis : Hash)
    (signers : List Address) (hsigners : signers ≠ []) (headers : List Header) (snap : Snapshot)
    (h : apply E hash (engineEpoch epoch) (new 0 genesis signers) headers = .ok snap) :
    (∀ k s, apply E hash (engineEpoch epoch) (new 0 genesis signers) (headers.take k) = .ok s →
      Alive E hash (engineEpoch epoch) s) ↔
    ∀ k s header,
      apply E hash (engineEpoch epoch) (new 0 genesis signers) (headers.take k) = .ok s →
      headers[k]? = some header → ¬ s.SelfDrop header := by
  have hepoch := engineEpoch_ne_zero epoch
  generalize engineEpoch epoch = ep at *
  constructor
  · intro halive k s header hs hk hself
    rw [← List.take_append_drop (k + 1) headers] at h
    obtain ⟨t, ht, -⟩ := apply_append_ok.1 h
    have hnext := ht
    rw [List.take_add_one, hk] at hnext
    obtain ⟨mid, hmid, hlast⟩ := apply_append_ok.1 hnext
    cases hs.symm.trans hmid
    obtain ⟨-, u, hu, rfl⟩ := apply_singleton_ok.1 hlast
    have hempty : u.signers = ∅ :=
      (applyHeader_signers_empty_iff (reached_of_apply hs).consistent hu).2 hself
    exact (halive (k + 1) _ ht).nonempty.ne_empty hempty
  · intro hno k s hs
    refine (reached_of_apply hs).alive hepoch ?_
    induction k generalizing s with
    | zero =>
      cases hs
      exact (List.toFinset_nonempty_iff signers).2 hsigners
    | succ k ih =>
      rw [List.take_add_one] at hs
      cases hk : headers[k]? with
      | none =>
        rw [hk, Option.toList_none, List.append_nil] at hs
        exact ih s hs
      | some header =>
        rw [hk] at hs
        obtain ⟨mid, hmid, hlast⟩ := apply_append_ok.1 hs
        obtain ⟨-, u, hu, rfl⟩ := apply_singleton_ok.1 hlast
        refine Finset.nonempty_iff_ne_empty.2 fun hempty => hno k mid header hmid hk ?_
        exact (applyHeader_signers_empty_iff (reached_of_apply hmid).consistent hu).1 hempty

end Snapshot

namespace Sample

open Snapshot

/-- Two signers, one of which drops the other with its help. -/
def leaving : List Header :=
  [header 1 1 2 nonceDropVote 1, header 2 2 2 nonceDropVote 1, header 3 1 3 nonceDropVote 1]

/-- Whether the header `k` is not the vote of the only signer on itself. -/
def stays (k : Nat) : Bool :=
  match apply curve hash (engineEpoch 0) (new 0 Hash.zero [address 1, address 2])
      (leaving.take k), leaving[k]? with
  | .ok s, some header => s.signers ≠ {header.coinbase}
  | _, _ => true

theorem alive_leaving : ∃ snap,
    apply curve hash (engineEpoch 0) (new 0 Hash.zero [address 1, address 2]) leaving = .ok snap ∧
    ∀ k s, apply curve hash (engineEpoch 0) (new 0 Hash.zero [address 1, address 2])
      (leaving.take k) = .ok s → Alive curve hash (engineEpoch 0) s := by
  obtain ⟨snap, hsnap⟩ : ∃ snap, apply curve hash (engineEpoch 0)
      (new 0 Hash.zero [address 1, address 2]) leaving = .ok snap := by
    have hok : (apply curve hash (engineEpoch 0) (new 0 Hash.zero [address 1, address 2])
      leaving).isOk = true := by decide +kernel
    cases h : apply curve hash (engineEpoch 0) (new 0 Hash.zero [address 1, address 2]) leaving with
    | error err =>
      rw [h] at hok
      cases hok
    | ok snap => exact ⟨snap, rfl⟩
  refine ⟨snap, hsnap, (alive_iff_no_selfDrop curve hash 0 Hash.zero [address 1, address 2]
    (List.cons_ne_nil _ _) leaving snap hsnap).2 fun k s header hs hk hself => ?_⟩
  have hstays : ∀ k < 3, stays k = true := by decide +kernel
  have hlt : k < 3 := (List.getElem?_eq_some_iff.1 hk).1
  have hk' := hstays k hlt
  rw [stays, hs, hk] at hk'
  exact of_decide_eq_true hk' hself.1

/-- A single signer drops itself, and the next turn has no signer to count. -/
theorem selfDrop_empty : ∃ snap,
    apply curve hash (engineEpoch 0) (new 0 Hash.zero [address 1]) [header 1 1 1 nonceDropVote 2] =
      .ok snap ∧ snap.signers = ∅ ∧ snap.inturn 2 (address 1) = none ∧
      snap.calcDifficulty (address 1) = none := by
  refine ⟨_, rfl, ?_, ?_, ?_⟩ <;> decide +kernel

end Sample

end Geth.Clique
