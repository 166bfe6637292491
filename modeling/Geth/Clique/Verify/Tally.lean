import Geth.Clique.Verify.Recents

/-!
# The tally counts the votes

The votes and their tally are two records of one thing. `Counted` is what ties them together without
the signers; each way to add or remove a vote keeps it. With the signers, the votes are still
meaningful and their voters are signers (`Consistent`), which every accepted header keeps.
-/

namespace Geth.Clique

open Geth.Core Function List

/-- The votes on an address. -/
def votesOn (votes : List Vote) (address : Address) : List Vote :=
  votes.filter (·.address = address)

/-- The tally counts the votes, in their direction, and nobody votes twice on an address. -/
structure Counted (votes : List Vote) (tally : Address → Option Tally) : Prop where
  count : ∀ a, ((tally a).map Tally.votes).getD 0 = (votesOn votes a).length
  positive : ∀ a t, tally a = some t → 0 < t.votes
  direction : ∀ vote ∈ votes, ∀ t, tally vote.address = some t → t.authorize = vote.authorize
  distinct : (votes.map fun vote => (vote.signer, vote.address)).Nodup

theorem counted_nil : Counted [] fun _ => none where
  count _ := rfl
  positive _ _ h := nomatch h
  direction _ h := nomatch h
  distinct := nodup_nil

namespace Counted

variable {votes : List Vote} {tally : Address → Option Tally}

theorem tally_of_mem (h : Counted votes tally) {vote : Vote} (hvote : vote ∈ votes) :
    ∃ t, tally vote.address = some t ∧ t.authorize = vote.authorize := by
  cases ht : tally vote.address with
  | some t => exact ⟨t, rfl, h.direction vote hvote t ht⟩
  | none =>
    have hcount := h.count vote.address
    rw [ht] at hcount
    have hmem : vote ∈ votesOn votes vote.address :=
      mem_filter.mpr ⟨hvote, decide_eq_true rfl⟩
    rw [eq_nil_of_length_eq_zero hcount.symm] at hmem
    cases hmem

theorem remove {l r : List Vote} {vote : Vote} (h : Counted (l ++ vote :: r) tally) {t : Tally}
    (ht : tally vote.address = some t) :
    Counted (l ++ r) (update tally vote.address
      (if t.votes > 1 then some { t with votes := t.votes - 1 } else none)) := by
  have hsub : ∀ v ∈ l ++ r, v ∈ l ++ vote :: r := by
    intro v hv
    rcases mem_append.mp hv with hv | hv
    · exact mem_append_left _ hv
    · exact mem_append_right _ (mem_cons_of_mem vote hv)
  refine ⟨fun a => ?_, fun a u hu => ?_, fun v hv u hu => ?_, ?_⟩
  · have hcount := h.count a
    rw [votesOn, filter_append, length_append] at hcount ⊢
    by_cases ha : a = vote.address
    · subst ha
      rw [filter_cons_of_pos (by simp), length_cons, ht, Option.map_some,
        Option.getD_some] at hcount
      rw [update_self]
      split
      · rw [Option.map_some, Option.getD_some]
        dsimp only
        omega
      · rw [Option.map_none, Option.getD_none]
        omega
    · rw [filter_cons_of_neg (by simpa using Ne.symm ha)] at hcount
      rwa [update_of_ne ha]
  · by_cases ha : a = vote.address
    · subst ha
      rw [update_self] at hu
      split at hu
      · cases hu
        exact Nat.sub_pos_of_lt ‹_›
      · cases hu
    · rw [update_of_ne ha] at hu
      exact h.positive a u hu
  · by_cases ha : v.address = vote.address
    · rw [ha, update_self] at hu
      split at hu
      · cases hu
        exact h.direction v (hsub v hv) t (by rw [ha, ht])
      · cases hu
    · rw [update_of_ne ha] at hu
      exact h.direction v (hsub v hv) u hu
  · have hnodup := h.distinct
    rw [map_append, map_cons] at hnodup
    rw [map_append]
    exact (nodup_cons.mp (nodup_middle.mp hnodup)).2

theorem clear (h : Counted votes tally) (address : Address) :
    Counted (votes.filter fun vote => !decide (vote.address = address))
      (update tally address none) := by
  refine ⟨fun a => ?_, fun a u hu => ?_, fun v hv u hu => ?_, ?_⟩
  · rw [votesOn, filter_filter]
    by_cases ha : a = address
    · subst ha
      rw [update_self, filter_eq_nil_iff.mpr (by simp)]
      rfl
    · rw [update_of_ne ha, h.count a, votesOn]
      congr 2
      funext v
      by_cases hv : v.address = a
      · simp [hv, ha]
      · simp [hv]
  · by_cases ha : a = address
    · subst ha
      rw [update_self] at hu
      cases hu
    · rw [update_of_ne ha] at hu
      exact h.positive a u hu
  · obtain ⟨hmem, hne⟩ := mem_filter.mp hv
    rw [update_of_ne (by simpa using hne)] at hu
    exact h.direction v hmem u hu
  · exact h.distinct.sublist (Sublist.map _ (filter_sublist))

theorem add (h : Counted votes tally) (vote : Vote)
    (hnew : ∀ v ∈ votes, ¬ (v.signer = vote.signer ∧ v.address = vote.address))
    (hdir : ∀ t, tally vote.address = some t → t.authorize = vote.authorize) :
    Counted (votes ++ [vote]) (update tally vote.address (some (match tally vote.address with
      | some old => { old with votes := old.votes + 1 }
      | none => ⟨vote.authorize, 1⟩))) := by
  generalize hup : (match tally vote.address with
    | some old => { old with votes := old.votes + 1 }
    | none => (⟨vote.authorize, 1⟩ : Tally)) = up
  have hcount : up.votes = ((tally vote.address).map Tally.votes).getD 0 + 1 := by
    subst hup
    cases tally vote.address <;> rfl
  have hauth : up.authorize = vote.authorize := by
    subst hup
    cases ht : tally vote.address with
    | none => rfl
    | some old => exact hdir old ht
  refine ⟨fun a => ?_, fun a u hu => ?_, fun v hv u hu => ?_, ?_⟩
  · rw [votesOn, filter_append, length_append]
    by_cases ha : a = vote.address
    · subst ha
      rw [update_self, Option.map_some, Option.getD_some, hcount, h.count, votesOn,
        filter_cons_of_pos (by simp)]
      rfl
    · rw [update_of_ne ha, h.count a, votesOn, filter_cons_of_neg (by simpa using Ne.symm ha)]
      rfl
  · by_cases ha : a = vote.address
    · subst ha
      rw [update_self] at hu
      cases hu
      omega
    · rw [update_of_ne ha] at hu
      exact h.positive a u hu
  · by_cases ha : v.address = vote.address
    · rw [ha, update_self] at hu
      cases hu
      rcases mem_append.mp hv with hv | hv
      · obtain ⟨t, ht, htv⟩ := h.tally_of_mem hv
        rw [hauth, ← htv, hdir t (ha ▸ ht)]
      · rw [mem_singleton.mp hv, hauth]
    · rw [update_of_ne ha] at hu
      rcases mem_append.mp hv with hv | hv
      · exact h.direction v hv u hu
      · rw [mem_singleton.mp hv] at ha
        exact absurd rfl ha
  · rw [map_append, map_singleton]
    refine nodup_append.mpr ⟨h.distinct, nodup_singleton _, fun x hx y hy hxy => ?_⟩
    obtain ⟨v, hv, rfl⟩ := mem_map.mp hx
    rw [mem_singleton.mp hy] at hxy
    exact hnew v hv ⟨congrArg Prod.fst hxy, congrArg Prod.snd hxy⟩

end Counted

namespace Snapshot

variable {E : Ecdsa} {epoch : Nat} {s : Snapshot}

/-! ## The loops over the votes -/

theorem uncast_tally {address : Address} {authorize : Bool} {t : Tally}
    (ht : s.tally address = some t)
    (hauth : t.authorize = authorize) : (s.uncast address authorize).tally = update s.tally address
        (if t.votes > 1 then some { t with votes := t.votes - 1 } else none) := by
  rw [uncast, ht]
  dsimp only
  rw [if_neg (not_not.mpr hauth)]
  split <;> rfl

theorem counted_uncast (h : Counted s.votes s.tally) {i : Nat} {vote : Vote}
    (hi : s.votes[i]? = some vote) :
    Counted (s.votes.eraseIdx i) (s.uncast vote.address vote.authorize).tally := by
  obtain ⟨hlt, rfl⟩ := List.getElem?_eq_some_iff.mp hi
  obtain ⟨t, ht, hauth⟩ := h.tally_of_mem (getElem_mem hlt)
  rw [uncast_tally ht hauth, eraseIdx_eq_take_drop_succ]
  have hsplit : s.votes = s.votes.take i ++ s.votes[i] :: s.votes.drop (i + 1) := by
    rw [← drop_eq_getElem_cons hlt, take_append_drop]
  rw [hsplit] at h
  exact h.remove ht

theorem discard_votes (select : Vote → Bool) (undo : Snapshot → Vote → Snapshot) (i : Nat)
    (s : Snapshot) :
    (s.discard select undo i).votes =
      s.votes.take i ++ (s.votes.drop i).filter fun vote => !select vote := by
  induction i, s using discard.induct select undo with
  | case1 i s h hsel ih =>
    rw [discard, dif_pos h, if_pos hsel, ih]
    rw [drop_eq_getElem_cons h, filter_cons_of_neg (by simp [hsel]),
      eraseIdx_eq_take_drop_succ, take_left' (by simp; omega),
      drop_left' (by simp; omega)]
  | case2 i s h hsel ih =>
    rw [discard, dif_pos h, if_neg hsel, ih, drop_eq_getElem_cons h,
      filter_cons_of_pos (by simpa using hsel), take_succ_eq_append_getElem h, append_assoc]
    rfl
  | case3 i s h =>
    rw [discard, dif_neg h, take_of_length_le (not_lt.mp h), drop_of_length_le
      (not_lt.mp h),
      filter_nil, append_nil]

theorem discardBy_votes (s : Snapshot) (signer : Address) :
    (s.discardBy signer).votes = s.votes.filter fun vote => !decide (vote.signer = signer) := by
  rw [discardBy, discard_votes]
  rfl

theorem counted_discardBy (h : Counted s.votes s.tally) (signer : Address) :
    Counted (s.discardBy signer).votes (s.discardBy signer).tally := by
  rw [discardBy]
  generalize 0 = i
  induction i, s using discard.induct (fun vote => decide (vote.signer = signer))
    (fun s vote => s.uncast vote.address vote.authorize) with
  | case1 i s hlt hsel ih =>
    rw [discard, dif_pos hlt, if_pos hsel]
    exact ih (counted_uncast h (List.getElem?_eq_getElem hlt))
  | case2 i s hlt hsel ih =>
    rw [discard, dif_pos hlt, if_neg hsel]
    exact ih h
  | case3 i s hlt =>
    rw [discard, dif_neg hlt]
    exact h

theorem discard_tally (select : Vote → Bool) (i : Nat) (s : Snapshot) :
    (s.discard select (fun s _ => s) i).tally = s.tally := by
  induction i, s using discard.induct select fun s _ => s with
  | case1 i s h hsel ih =>
    rw [discard, dif_pos h, if_pos hsel, ih]
  | case2 i s h hsel ih =>
    rw [discard, dif_pos h, if_neg hsel, ih]
  | case3 i s h => rw [discard, dif_neg h]

theorem discardOn_eq (s : Snapshot) (address : Address) :
    (s.discardOn address).votes = (s.votes.filter fun vote => !decide (vote.address = address)) ∧
      (s.discardOn address).tally = update s.tally address none := by
  rw [discardOn]
  rw [discard_votes, discard_tally]
  exact ⟨rfl, rfl⟩

theorem counted_dropEarlier (h : Counted s.votes s.tally) (signer address : Address) :
    Counted (s.dropEarlier signer address).votes (s.dropEarlier signer address).tally ∧
      (∀ vote ∈ (s.dropEarlier signer address).votes, vote ∈ s.votes) ∧
      ∀ vote ∈ (s.dropEarlier signer address).votes,
        ¬ (vote.signer = signer ∧ vote.address = address) := by
  rw [dropEarlier]
  cases hfind : s.votes.findIdx? fun vote => vote.signer = signer ∧ vote.address = address with
  | none =>
    refine ⟨h, fun _ => id, fun vote hvote hpair => ?_⟩
    exact of_decide_eq_false (List.findIdx?_eq_none_iff.mp hfind vote hvote) hpair
  | some i =>
    obtain ⟨hlt, hsel, -⟩ := List.findIdx?_eq_some_iff_getElem.mp hfind
    have hpair := of_decide_eq_true hsel
    dsimp only
    rw [List.getElem?_eq_getElem hlt]
    refine ⟨counted_uncast h (List.getElem?_eq_getElem hlt),
      fun vote hvote => mem_of_mem_eraseIdx hvote, fun vote hvote hsame => ?_⟩
    -- Two votes of one pair would stand at one place of the list.
    obtain ⟨j, hji, hj⟩ := mem_eraseIdx_iff_getElem?.mp hvote
    refine hji ((List.getElem?_inj (by simpa using hlt) h.distinct).mp ?_).symm
    rw [List.getElem?_map, List.getElem?_map, hj, List.getElem?_eq_getElem hlt, Option.map_some,
      Option.map_some, hpair.1, hpair.2, hsame.1, hsame.2]

/-! ## Consistency with the signers -/

theorem validVote_iff (s : Snapshot) (address : Address) (authorize : Bool) :
    s.validVote address authorize = true ↔ authorize = !decide (address ∈ s.signers) := by
  rw [validVote]
  cases authorize <;> cases decide (address ∈ s.signers) <;> decide

/-- The tally counts the votes; it goes for what would change, and the voters are signers. -/
structure Consistent (s : Snapshot) : Prop where
  counted : Counted s.votes s.tally
  valid : ∀ a t, s.tally a = some t → t.authorize = !decide (a ∈ s.signers)
  voters : ∀ vote ∈ s.votes, vote.signer ∈ s.signers

theorem uncast_tally_le (address : Address) (authorize : Bool) {a : Address} {t : Tally}
    (h : (s.uncast address authorize).tally a = some t) : ∃ u, s.tally a = some u ∧
      u.authorize = t.authorize := by
  rw [uncast] at h
  split at h
  · exact ⟨t, h, rfl⟩
  case h_2 old hold =>
    split at h
    · exact ⟨t, h, rfl⟩
    split at h
    all_goals
      by_cases ha : a = address
      · subst ha
        dsimp only at h
        rw [update_self] at h
        cases h
        try exact ⟨old, hold, rfl⟩
      · dsimp only at h
        rw [update_of_ne ha] at h
        exact ⟨t, h, rfl⟩

theorem discardBy_tally_le (signer : Address) {a : Address} {t : Tally}
    (h : (s.discardBy signer).tally a = some t) : ∃ u, s.tally a = some u ∧
      u.authorize = t.authorize := by
  rw [discardBy] at h
  generalize 0 = i at h
  induction i, s using discard.induct (fun vote => decide (vote.signer = signer))
    (fun s vote => s.uncast vote.address vote.authorize) with
  | case1 i s hlt hsel ih =>
    rw [discard, dif_pos hlt, if_pos hsel] at h
    obtain ⟨u, hu, hut⟩ := ih h
    obtain ⟨v, hv, hvu⟩ := uncast_tally_le _ _ hu
    exact ⟨v, hv, hvu.trans hut⟩
  | case2 i s hlt hsel ih =>
    rw [discard, dif_pos hlt, if_neg hsel] at h
    exact ih h
  | case3 i s hlt =>
    rw [discard, dif_neg hlt] at h
    exact ⟨t, h, rfl⟩

theorem Consistent.of_le {s' : Snapshot} (h : s.Consistent) (hcounted : Counted s'.votes s'.tally)
    (hsigners : s'.signers = s.signers) (hvotes : ∀ vote ∈ s'.votes, vote ∈ s.votes)
    (htally : ∀ a t, s'.tally a = some t → ∃ u, s.tally a = some u ∧ u.authorize = t.authorize) :
    s'.Consistent where
  counted := hcounted
  valid a t ht := by
    obtain ⟨u, hu, hut⟩ := htally a t ht
    rw [← hut, h.valid a u hu, hsigners]
  voters vote hvote := by
    rw [hsigners]
    exact h.voters vote (hvotes vote hvote)

theorem Consistent.dropEarlier (h : s.Consistent) (signer address : Address) :
    (s.dropEarlier signer address).Consistent := by
  obtain ⟨hcounted, hvotes, -⟩ := counted_dropEarlier h.counted signer address
  refine h.of_le hcounted (dropEarlier_sameWindow s signer address).signers hvotes fun a t ht => ?_
  rw [Snapshot.dropEarlier] at ht
  split at ht
  · exact ⟨t, ht, rfl⟩
  split at ht
  · exact ⟨t, ht, rfl⟩
  · exact uncast_tally_le _ _ ht

theorem Consistent.addVote (h : s.Consistent) {signer : Address} (hsigner : signer ∈ s.signers)
    (number : Nat) (address : Address) (authorize : Bool)
    (hnew : ∀ vote ∈ s.votes, ¬ (vote.signer = signer ∧ vote.address = address)) :
    (s.addVote signer number address authorize).Consistent := by
  rw [Snapshot.addVote, Snapshot.cast]
  by_cases hvalid : s.validVote address authorize = true
  · have hauth := (validVote_iff s address authorize).mp hvalid
    rw [hvalid, Bool.not_true, if_neg Bool.false_ne_true]
    refine ⟨h.counted.add ⟨signer, number, address, authorize⟩ hnew
      fun t ht => (h.valid address t ht).trans hauth.symm, fun a t ht => ?_, fun vote hvote => ?_⟩
    · by_cases ha : a = address
      · subst ha
        dsimp only at ht
        rw [update_self] at ht
        cases ht
        cases hold : s.tally a with
        | none => exact hauth
        | some old => exact h.valid a old hold
      · dsimp only at ht
        rw [update_of_ne ha] at ht
        exact h.valid a t ht
    · rcases mem_append.mp hvote with hvote | hvote
      · exact h.voters vote hvote
      · rwa [mem_singleton.mp hvote]
  · rw [Bool.not_eq_true] at hvalid
    rw [hvalid, Bool.not_false, if_pos rfl]
    exact h

theorem shift_votes (s : Snapshot) (number : Nat) :
    (s.shift number).votes = s.votes ∧ (s.shift number).tally = s.tally := by
  rw [shift]
  split <;> exact ⟨rfl, rfl⟩

/-- The signers change at one address: without the votes on it the rest stays consistent. -/
theorem consistent_discardOn {address : Address} (hcounted : Counted s.votes s.tally)
    (hvalid : ∀ a t, a ≠ address → s.tally a = some t → t.authorize = !decide (a ∈ s.signers))
    (hvoters : ∀ vote ∈ s.votes, vote.signer ∈ s.signers) : (s.discardOn address).Consistent := by
  obtain ⟨hvotes, htally⟩ := discardOn_eq s address
  have hsigners := (discardOn_sameWindow s address).signers
  refine ⟨?_, fun a t ht => ?_, fun vote hvote => ?_⟩
  · rw [hvotes, htally]
    exact hcounted.clear address
  · rw [htally] at ht
    rw [hsigners]
    by_cases ha : a = address
    · rw [ha, update_self] at ht
      cases ht
    · rw [update_of_ne ha] at ht
      exact hvalid a t ha ht
  · rw [hvotes] at hvote
    rw [hsigners]
    exact hvoters vote (mem_of_mem_filter hvote)

theorem Consistent.pass (h : s.Consistent) (number : Nat) (address : Address) :
    (s.pass number address).Consistent := by
  rw [Snapshot.pass]
  split
  · exact h
  split
  case isFalse => exact h
  case isTrue =>
    split
    case isTrue =>
      refine consistent_discardOn h.counted (fun a t ha ht => ?_)
        fun vote hvote => Finset.mem_insert_of_mem (h.voters vote hvote)
      rw [h.valid a t ht]
      simp [ha]
    case isFalse =>
      obtain ⟨hvotes, htally⟩ := shift_votes { s with signers := s.signers.erase address } number
      have hsigners := shift_signers { s with signers := s.signers.erase address } number
      generalize shift { s with signers := s.signers.erase address } number = u at *
      have hcounted : Counted u.votes u.tally := by
        rw [hvotes, htally]
        exact h.counted
      have hsigners' := (discardBy_sameWindow u address).signers
      refine consistent_discardOn (counted_discardBy hcounted address) (fun a t ha ht => ?_)
        fun vote hvote => ?_
      · obtain ⟨v, hv, hvt⟩ := discardBy_tally_le address ht
        rw [htally] at hv
        rw [hsigners', hsigners, ← hvt, h.valid a v hv]
        simp [ha]
      · rw [discardBy_votes] at hvote
        obtain ⟨hmem, hne⟩ := mem_filter.mp hvote
        rw [hvotes] at hmem
        rw [hsigners', hsigners]
        exact Finset.mem_erase.mpr ⟨by simpa using hne, h.voters vote hmem⟩

/-! ## Whole runs -/

theorem Consistent.prepare (h : s.Consistent) (epoch number : Nat) :
    (s.prepare epoch number).Consistent := by
  have hcheck : Consistent
      (if number % epoch = 0 then { s with votes := [], tally := fun _ => none } else s) := by
    split
    · exact ⟨counted_nil, fun _ _ ht => (nomatch ht), fun _ hvote => (nomatch hvote)⟩
    · exact h
  rw [Snapshot.prepare]
  generalize (if number % epoch = 0 then { s with votes := [], tally := fun _ => none } else s) = u
    at hcheck
  obtain ⟨hvotes, htally⟩ := shift_votes u number
  refine hcheck.of_le ?_ (shift_signers u number) (fun vote hvote => hvotes ▸ hvote)
    fun a t ht => ⟨t, htally ▸ ht, rfl⟩
  rw [hvotes, htally]
  exact hcheck.counted

theorem Consistent.setRecent (h : s.Consistent) (epoch number : Nat) (signer : Address) :
    ((s.prepare epoch number).setRecent number signer).Consistent :=
  (h.prepare epoch number).of_le (h.prepare epoch number).counted rfl (fun _ => id)
    fun _ t ht => ⟨t, ht, rfl⟩

theorem Consistent.applyHeader {s' : Snapshot} {header : Header} (h : s.Consistent)
    (hs : applyHeader E epoch s header = .ok s') : s'.Consistent := by
  obtain ⟨signer, authorize, -, hsigner, -, -, rfl⟩ := applyHeader_ok hs
  have hset := h.setRecent epoch (blockNumber header) signer
  obtain ⟨-, -, hnew⟩ := counted_dropEarlier hset.counted signer header.coinbase
  refine Consistent.pass ((hset.dropEarlier signer header.coinbase).addVote ?_ (blockNumber header)
    header.coinbase
    authorize hnew) (blockNumber header) header.coinbase
  rw [(dropEarlier_sameWindow _ signer header.coinbase).signers]
  exact (prepare_signers s epoch (blockNumber header)).symm ▸ hsigner

theorem Consistent.applyLoop {t : Snapshot} {headers : List Header} (h : s.Consistent)
    (hs : applyLoop E epoch s headers = .ok t) : t.Consistent := by
  induction headers generalizing s with
  | nil =>
    cases hs
    exact h
  | cons header headers ih =>
    obtain ⟨s', hstep, hs⟩ := applyLoop_cons_ok.1 hs
    exact ih (h.applyHeader hstep) hs

/-- After every accepted sequence of headers the tally of an address is the number of votes on it,
the votes have its direction and would change the signers, nobody has two votes on an address, and
every voter is a signer. -/
theorem tally_counts_votes (E : Ecdsa) (hash : Header → Hash) (epoch : Nat) (genesis : Hash)
    (signers : List Address) (headers : List Header) (snap : Snapshot)
    (h : apply E hash epoch (new 0 genesis signers) headers = .ok snap) :
    (∀ a, ((snap.tally a).map Tally.votes).getD 0 = (snap.votes.filter (·.address = a)).length) ∧
    (∀ vote ∈ snap.votes, (∃ t, snap.tally vote.address = some t ∧ t.authorize = vote.authorize) ∧
      snap.validVote vote.address vote.authorize = true ∧ vote.signer ∈ snap.signers) ∧
    ∀ (i j : Nat) (vote vote' : Vote), snap.votes[i]? = some vote → snap.votes[j]? = some vote' →
      vote.signer = vote'.signer → vote.address = vote'.address → i = j := by
  obtain ⟨-, t, hloop, rfl⟩ := apply_eq_ok.mp h
  have hnew : (new 0 genesis signers).Consistent :=
    ⟨counted_nil, fun _ _ ht => (nomatch ht), fun _ hvote => (nomatch hvote)⟩
  have hcons := hnew.applyLoop hloop
  refine ⟨hcons.counted.count, fun vote hvote => ?_, fun i j vote vote' hi hj hsigner haddress =>
    ?_⟩
  · obtain ⟨u, hu, hauth⟩ := hcons.counted.tally_of_mem hvote
    refine ⟨⟨u, hu, hauth⟩, ?_, hcons.voters vote hvote⟩
    rw [validVote_iff, ← hauth]
    exact hcons.valid vote.address u hu
  · have hi' : t.votes[i]? = some vote := hi
    have hj' : t.votes[j]? = some vote' := hj
    obtain ⟨hlt, -⟩ := List.getElem?_eq_some_iff.mp hi'
    refine (List.getElem?_inj (by simpa using hlt) hcons.counted.distinct).mp ?_
    rw [List.getElem?_map, List.getElem?_map, hi', hj', Option.map_some, Option.map_some, hsigner,
      haddress]

end Snapshot

namespace Sample

open Snapshot

/-- Two signers vote to drop a third one, and one of them to add a fifth. -/
def ballots : List Header :=
  [header 1 1 3 nonceDropVote 1, header 2 2 3 nonceDropVote 1, header 3 3 5 nonceAuthVote 1]

theorem ballots_counted : ∃ snap, apply curve hash 30000 genesis ballots = .ok snap ∧
    (∀ a, ((snap.tally a).map Tally.votes).getD 0 = (snap.votes.filter (·.address = a)).length) ∧
    snap.votes.length = 3 ∧ (∀ vote ∈ snap.votes,
      snap.validVote vote.address vote.authorize = true ∧ vote.signer ∈ snap.signers) ∧
    ∀ (i j : Nat) (vote vote' : Vote), snap.votes[i]? = some vote → snap.votes[j]? = some vote' →
      vote.signer = vote'.signer → vote.address = vote'.address → i = j := by
  have hvotes : ((apply curve hash 30000 genesis ballots).map fun s => s.votes.length) =
      .ok 3 := by decide
  cases h : apply curve hash 30000 genesis ballots with
  | error err =>
    rw [h] at hvotes
    cases hvotes
  | ok snap =>
    rw [h] at hvotes
    obtain ⟨hcount, hvalid, honce⟩ := tally_counts_votes curve hash 30000 _ _ ballots snap h
    exact ⟨snap, rfl, hcount, Except.ok.inj hvotes, fun vote hvote => (hvalid vote hvote).2, honce⟩

end Sample

end Geth.Clique
