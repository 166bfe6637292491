import Geth.Clique.Verify.Recents

/-!
# Batches of headers

The loop of `apply` does not look at the number and the hash of the snapshot, so that the headers of
a run can be cut into batches at will.
-/

namespace Geth.Clique

open Geth.Core List

namespace Snapshot

variable {E : Ecdsa} {epoch : Nat}

/-! ## The number and the hash -/

/-- The snapshot under another number and hash. -/
def relabel (n : Nat) (h : Hash) (s : Snapshot) : Snapshot := { s with number := n, hash := h }

section Relabel

variable (n : Nat) (h : Hash) (s : Snapshot)

theorem shift_relabel (number : Nat) :
    (s.relabel n h).shift number = (s.shift number).relabel n h := by
  rw [shift, shift, apply_ite (relabel n h)]
  rfl

theorem prepare_relabel (epoch number : Nat) :
    (s.relabel n h).prepare epoch number = (s.prepare epoch number).relabel n h := by
  rw [prepare, prepare, ← shift_relabel, apply_ite (relabel n h)]
  rfl

theorem uncast_relabel (address : Address) (authorize : Bool) :
    (s.relabel n h).uncast address authorize = (s.uncast address authorize).relabel n h := by
  rw [uncast, uncast, show (s.relabel n h).tally = s.tally from rfl]
  cases s.tally address with
  | none => rfl
  | some tally =>
    rw [apply_ite (relabel n h), apply_ite (relabel n h)]
    rfl

theorem dropEarlier_relabel (signer address : Address) :
    (s.relabel n h).dropEarlier signer address = (s.dropEarlier signer address).relabel n h := by
  rw [dropEarlier, dropEarlier, show (s.relabel n h).votes = s.votes from rfl]
  cases s.votes.findIdx? fun vote => vote.signer = signer ∧ vote.address = address with
  | none => rfl
  | some i =>
    dsimp only
    cases s.votes[i]? with
    | none => rfl
    | some vote =>
      dsimp only
      rw [uncast_relabel]
      rfl

theorem addVote_relabel (signer : Address) (number : Nat) (address : Address) (authorize : Bool) :
    (s.relabel n h).addVote signer number address authorize =
      (s.addVote signer number address authorize).relabel n h := by
  rw [addVote, addVote, cast, cast]
  by_cases hvalid : (!s.validVote address authorize) = true
  · rw [if_pos hvalid, if_pos (show (!(s.relabel n h).validVote address authorize) = true
      from hvalid)]
  · rw [if_neg hvalid,
      if_neg (show ¬ (!(s.relabel n h).validVote address authorize) = true from hvalid)]
    rfl

theorem discard_relabel {select : Vote → Bool} {undo : Snapshot → Vote → Snapshot}
    (hundo : ∀ s vote, undo (relabel n h s) vote = (undo s vote).relabel n h) (i : Nat) :
    (s.relabel n h).discard select undo i = (s.discard select undo i).relabel n h := by
  induction i, s using discard.induct select undo with
  | case1 i s hlt hsel ih =>
    rw [discard, dif_pos (show i < (s.relabel n h).votes.length from hlt), discard.eq_def _ _ _ s,
      dif_pos hlt, if_pos hsel,
        if_pos (show select (s.relabel n h).votes[i] = true from hsel), ← ih]
    refine congrArg (discard select undo i) ?_
    rw [hundo]
    rfl
  | case2 i s hlt hsel ih =>
    rw [discard, dif_pos (show i < (s.relabel n h).votes.length from hlt), discard.eq_def _ _ _ s,
      dif_pos hlt, if_neg hsel,
        if_neg (show ¬ select (s.relabel n h).votes[i] = true from hsel), ih]
  | case3 i s hlt =>
    rw [discard, dif_neg (show ¬ i < (s.relabel n h).votes.length from hlt), discard.eq_def _ _ _ s,
      dif_neg hlt]

theorem discardBy_relabel (signer : Address) :
    (s.relabel n h).discardBy signer = (s.discardBy signer).relabel n h :=
  discard_relabel n h s (fun s vote => uncast_relabel n h s vote.address vote.authorize) 0

theorem discardOn_relabel (address : Address) :
    (s.relabel n h).discardOn address = (s.discardOn address).relabel n h := by
  rw [discardOn, discardOn, discard_relabel n h s (fun _ _ => rfl)]
  rfl

theorem pass_relabel (number : Nat) (address : Address) :
    (s.relabel n h).pass number address = (s.pass number address).relabel n h := by
  rw [pass, pass, show (s.relabel n h).tally = s.tally from rfl]
  cases s.tally address with
  | none => rfl
  | some tally =>
    rw [apply_ite (relabel n h), apply_ite (relabel n h), ← discardOn_relabel, ← discardOn_relabel,
      ← discardBy_relabel, ← shift_relabel]
    rfl

theorem applyHeader_relabel (header : Header) : applyHeader E epoch (s.relabel n h) header =
      (applyHeader E epoch s header).map (relabel n h) := by
  rw [applyHeader, applyHeader, prepare_relabel, apply_ite (Except.map (relabel n h))]
  refine congrArg (ite _ _) ?_
  generalize s.prepare epoch (blockNumber header) = t
  cases ecrecover E header with
  | error err => rfl
  | ok signer =>
    have hround : (((t.relabel n h).setRecent (blockNumber header) signer).dropEarlier signer
        header.coinbase) = ((t.setRecent (blockNumber header) signer).dropEarlier signer
          header.coinbase).relabel n h :=
      dropEarlier_relabel n h (t.setRecent (blockNumber header) signer) signer header.coinbase
    dsimp only
    rw [hround, addVote_relabel, addVote_relabel, pass_relabel, pass_relabel]
    simp only [apply_ite (Except.map (relabel n h))]
    rfl

theorem applyLoop_relabel (headers : List Header) : applyLoop E epoch (s.relabel n h) headers =
      (applyLoop E epoch s headers).map (relabel n h) := by
  induction headers generalizing s with
  | nil => rfl
  | cons header headers ih =>
    rw [applyLoop, applyLoop, applyHeader_relabel]
    cases applyHeader E epoch s header with
    | error err => rfl
    | ok t => exact ih t

end Relabel

/-! ## Runs in batches -/

theorem numbered_append (n : Nat) (as bs : List Header) :
    Numbered n (as ++ bs) ↔ Numbered n as ∧ Numbered (n + as.length) bs := by
  induction as generalizing n with
  | nil => exact (and_iff_right trivial).symm
  | cons a as ih =>
    rw [cons_append, Numbered, Numbered, ih, and_assoc, length_cons,
      Nat.add_right_comm n 1, Nat.add_assoc]

theorem stamp_eq_relabel (hash : Header → Hash) (headers : List Header) (s : Snapshot) :
    stamp hash headers s =
      s.relabel (s.number + headers.length) ((headers.getLast?.map hash).getD s.hash) := rfl

theorem stamp_append (hash : Header → Hash) (as bs : List Header) {u t : Snapshot}
    (ht : applyLoop E epoch u bs = .ok t) :
    stamp hash bs (t.relabel (stamp hash as u).number (stamp hash as u).hash) =
      stamp hash (as ++ bs) t := by
  have hnumber := applyLoop_number ht
  rw [stamp, stamp, stamp, relabel, length_append, ← Nat.add_assoc, hnumber, List.getLast?_append]
  cases bs with
  | nil =>
    cases ht
    rfl
  | cons b bs =>
    rfl

theorem apply_append_ok {hash : Header → Hash} {s snap : Snapshot} {as bs : List Header} :
    apply E hash epoch s (as ++ bs) = .ok snap ↔
      ∃ mid, apply E hash epoch s as = .ok mid ∧ apply E hash epoch mid bs = .ok snap := by
  rw [apply_eq_ok, numbered_append, applyLoop_append]
  cases hu : applyLoop E epoch s as with
  | error err =>
    constructor
    · rintro ⟨-, t, ht, -⟩
      cases ht
    · rintro ⟨mid, hmid, -⟩
      obtain ⟨-, u, hu', -⟩ := apply_eq_ok.1 hmid
      rw [hu] at hu'
      cases hu'
  | ok u =>
    have hnumber : (stamp hash as u).number = s.number + as.length :=
      congrArg (· + as.length) (applyLoop_number hu)
    have hloop : applyLoop E epoch (stamp hash as u) bs = (applyLoop E epoch u bs).map
        (relabel (stamp hash as u).number (stamp hash as u).hash) :=
      applyLoop_relabel _ _ u bs
    constructor
    · rintro ⟨⟨has, hbs⟩, t, ht, rfl⟩
      dsimp only at ht
      refine ⟨stamp hash as u, apply_eq_ok.2 ⟨has, u, hu, rfl⟩, apply_eq_ok.2 ⟨?_, _, ?_,
        (stamp_append hash as bs ht).symm⟩⟩
      · rw [hnumber]
        exact hbs
      · rw [ht] at hloop
        exact hloop
    · rintro ⟨mid, hmid, hsnap⟩
      obtain ⟨has, u', hu', rfl⟩ := apply_eq_ok.1 hmid
      cases hu.symm.trans hu'
      obtain ⟨hbs, t', ht', rfl⟩ := apply_eq_ok.1 hsnap
      rw [hnumber] at hbs
      cases ht : applyLoop E epoch u bs with
      | error err =>
        rw [ht] at hloop
        cases hloop.symm.trans ht'
      | ok t =>
        rw [ht] at hloop
        cases hloop.symm.trans ht'
        exact ⟨⟨has, hbs⟩, t, ht, stamp_append hash as bs ht⟩

/-- How the headers are split into batches makes no difference. -/
theorem foldlM_apply_ok {hash : Header → Hash} {s snap : Snapshot} (batches : List (List Header)) :
    batches.foldlM (apply E hash epoch) s = .ok snap ↔
      apply E hash epoch s batches.flatten = .ok snap := by
  induction batches generalizing s with
  | nil => rfl
  | cons batch batches ih =>
    rw [foldlM_cons, flatten_cons, apply_append_ok]
    cases apply E hash epoch s batch <;> simp [bind, Except.bind, ih]

end Snapshot

end Geth.Clique
