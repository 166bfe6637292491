import Geth.Clique.Snapshot

/-!
# The window of recent signers

What one header does to the recent signers and to the number of signers (`applyHeader_recents`)
gives the exact window after every run, and with it that nobody signs twice within half of the
signers unless the set has grown in between. The check of the seal agrees with the application of
the header wherever its subtraction does not wrap around.
-/

namespace Geth.Clique

open Geth.Core List

namespace Snapshot

variable {E : Ecdsa} {epoch : Nat}

/-! ## What a header does to the window -/

/-- The entries of the recent signers after a header, but for the deletion that follows a dropped
signer. -/
def Kept (s : Snapshot) (number : Nat) (signer : Address) (e : Nat × Address) : Prop :=
  e = (number, signer) ∨ e ∈ s.recents ∧ e.1 ≠ number ∧ e.1 + s.limit ≠ number

theorem mem_shift (s : Snapshot) (number : Nat) (e : Nat × Address) :
    e ∈ (s.shift number).recents ↔ e ∈ s.recents ∧ e.1 + s.limit ≠ number := by
  rw [shift]
  split
  case isTrue h =>
    rw [deleteRecent, mem_filter, decide_eq_true_iff]
    exact and_congr_right fun _ => by omega
  case isFalse h => exact ⟨fun he => ⟨he, by omega⟩, And.left⟩

theorem shift_signers (s : Snapshot) (number : Nat) : (s.shift number).signers = s.signers := by
  rw [shift]
  split <;> rfl

theorem shift_number (s : Snapshot) (number : Nat) : (s.shift number).number = s.number := by
  rw [shift]
  split <;> rfl

/-- The functions on votes leave everything else alone. -/
structure SameWindow (s s' : Snapshot) : Prop where
  signers : s'.signers = s.signers
  recents : s'.recents = s.recents
  number : s'.number = s.number

theorem SameWindow.trans {s1 s2 s3 : Snapshot} (h : SameWindow s1 s2) (h' : SameWindow s2 s3) :
    SameWindow s1 s3 :=
  ⟨h'.signers.trans h.signers, h'.recents.trans h.recents, h'.number.trans h.number⟩

variable {s s' t : Snapshot} {headers : List Header} {n k : Nat} {hash : Header → Hash}

theorem SameWindow.withVotes (h : SameWindow s s') (votes : List Vote)
    (tally : Address → Option Tally) : SameWindow s { s' with votes := votes, tally := tally } :=
  ⟨h.signers, h.recents, h.number⟩

theorem uncast_sameWindow (s : Snapshot) (address : Address) (authorize : Bool) :
    SameWindow s (s.uncast address authorize) := by
  rw [uncast]
  split
  · exact ⟨rfl, rfl, rfl⟩
  split
  · exact ⟨rfl, rfl, rfl⟩
  split <;> exact ⟨rfl, rfl, rfl⟩

theorem dropEarlier_sameWindow (s : Snapshot) (signer address : Address) :
    SameWindow s (s.dropEarlier signer address) := by
  rw [dropEarlier]
  split
  · exact ⟨rfl, rfl, rfl⟩
  split
  · exact ⟨rfl, rfl, rfl⟩
  case h_2 vote _ => exact (uncast_sameWindow s vote.address vote.authorize).withVotes _ _

theorem addVote_sameWindow (s : Snapshot) (signer : Address) (number : Nat) (address : Address)
    (authorize : Bool) : SameWindow s (s.addVote signer number address authorize) := by
  rw [addVote, cast]
  split
  · exact ⟨rfl, rfl, rfl⟩
  case h_2 s' h =>
    split at h
    · cases h
    · cases h
      exact ⟨rfl, rfl, rfl⟩

theorem discard_sameWindow {select : Vote → Bool} {undo : Snapshot → Vote → Snapshot}
    (hundo : ∀ s vote, SameWindow s (undo s vote)) (i : Nat) (s : Snapshot) :
    SameWindow s (s.discard select undo i) := by
  induction i, s using discard.induct select undo with
  | case1 i s h hsel ih =>
    rw [discard, dif_pos h, if_pos hsel]
    exact ((hundo s _).withVotes _ _).trans ih
  | case2 i s h hsel ih =>
    rw [discard, dif_pos h, if_neg hsel]
    exact ih
  | case3 i s h =>
    rw [discard, dif_neg h]
    exact ⟨rfl, rfl, rfl⟩

theorem discardBy_sameWindow (s : Snapshot) (signer : Address) :
    SameWindow s (s.discardBy signer) :=
  discard_sameWindow (fun s vote => uncast_sameWindow s vote.address vote.authorize) 0 s

theorem discardOn_sameWindow (s : Snapshot) (address : Address) :
    SameWindow s (s.discardOn address) :=
  (discard_sameWindow (fun _ _ => ⟨rfl, rfl, rfl⟩) 0 s).withVotes _ _

theorem pass_recents (s : Snapshot) (number : Nat) (address : Address) :
    (s.signers.card ≤ (s.pass number address).signers.card ∧
      (s.pass number address).recents = s.recents) ∨
    (s.signers.card ≤ (s.pass number address).signers.card + 1 ∧
      ∀ e, e ∈ (s.pass number address).recents ↔
        e ∈ s.recents ∧ e.1 + (s.pass number address).limit ≠ number) := by
  rw [pass]
  split
  · exact .inl ⟨le_rfl, rfl⟩
  split
  case isFalse => exact .inl ⟨le_rfl, rfl⟩
  case isTrue =>
    split
    case isTrue =>
      obtain ⟨hsigners, hrecents, -⟩ :=
        discardOn_sameWindow { s with signers := insert address s.signers } address
      rw [hsigners, hrecents]
      exact .inl ⟨Finset.card_le_card (Finset.subset_insert address s.signers), rfl⟩
    case isFalse =>
      obtain ⟨hsigners, hrecents, -⟩ :=
        (discardBy_sameWindow (shift { s with signers := s.signers.erase address } number)
          address).trans
          (discardOn_sameWindow _ address)
      rw [shift_signers] at hsigners
      right
      rw [limit, hsigners, hrecents]
      refine ⟨?_, mem_shift { s with signers := s.signers.erase address } number⟩
      have := Finset.pred_card_le_card_erase (s := s.signers) (a := address)
      exact Nat.sub_le_iff_le_add.mp this

theorem pass_number (s : Snapshot) (number : Nat) (address : Address) :
    (s.pass number address).number = s.number := by
  rw [pass]
  split
  · rfl
  split
  · split
    · exact (discardOn_sameWindow _ address).number
    · rw [(discardOn_sameWindow _ address).number, (discardBy_sameWindow _ address).number,
        shift_number]
  · rfl

theorem prepare_signers (s : Snapshot) (epoch number : Nat) :
    (s.prepare epoch number).signers = s.signers := by
  rw [prepare, shift_signers]
  split <;> rfl

theorem prepare_number (s : Snapshot) (epoch number : Nat) :
    (s.prepare epoch number).number = s.number := by
  rw [prepare, shift_number]
  split <;> rfl

theorem mem_prepare (s : Snapshot) (epoch number : Nat) (e : Nat × Address) :
    e ∈ (s.prepare epoch number).recents ↔ e ∈ s.recents ∧ e.1 + s.limit ≠ number := by
  rw [prepare, mem_shift]
  split <;> rfl

variable {header : Header}

theorem applyHeader_ok (h : applyHeader E epoch s header = .ok s') :
    ∃ signer authorize, ecrecover E header = .ok signer ∧ signer ∈ s.signers ∧
      (∀ e ∈ s.recents, e.1 + s.limit ≠ blockNumber header → e.2 ≠ signer) ∧
      header.nonce = (if authorize then nonceAuthVote else nonceDropVote) ∧
      s' = ((((s.prepare epoch (blockNumber header)).setRecent (blockNumber header)
        signer).dropEarlier signer header.coinbase).addVote signer (blockNumber header)
        header.coinbase authorize).pass (blockNumber header) header.coinbase := by
  rw [applyHeader] at h
  split at h
  · cases h
  dsimp only at h
  split at h
  · cases h
  case h_2 signer hsigner =>
    split at h
    · cases h
    case isFalse hmem =>
      rw [prepare_signers, not_not] at hmem
      split at h
      · cases h
      case isFalse hrecent =>
        have hfresh : ∀ e ∈ s.recents, e.1 + s.limit ≠ blockNumber header → e.2 ≠ signer := by
          intro e he hne heq
          refine hrecent (any_eq_true.mpr ⟨e, (mem_prepare s epoch (blockNumber header) e).mpr
            ⟨he, hne⟩, ?_⟩)
          exact decide_eq_true heq
        split at h
        case isTrue hauth =>
          exact ⟨signer, true, hsigner, hmem, hfresh, hauth, (Except.ok.inj h).symm⟩
        split at h
        case isTrue hdrop =>
          exact ⟨signer, false, hsigner, hmem, hfresh, hdrop, (Except.ok.inj h).symm⟩
        · cases h

theorem applyHeader_recents (h : applyHeader E epoch s header = .ok s') :
    ∃ signer, ecrecover E header = .ok signer ∧ signer ∈ s.signers ∧
      (∀ e ∈ s.recents, e.1 + s.limit ≠ blockNumber header → e.2 ≠ signer) ∧
      ((s.signers.card ≤ s'.signers.card ∧
          ∀ e, e ∈ s'.recents ↔ Kept s (blockNumber header) signer e) ∨
        (s.signers.card ≤ s'.signers.card + 1 ∧ ∀ e, e ∈ s'.recents ↔
          Kept s (blockNumber header) signer e ∧ e.1 + s'.limit ≠ blockNumber header)) := by
  obtain ⟨signer, authorize, hsigner, hmem, hfresh, -, rfl⟩ := applyHeader_ok h
  refine ⟨signer, hsigner, hmem, hfresh, ?_⟩
  obtain ⟨hsigners, hrecents, -⟩ := (dropEarlier_sameWindow
    ((s.prepare epoch (blockNumber header)).setRecent (blockNumber header) signer) signer
    header.coinbase).trans
    (addVote_sameWindow _ signer (blockNumber header) header.coinbase authorize)
  generalize (((s.prepare epoch (blockNumber header)).setRecent (blockNumber header)
    signer).dropEarlier signer header.coinbase).addVote signer (blockNumber header) header.coinbase
    authorize = t at hsigners hrecents
  have hcard : t.signers = s.signers :=
    hsigners.trans (prepare_signers s epoch (blockNumber header))
  have hkept : ∀ e, e ∈ t.recents ↔ Kept s (blockNumber header) signer e := by
    intro e
    rw [hrecents, setRecent, mem_cons, mem_filter, mem_prepare, decide_eq_true_iff, Kept]
    exact or_congr_right (by rw [and_assoc, and_comm (a := e.1 + s.limit ≠ blockNumber header)])
  rcases pass_recents t (blockNumber header) header.coinbase with ⟨hle, heq⟩ | ⟨hle, hiff⟩
  · left
    rw [hcard] at hle
    exact ⟨hle, fun e => by rw [heq]; exact hkept e⟩
  · right
    rw [hcard] at hle
    exact ⟨hle, fun e => (hiff e).trans (and_congr_left fun _ => hkept e)⟩

theorem applyHeader_number (h : applyHeader E epoch s header = .ok s') :
    s'.number = s.number := by
  obtain ⟨signer, authorize, -, -, -, -, rfl⟩ := applyHeader_ok h
  rw [pass_number, (addVote_sameWindow ..).number, (dropEarlier_sameWindow ..).number]
  exact prepare_number s epoch (blockNumber header)

/-! ## Whole runs -/

/-- The entries of the recent signers are of the last `limit` blocks. -/
def Window (s : Snapshot) (number : Nat) : Prop :=
  ∀ e ∈ s.recents, e.1 ≤ number ∧ number < e.1 + s.limit

/-- An entry that stays was in the window before and is not the one that falls out. -/
theorem Window.kept {number : Nat} {signer : Address} (hw : s.Window number) {e : Nat × Address}
    (h : Kept s (number + 1) signer e) : e.1 ≤ number + 1 ∧ number + 1 < e.1 + s.limit := by
  rcases h with rfl | ⟨he, -, hne⟩
  · exact ⟨le_rfl, Nat.lt_add_of_pos_right (Nat.succ_pos _)⟩
  · have := hw e he
    omega

/-- The entries after a block are in the window of the signers after it and in that of the signers
before it. -/
theorem Window.applyHeader {number : Nat} (hw : s.Window number)
    (hnumber : blockNumber header = number + 1) (h : applyHeader E epoch s header = .ok s') :
    s'.Window (number + 1) ∧ ∀ e ∈ s'.recents, number + 1 < e.1 + s.limit := by
  obtain ⟨signer, -, -, -, hcases⟩ := applyHeader_recents h
  rw [hnumber] at hcases
  refine ⟨fun e he => ?_, fun e he => ?_⟩
  · rcases hcases with ⟨hle, hiff⟩ | ⟨hle, hiff⟩
    · have hk := hw.kept ((hiff e).mp he)
      have hlim : s.limit ≤ s'.limit := Nat.succ_le_succ (Nat.div_le_div_right hle)
      omega
    · have hk := hw.kept ((hiff e).mp he).1
      have hne := ((hiff e).mp he).2
      have hlim : s.limit ≤ s'.limit + 1 := by
        rw [limit, limit]
        omega
      omega
  · rcases hcases with ⟨-, hiff⟩ | ⟨-, hiff⟩
    · exact (hw.kept ((hiff e).mp he)).2
    · exact (hw.kept ((hiff e).mp he).1).2

theorem applyLoop_append (s : Snapshot) (as bs : List Header) : applyLoop E epoch s (as ++ bs) =
    match applyLoop E epoch s as with
    | .error err => .error err
    | .ok s => applyLoop E epoch s bs := by
  induction as generalizing s with
  | nil => rfl
  | cons a as ih =>
    rw [cons_append, applyLoop, applyLoop]
    cases applyHeader E epoch s a with
    | error err => rfl
    | ok s => exact ih s

theorem applyLoop_cons_ok : applyLoop E epoch s (header :: headers) = .ok t ↔
    ∃ u, applyHeader E epoch s header = .ok u ∧ applyLoop E epoch u headers = .ok t := by
  rw [applyLoop]
  cases applyHeader E epoch s header <;> simp

theorem applyLoop_number (h : applyLoop E epoch s headers = .ok t) : t.number = s.number := by
  induction headers generalizing s with
  | nil =>
    cases h
    rfl
  | cons header headers ih =>
    obtain ⟨s', hstep, h⟩ := applyLoop_cons_ok.1 h
    exact (ih h).trans (applyHeader_number hstep)

/-- Headers with the numbers after `n`. -/
def Numbered : Nat → List Header → Prop
  | _, [] => True
  | n, header :: headers => blockNumber header = n + 1 ∧ Numbered (n + 1) headers

theorem Numbered.take (h : Numbered n headers) (k : Nat) : Numbered n (headers.take k) := by
  induction headers generalizing n k with
  | nil => rwa [take_nil]
  | cons header headers ih =>
    cases k with
    | zero => trivial
    | succ k => exact ⟨h.1, ih h.2 k⟩

theorem Numbered.get (h : Numbered n headers) {i : Nat}
    (hi : headers[i]? = some header) : blockNumber header = n + 1 + i := by
  induction headers generalizing n i with
  | nil => cases hi
  | cons first headers ih =>
    cases i with
    | zero =>
      cases hi
      exact h.1
    | succ i =>
      rw [ih h.2 hi]
      omega

theorem numbered_iff (n : Nat) (first : Header) (rest : List Header) :
    Numbered n (first :: rest) ↔ consecutive (first :: rest) = true ∧ blockNumber first =
      n + 1 := by
  induction rest generalizing n first with
  | nil => simp [Numbered, consecutive]
  | cons second rest ih =>
    rw [Numbered, ih, consecutive, Bool.and_eq_true, decide_eq_true_iff]
    constructor
    · rintro ⟨h1, hcons, h2⟩
      exact ⟨⟨by omega, hcons⟩, h1⟩
    · rintro ⟨⟨h2, hcons⟩, h1⟩
      exact ⟨h1, hcons, by omega⟩

/-- The number and the hash that `apply` gives to its result. -/
def stamp (hash : Header → Hash) (headers : List Header) (s : Snapshot) : Snapshot :=
  { s with number := s.number + headers.length, hash := (headers.getLast?.map hash).getD s.hash }

theorem apply_eq_ok {snap : Snapshot} :
    apply E hash epoch s headers = .ok snap ↔ Numbered s.number headers ∧
        ∃ t, applyLoop E epoch s headers = .ok t ∧ snap = stamp hash headers t := by
  rcases headers with _ | ⟨first, rest⟩
  · constructor
    · intro h
      cases h
      exact ⟨trivial, s, rfl, rfl⟩
    · rintro ⟨-, t, ht, rfl⟩
      cases ht
      rfl
  · rw [numbered_iff, apply]
    constructor
    · intro h
      split at h
      · cases h
      case isFalse hcons =>
        split at h
        · cases h
        case isFalse hfirst =>
          refine ⟨⟨by simpa using hcons, not_not.mp hfirst⟩, ?_⟩
          cases hloop : applyLoop E epoch s (first :: rest) with
          | error err =>
            rw [hloop] at h
            cases h
          | ok t =>
            rw [hloop] at h
            cases h
            refine ⟨t, rfl, ?_⟩
            rfl
    · rintro ⟨⟨hcons, hfirst⟩, t, ht, rfl⟩
      rw [if_neg (by simp [hcons]), if_neg (not_not.mpr hfirst), ht, stamp,
        List.getLast?_eq_getLast_of_ne_nil (cons_ne_nil first rest)]
      rfl

theorem Window.applyLoop (hw : s.Window n) (hnum : Numbered n headers)
    (h : applyLoop E epoch s headers = .ok t) :
    t.Window (n + headers.length) := by
  induction headers generalizing s n with
  | nil =>
    cases h
    exact hw
  | cons header headers ih =>
    obtain ⟨s', hstep, h⟩ := applyLoop_cons_ok.1 h
    have := ih (hw.applyHeader hnum.1 hstep).1 hnum.2 h
    rwa [length_cons, ← Nat.add_assoc, Nat.add_right_comm]

theorem applyLoop_states (h : applyLoop E epoch s headers = .ok t) :
    ∃ state : Nat → Snapshot, (∀ i, applyLoop E epoch s (headers.take i) = .ok (state i)) ∧
      ∀ i header, headers[i]? = some header →
        applyHeader E epoch (state i) header = .ok (state (i + 1)) := by
  have hprefix : ∀ i, ∃ u, applyLoop E epoch s (headers.take i) = .ok u := by
    intro i
    rw [← take_append_drop i headers, applyLoop_append] at h
    cases hu : applyLoop E epoch s (headers.take i) with
    | error err =>
      rw [hu] at h
      cases h
    | ok u => exact ⟨u, rfl⟩
  choose state hstate using hprefix
  refine ⟨state, hstate, fun i header hi => ?_⟩
  have hnext := hstate (i + 1)
  rw [take_add_one, hi, applyLoop_append, hstate i] at hnext
  obtain ⟨u, hstep, hnil⟩ := applyLoop_cons_ok.1 hnext
  cases hnil
  exact hstep

theorem exists_growth (c : Nat → Nat) {t : Nat} (htk : t ≤ k) (h : c t < c k) :
    ∃ m, t ≤ m ∧ m < k ∧ c m < c (m + 1) := by
  induction k, htk using Nat.le_induction with
  | base => exact absurd h (lt_irrefl _)
  | succ k htk ih =>
    by_cases hk : c k < c (k + 1)
    · exact ⟨k, htk, Nat.lt_succ_self k, hk⟩
    · obtain ⟨m, hm, hmk, hgrow⟩ := ih (by omega)
      exact ⟨m, hm, Nat.lt_succ_of_lt hmk, hgrow⟩

/-- An entry of the recent signers is there until it is exactly as old as the limit of some block
after it, taken before or after that block. -/
theorem recent_or_expired (hnum : Numbered n headers) {state : Nat → Snapshot}
    (hstep : ∀ i header, headers[i]? = some header →
      applyHeader E epoch (state i) header = .ok (state (i + 1))) {j : Nat}
    (hj : headers[j]? = some header) {signer : Address} (hsigner : ecrecover E header = .ok signer)
    (hjk : j + 1 ≤ k) (hk : k ≤ headers.length) :
    (n + 1 + j, signer) ∈ (state k).recents ∨ ∃ t, j < t ∧ t < k ∧
      ((state t).limit = t - j ∨ (state (t + 1)).limit = t - j) := by
  induction k, hjk using Nat.le_induction with
  | base =>
    left
    obtain ⟨signer', hsigner', -, -, hcases⟩ := applyHeader_recents (hstep j header hj)
    rw [hsigner] at hsigner'
    cases hsigner'
    rw [hnum.get hj] at hcases
    rcases hcases with ⟨-, hiff⟩ | ⟨-, hiff⟩
    · exact (hiff _).mpr (.inl rfl)
    · exact (hiff _).mpr ⟨.inl rfl, Nat.ne_of_gt (Nat.lt_add_of_pos_right (Nat.succ_pos _))⟩
  | succ k hjk ih =>
    rcases ih (by omega) with hmem | ⟨t, hjt, htk, ht⟩
    · obtain ⟨next, hnext⟩ : ∃ next, headers[k]? = some next := ⟨_, List.getElem?_eq_getElem hk⟩
      obtain ⟨signer', -, -, -, hcases⟩ := applyHeader_recents (hstep k next hnext)
      rw [hnum.get hnext] at hcases
      by_cases hlim : (state k).limit = k - j
      · exact .inr ⟨k, hjk, Nat.lt_succ_self k, .inl hlim⟩
      have hkept : Kept (state k) (n + 1 + k) signer' (n + 1 + j, signer) :=
        .inr ⟨hmem, by dsimp only; omega, by dsimp only; omega⟩
      rcases hcases with ⟨-, hiff⟩ | ⟨-, hiff⟩
      · exact .inl ((hiff _).mpr hkept)
      · by_cases hlim' : (state (k + 1)).limit = k - j
        · exact .inr ⟨k, hjk, Nat.lt_succ_self k, .inr hlim'⟩
        · exact .inl ((hiff _).mpr ⟨hkept, by dsimp only; omega⟩)
    · exact .inr ⟨t, hjt, Nat.lt_succ_of_lt htk, ht⟩

/-- Nobody signs again within half of the signers, unless the set of signers has grown in
between. -/
theorem signer_waits (hnum : Numbered n headers) {state : Nat → Snapshot}
    (hstep : ∀ i header, headers[i]? = some header →
      applyHeader E epoch (state i) header = .ok (state (i + 1))) {j : Nat} {header next : Header}
    (hj : headers[j]? = some header) (hk : headers[k]? = some next) (hjk : j < k) {signer : Address}
    (hsigner : ecrecover E header = .ok signer) (hagain : ecrecover E next = .ok signer)
    (hnear : k - j ≤ (state k).signers.card / 2) :
    ∃ m, j < m ∧ m < k ∧ (state m).signers.card < (state (m + 1)).signers.card := by
  have hlen : k < headers.length := (List.getElem?_eq_some_iff.mp hk).1
  rcases recent_or_expired hnum hstep hj hsigner hjk hlen.le with hmem | ⟨t, hjt, htk, ht⟩
  · obtain ⟨signer', hsigner', -, hfresh, -⟩ := applyHeader_recents (hstep k next hk)
    rw [hagain] at hsigner'
    cases hsigner'
    rw [hnum.get hk] at hfresh
    exact absurd rfl (hfresh _ hmem (by rw [limit]; dsimp only; omega))
  · have hgrown : ∃ m, t ≤ m ∧ m < k ∧ (state m).signers.card < (state (m + 1)).signers.card := by
      rcases ht with ht | ht
      · exact exists_growth (fun i => (state i).signers.card) htk.le (by rw [limit] at ht; omega)
      · obtain ⟨m, hm, hmk, hlt⟩ := exists_growth (fun i => (state i).signers.card) (t := t + 1)
          (k := k) htk
          (by rw [limit] at ht; omega)
        exact ⟨m, by omega, hmk, hlt⟩
    obtain ⟨m, hm, hmk, hlt⟩ := hgrown
    exact ⟨m, by omega, hmk, hlt⟩

theorem window_of_apply {genesis : Hash} {signers : List Address}
    {snap : Snapshot} (h : apply E hash epoch (new 0 genesis signers) headers = .ok snap) :
      snap.Window snap.number := by
  obtain ⟨hnum, t, hloop, rfl⟩ := apply_eq_ok.mp h
  have hempty : (new 0 genesis signers).Window 0 := fun e he => nomatch he
  have hnumber : t.number = 0 := applyLoop_number hloop
  have hw := hempty.applyLoop hnum hloop
  intro e he
  have hstamp : (stamp hash headers t).number = 0 + headers.length :=
    congrArg (· + headers.length) hnumber
  rw [hstamp]
  exact hw e he

/-- Spam protection: after every accepted sequence of headers the recent signers are those of a
window of half of the signers and one, be they counted after the last block or before it, and
whoever signs a block has signed none of the blocks of half of the signers before it, unless the set
of signers has grown in between. -/
theorem recent_signers_wait (E : Ecdsa) (hash : Header → Hash) (epoch : Nat) (genesis : Hash)
    (signers : List Address) (headers : List Header) (snap : Snapshot)
    (h : apply E hash epoch (new 0 genesis signers) headers = .ok snap) :
    (∀ e ∈ snap.recents, e.1 ≤ snap.number ∧ snap.number < e.1 + (snap.signers.card / 2 + 1)) ∧
    ∀ k header, headers[k]? = some header → ∃ before after signer,
      apply E hash epoch (new 0 genesis signers) (headers.take k) = .ok before ∧
      apply E hash epoch (new 0 genesis signers) (headers.take (k + 1)) = .ok after ∧
      (∀ e ∈ after.recents, after.number < e.1 + (before.signers.card / 2 + 1)) ∧
      ecrecover E header = .ok signer ∧
      ∀ j earlier, j < k → k - j ≤ before.signers.card / 2 → headers[j]? = some earlier →
        ecrecover E earlier = .ok signer → ∃ m s s', j < m ∧ m < k ∧
          apply E hash epoch (new 0 genesis signers) (headers.take m) = .ok s ∧
          apply E hash epoch (new 0 genesis signers) (headers.take (m + 1)) = .ok s' ∧
          s.signers.card < s'.signers.card := by
  obtain ⟨hnum, t, hloop, rfl⟩ := apply_eq_ok.mp h
  refine ⟨window_of_apply h, fun k header hk => ?_⟩
  obtain ⟨state, hstate, hstep⟩ := applyLoop_states hloop
  have happly : ∀ i, apply E hash epoch (new 0 genesis signers) (headers.take i) =
      .ok (stamp hash (headers.take i) (state i)) :=
    fun i => apply_eq_ok.mpr ⟨hnum.take i, state i, hstate i, rfl⟩
  obtain ⟨signer, hsigner, -⟩ := applyHeader_recents (hstep k header hk)
  have hempty : (new 0 genesis signers).Window 0 := fun e he => nomatch he
  have hlen : k < headers.length := (List.getElem?_eq_some_iff.mp hk).1
  have hbefore : (state k).Window k := by
    have := hempty.applyLoop (hnum.take k) (hstate k)
    rwa [Nat.zero_add, length_take, Nat.min_eq_left hlen.le] at this
  have hafter : (stamp hash (headers.take (k + 1)) (state (k + 1))).number = k + 1 := by
    have hnumber : (state (k + 1)).number = 0 := applyLoop_number (hstate (k + 1))
    rw [stamp, hnumber, Nat.zero_add, length_take, Nat.min_eq_left hlen]
  have hnext : blockNumber header = k + 1 := (hnum.get hk).trans (Nat.add_comm (0 + 1) k)
  have hwindow := (hbefore.applyHeader hnext (hstep k header hk)).2
  refine ⟨_, _, signer, happly k, happly (k + 1), ?_, hsigner,
    fun j earlier hjk hnear hj hearlier => ?_⟩
  · rw [hafter]
    exact hwindow
  obtain ⟨m, hjm, hmk, hlt⟩ := signer_waits hnum hstep hj hk hjk hearlier hsigner hnear
  exact ⟨m, _, _, hjm, hmk, happly m, happly (m + 1), hlt⟩

/-! ## The check of the seal -/

theorem ecrecover_ne_unauthorized {err : CliqueErr}
    (h : ecrecover E header = .error err) : err ≠ .unauthorized := by
  rw [ecrecover] at h
  split at h
  · cases h
    exact fun h => nomatch h
  dsimp only at h
  split at h
  · cases h
    exact fun h => nomatch h
  · cases h

theorem ite_unauthorized {α : Type} {p q : Prop} [Decidable p] [Decidable q]
    {x : Except CliqueErr α} (hx : x ≠ .error .unauthorized) :
    (if ¬ p then .error .unauthorized else if q then .error .unauthorized else x) =
      .error .unauthorized ↔ ¬ p ∨ q := by
  by_cases hp : p
  · by_cases hq : q
    · simp [hq]
    · simp [hp, hq, hx]
  · simp [hp]

theorem verifySeal_unauthorized (hnumber : blockNumber header ≠ 0) :
    verifySeal E s header = .error .unauthorized ↔ ∃ signer, ecrecover E header = .ok signer ∧
      (signer ∉ s.signers ∨
        ∃ e ∈ s.recents, e.2 = signer ∧ uint64Sub (blockNumber header) s.limit < e.1) := by
  rw [verifySeal, if_neg hnumber]
  cases hrec : ecrecover E header with
  | error err => simpa using ecrecover_ne_unauthorized hrec
  | ok signer =>
    rw [ite_unauthorized]
    · simp
    · intro h
      split at h
      · cases h
      split at h
      · cases h
      split at h <;> cases h

theorem applyHeader_unauthorized (hepoch : epoch ≠ 0) :
    applyHeader E epoch s header = .error .unauthorized ↔
      ∃ signer, ecrecover E header = .ok signer ∧
      (signer ∉ s.signers ∨ ∃ e ∈ s.recents, e.2 = signer ∧
        e.1 + s.limit ≠ blockNumber header) := by
  rw [applyHeader, if_neg hepoch]
  cases hrec : ecrecover E header with
  | error err => simpa using ecrecover_ne_unauthorized hrec
  | ok signer =>
    dsimp only
    rw [prepare_signers, ite_unauthorized]
    · simp [mem_prepare, and_assoc, and_comm]
    · intro h
      split at h
      · cases h
      split at h <;> cases h

theorem apply_singleton (hnumber : blockNumber header = s.number + 1) :
    apply E hash epoch s [header] = .error .unauthorized ↔
      applyHeader E epoch s header = .error .unauthorized := by
  rw [apply, if_neg (by simp [consecutive]), if_neg (not_not.mpr hnumber), applyLoop]
  cases applyHeader E epoch s header with
  | error err => exact Iff.rfl
  | ok t =>
    constructor <;> intro h <;> cases h

theorem engineEpoch_ne_zero (epoch : Nat) : engineEpoch epoch ≠ 0 := by
  rw [engineEpoch]
  split
  · exact Nat.succ_ne_zero _
  · assumption

/-- The seal of the next header is refused as unauthorised, or accepted, as its application is,
unless the block number is below the limit and an authorised signer is among the recent ones: there
the subtraction of the check wraps around and the seal passes, and the header cannot be applied. -/
theorem verifySeal_agrees_iff (E : Ecdsa) (hash : Header → Hash) (epoch : Nat) (genesis : Hash)
    (signers : List Address) (headers : List Header) (snap : Snapshot)
    (h : apply E hash (engineEpoch epoch) (new 0 genesis signers) headers = .ok snap)
      (header : Header)
    (hnumber : blockNumber header = snap.number + 1) :
    (verifySeal E snap header ≠ .error .unauthorized ↔
      apply E hash (engineEpoch epoch) snap [header] ≠ .error .unauthorized) ↔
    ¬ (blockNumber header < snap.limit ∧ ∃ signer, ecrecover E header = .ok signer ∧
      signer ∈ snap.signers ∧
      ∃ e ∈ snap.recents, e.2 = signer) := by
  have hw := window_of_apply h
  have hepoch := engineEpoch_ne_zero epoch
  rw [ne_eq, ne_eq, not_iff_not, apply_singleton hnumber, applyHeader_unauthorized hepoch,
    verifySeal_unauthorized (by omega)]
  by_cases hlim : blockNumber header < snap.limit
  · -- The difference wraps around to a number that no recent block is above.
    have hwrap : ∀ e ∈ snap.recents, ¬ uint64Sub (blockNumber header) snap.limit < e.1 := by
      intro e he
      have := hw e he
      rw [uint64Sub, if_neg (by omega)]
      omega
    constructor
    · intro hiff hand
      obtain ⟨-, signer, hsigner, hmem, e, he, heq⟩ := hand
      obtain ⟨signer', hsigner', hor⟩ := hiff.mpr ⟨signer, hsigner, .inr ⟨e, he, heq, by omega⟩⟩
      rw [hsigner] at hsigner'
      cases hsigner'
      rcases hor with hnot | ⟨e', he', -, hlt⟩
      · exact hnot hmem
      · exact hwrap e' he' hlt
    · intro hnone
      constructor
      · rintro ⟨signer, hsigner, hnot | ⟨e, he, -, hlt⟩⟩
        · exact ⟨signer, hsigner, .inl hnot⟩
        · exact absurd hlt (hwrap e he)
      · rintro ⟨signer, hsigner, hnot | ⟨e, he, heq, -⟩⟩
        · exact ⟨signer, hsigner, .inl hnot⟩
        · by_cases hmem : signer ∈ snap.signers
          · exact absurd ⟨hlim, signer, hsigner, hmem, e, he, heq⟩ hnone
          · exact ⟨signer, hsigner, .inl hmem⟩
  · refine iff_of_true (exists_congr fun signer => and_congr_right fun _ => or_congr_right ?_)
      fun hand => hlim hand.1
    refine exists_congr fun e => and_congr_right fun he => and_congr_right fun _ => ?_
    have := hw e he
    rw [uint64Sub, if_pos (by omega)]
    omega

end Snapshot

namespace Sample

open Snapshot

/-- A toy curve: a signature is the address of its signer. -/
def curve : Ecdsa where
  PrivateKey := Unit
  sign _ _ := none
  ecrecover _ sig := some (4 :: sig)
  fromECDSAPub _ := []
  keccak := bytesToHash

/-- The sample addresses. -/
def address (i : UInt8) : Address := ⟨List.replicate 19 0 ++ [i], rfl⟩

/-- A header that is signed by an address and votes on another one. -/
def header (number : Nat) (signer coinbase : UInt8) (nonce : BlockNonce) (difficulty : Int) :
    Header where
  parentHash := Hash.zero
  uncleHash := Hash.zero
  coinbase := address coinbase
  root := Hash.zero
  txHash := Hash.zero
  receiptHash := Hash.zero
  bloom := zeroBytes 256
  difficulty := difficulty
  number := number
  gasLimit := 0
  gasUsed := 0
  time := 0
  extra := List.replicate 45 0 ++ (address signer).val
  mixDigest := Hash.zero
  nonce := nonce

/-- The hash of the sample headers plays no role. -/
def hash (_ : Header) : Hash := Hash.zero

def genesis : Snapshot := new 0 Hash.zero [address 1, address 2, address 3, address 4]

def rounds : List Header :=
  [header 1 1 0 nonceDropVote 1, header 2 2 0 nonceDropVote 1, header 3 3 0 nonceDropVote 1,
    header 4 1 0 nonceDropVote 1]

/-- The first signer signs the fourth block, and has signed neither the second nor the third. -/
theorem rounds_in_window : ∃ snap, apply curve hash 30000 genesis rounds = .ok snap ∧
    (∀ e ∈ snap.recents, e.1 ≤ snap.number ∧ snap.number < e.1 + (snap.signers.card / 2 + 1)) ∧
    ecrecover curve (header 4 1 0 nonceDropVote 1) = .ok (address 1) ∧
    ∀ j earlier, j < 3 → 3 - j ≤ 2 → rounds[j]? = some earlier →
      ecrecover curve earlier ≠ .ok (address 1) := by
  have hcard : ∀ m < 5, ((apply curve hash 30000 genesis (rounds.take m)).map
      fun s => s.signers.card) = .ok 4 := by decide
  have hfour : ∀ {m s}, m < 5 → apply curve hash 30000 genesis (rounds.take m) = .ok s →
      s.signers.card = 4 := by
    intro m s hm hs
    have h := hcard m hm
    rw [hs] at h
    exact Except.ok.inj h
  have hok : (apply curve hash 30000 genesis rounds).isOk = true := by decide
  cases h : apply curve hash 30000 genesis rounds with
  | error err =>
    rw [h] at hok
    cases hok
  | ok snap =>
    obtain ⟨hwindow, hwaits⟩ := recent_signers_wait curve hash 30000 _ _ rounds snap h
    have hsigner : ecrecover curve (header 4 1 0 nonceDropVote 1) = .ok (address 1) := by decide
    refine ⟨snap, rfl, hwindow, hsigner, fun j earlier hj hnear hget hearlier => ?_⟩
    obtain ⟨before, after, signer, hbefore, -, -, hrecover, hgap⟩ := hwaits 3 _ rfl
    cases hrecover.symm.trans hsigner
    have hhalf : 3 - j ≤ before.signers.card / 2 := by
      rw [hfour (by decide) hbefore]
      exact hnear
    obtain ⟨m, s, s', -, hm, hs, hs', hgrow⟩ := hgap j earlier hj hhalf hget hearlier
    rw [hfour (by omega) hs, hfour (by omega) hs'] at hgrow
    exact absurd hgrow (lt_irrefl 4)

/-- With four signers the first signer may seal the second block too, and that block cannot be
applied. -/
theorem second_seal_not_applied : ∃ snap,
    apply curve hash (engineEpoch 0) genesis [header 1 1 0 nonceDropVote 1] = .ok snap ∧
      verifySeal curve snap (header 2 1 0 nonceDropVote 1) = .ok () ∧
      apply curve hash (engineEpoch 0) snap [header 2 1 0 nonceDropVote 1] =
        .error .unauthorized := by
  refine ⟨_, rfl, by decide, ?_⟩
  refine (apply_singleton rfl).mpr ((applyHeader_unauthorized (by decide)).mpr ⟨address 1, ?_,
    .inr ?_⟩)
  · decide
  · decide

/-- At the third block the limit is reached, and the two checks agree. -/
theorem third_seal_agrees : ∃ snap,
    apply curve hash (engineEpoch 0) genesis (rounds.take 2) = .ok snap ∧
      (verifySeal curve snap (header 3 1 0 nonceDropVote 1) ≠ .error .unauthorized ↔
        apply curve hash (engineEpoch 0) snap [header 3 1 0 nonceDropVote 1] ≠
          .error .unauthorized) := by
  obtain ⟨snap, h, hnumber, hlimit⟩ : ∃ snap,
      apply curve hash (engineEpoch 0) genesis (rounds.take 2) = .ok snap ∧ snap.number = 2 ∧
        snap.limit = 3 :=
    ⟨_, rfl, by decide, by decide⟩
  have hnext : blockNumber (header 3 1 0 nonceDropVote 1) = snap.number + 1 := by rw [hnumber]; rfl
  refine ⟨snap, h, (verifySeal_agrees_iff curve hash 0 _ _ (rounds.take 2) snap h _ hnext).mpr ?_⟩
  rintro ⟨hlt, -⟩
  rw [hlimit] at hlt
  exact absurd hlt (lt_irrefl 3)

end Sample

end Geth.Clique
