import Geth.P2p.Enr

/-!
# Sequence numbers of node records

`Set` counts the number up only if the record is not signed, so the first `Set` after a signature
leaves it. A later version has a larger number exactly if no record is signed in that state: each
`Set` that changes a signed record is followed by another one before the record is signed again.
-/

namespace Geth.Enr

open List Option

namespace Record

variable {schemes : Bytes → Option IdentityScheme} {r v : Record} {op : Op} {ops : List Op}

/-- Of two signed versions with different pairs, the later one has the larger number. -/
def Numbered (versions : List Record) : Prop :=
  versions.Pairwise fun v w => v.pairs ≠ w.pairs → v.seq < w.seq

section

variable (schemes : Bytes → Option IdentityScheme)

/-- No `SetSig` succeeds with a signature before a `Set` does. -/
def Renumbered : Record → List Op → Prop
  | _, [] => True
  | r, .set e :: ops => e.blob ≠ none ∨ Renumbered (r.step schemes (.set e)) ops
  | r, .setSig idscheme sig :: ops =>
    (sig = none ∨ ∃ err, r.setSig schemes idscheme sig = .error err) ∧
      Renumbered (r.step schemes (.setSig idscheme sig)) ops

/-- A `Set` that changes the pairs of a signed record is followed by another one before the record
is signed again. -/
def Clean : Record → List Op → Prop
  | _, [] => True
  | r, op :: ops =>
    (r.signature ≠ none → (r.step schemes op).pairs ≠ r.pairs →
      Renumbered schemes (r.step schemes op) ops) ∧ Clean (r.step schemes op) ops

end

/-- What a call does to a record; one that fails signs it as it was. -/
inductive Moved (r : Record) : Record → Prop
  | set (pairs : List Pair) : Moved r { r.invalidate with pairs := pairs }
  | signed (sig raw : Option Bytes) : Moved r { r with signature := sig, raw := raw }

theorem setSig_eq_ok {idscheme : Bytes} {sig : Option Bytes} {r' : Record}
    (h : r.setSig schemes idscheme sig = .ok r') :
    ∃ raw, r' = { r with signature := sig, raw := some raw } := by
  rw [setSig] at h
  split at h
  · cases h
  · split at h
    · cases h
    · split at h
      · split at h
        · cases h
        · next raw _ =>
          cases h
          exact ⟨raw, rfl⟩
      · cases h

theorem step_moved (schemes : Bytes → Option IdentityScheme) (r : Record) (op : Op) :
    Moved r (r.step schemes op) := by
  cases op with
  | set e =>
    rw [step, set]
    cases e.blob with
    | none => exact .signed r.signature r.raw
    | some blob => exact .set _
  | setSig idscheme sig =>
    rw [step]
    cases hsig : r.setSig schemes idscheme sig with
    | error err => exact .signed r.signature r.raw
    | ok r' =>
      obtain ⟨raw, rfl⟩ := setSig_eq_ok hsig
      exact .signed _ _

theorem invalidate_seq_of_none (h : r.signature = none) : r.invalidate.seq = r.seq + 1 :=
  if_pos h

theorem invalidate_seq_of_some (h : r.signature ≠ none) : r.invalidate.seq = r.seq :=
  if_neg h

theorem ne_succ (n : UInt64) : n + 1 ≠ n := by
  intro h
  simp at h

/-- On a record without a signature a `Set` that succeeds is what changes the number. -/
theorem renumbered_cons (hr : r.signature = none) :
    Renumbered schemes r (op :: ops) ↔ (r.step schemes op).seq ≠ r.seq ∨
      (r.step schemes op).signature = none ∧ Renumbered schemes (r.step schemes op) ops := by
  cases op with
  | set e =>
    cases hblob : e.blob with
    | none => simp [Renumbered, step, set, hblob, Except.toOption, hr]
    | some blob =>
      have hseq : (r.step schemes (.set e)).seq ≠ r.seq := by
        rw [step, set, hblob]
        exact invalidate_seq_of_none hr ▸ ne_succ _
      rw [Renumbered, hblob]
      exact iff_of_true (.inl (some_ne_none _)) (.inl hseq)
  | setSig idscheme sig =>
    cases hsig : r.setSig schemes idscheme sig with
    | error err => simp [Renumbered, step, hsig, Except.toOption, hr]
    | ok r' =>
      obtain ⟨raw, rfl⟩ := setSig_eq_ok hsig
      simp [Renumbered, step, hsig, Except.toOption]

theorem lt_succ_of_room {n : UInt64} (h : n.toNat + 1 < 2 ^ 64) : n < n + 1 := by
  rw [UInt64.lt_iff_toNat_lt, UInt64.toNat_add, UInt64.toNat_one, Nat.mod_eq_of_lt h]
  exact Nat.lt_succ_self _

theorem step_seq_le (schemes : Bytes → Option IdentityScheme) (op : Op)
    (h : r.seq.toNat + 1 < 2 ^ 64) :
    r.seq ≤ (r.step schemes op).seq ∧ (r.step schemes op).seq.toNat ≤ r.seq.toNat + 1 := by
  have hmoved := step_moved schemes r op
  generalize r.step schemes op = r' at hmoved ⊢
  cases hmoved with
  | signed sig raw => exact ⟨UInt64.le_refl _, Nat.le_succ _⟩
  | set pairs =>
    by_cases hs : r.signature = none
    · rw [invalidate_seq_of_none hs]
      refine ⟨UInt64.le_of_lt (lt_succ_of_room h), ?_⟩
      exact Nat.mod_le _ _
    · rw [invalidate_seq_of_some hs]
      exact ⟨UInt64.le_refl _, Nat.le_succ _⟩

/-- An earlier version of a record: its number is smaller, its pairs are the same, or the record
gets another number before it is signed. -/
structure Follows (schemes : Bytes → Option IdentityScheme) (v r : Record) (ops : List Op) :
    Prop where
  le : v.seq ≤ r.seq
  same : v.seq = r.seq → v.pairs = r.pairs ∨ r.signature = none ∧ Renumbered schemes r ops

theorem Follows.signed (h : Follows schemes v r ops) (hr : r.signature ≠ none)
    (hne : v.pairs ≠ r.pairs) : v.seq < r.seq := by
  refine UInt64.lt_of_le_of_ne h.le fun hseq => ?_
  rcases h.same hseq with heq | ⟨hnone, -⟩
  · exact hne heq
  · exact hr hnone

theorem Follows.step (hclean : Clean schemes r (op :: ops)) (hroom : r.seq.toNat + 1 < 2 ^ 64)
    (h : Follows schemes v r (op :: ops)) : Follows schemes v (r.step schemes op) ops := by
  refine ⟨UInt64.le_trans h.le (step_seq_le schemes op hroom).1, fun hseq => ?_⟩
  have hchanged := hclean.1
  have hsame : v.seq = r.seq → v.pairs = r.pairs ∨ r.signature = none ∧
      ((r.step schemes op).seq ≠ r.seq ∨ (r.step schemes op).signature = none ∧
        Renumbered schemes (r.step schemes op) ops) := by
    intro hseq
    refine (h.same hseq).imp_right fun hren => ⟨hren.1, (renumbered_cons hren.1).1 hren.2⟩
  have hmoved := step_moved schemes r op
  generalize r.step schemes op = r' at hchanged hsame hseq hmoved ⊢
  cases hmoved with
  | signed sig raw =>
    rcases hsame hseq with heq | ⟨-, hne | hright⟩
    · exact .inl heq
    · exact absurd rfl hne
    · exact .inr hright
  | set pairs =>
    by_cases hs : r.signature = none
    · have hlt : v.seq < r.invalidate.seq := by
        rw [invalidate_seq_of_none hs]
        exact UInt64.lt_of_le_of_lt h.le (lt_succ_of_room hroom)
      exact absurd hseq (UInt64.ne_of_lt hlt)
    · rcases hsame (hseq.trans (invalidate_seq_of_some hs)) with heq | ⟨hnone, -⟩
      · by_cases hpairs : pairs = r.pairs
        · exact .inl (heq.trans hpairs.symm)
        · exact .inr ⟨rfl, hchanged hs hpairs⟩
      · exact absurd hnone hs

theorem versions_cons (schemes : Bytes → Option IdentityScheme) (r : Record) (op : Op)
    (ops : List Op) : versions schemes r (op :: ops) =
      if r.signature.isSome then r :: versions schemes (r.step schemes op) ops
      else versions schemes (r.step schemes op) ops :=
  filter_cons

theorem versions_nil (schemes : Bytes → Option IdentityScheme) (r : Record) :
    versions schemes r [] = if r.signature.isSome then [r] else [] :=
  filter_cons

theorem Follows.lt (hclean : Clean schemes r ops) (hroom : r.seq.toNat + ops.length < 2 ^ 64)
    (h : Follows schemes v r ops) {w : Record} (hw : w ∈ versions schemes r ops)
    (hne : v.pairs ≠ w.pairs) : v.seq < w.seq := by
  induction ops generalizing r with
  | nil =>
    rw [versions_nil] at hw
    split at hw
    · next hsome =>
      cases mem_singleton.1 hw
      exact h.signed (isSome_iff_ne_none.1 hsome) hne
    · cases hw
  | cons op ops ih =>
    rw [length_cons] at hroom
    have hroom' : r.seq.toNat + 1 < 2 ^ 64 := by omega
    have hle := (step_seq_le schemes op hroom').2
    have hlater : w ∈ versions schemes (r.step schemes op) ops → v.seq < w.seq := fun hw =>
      ih hclean.2 (by omega) (h.step hclean hroom') hw
    rw [versions_cons] at hw
    split at hw
    · next hsome =>
      rcases mem_cons.1 hw with rfl | hw
      · exact h.signed (isSome_iff_ne_none.1 hsome) hne
      · exact hlater hw
    · exact hlater hw

theorem numbered_of_clean (hclean : Clean schemes r ops)
    (hroom : r.seq.toNat + ops.length < 2 ^ 64) : Numbered (versions schemes r ops) := by
  induction ops generalizing r with
  | nil =>
    rw [versions_nil]
    split
    · exact pairwise_singleton _ _
    · exact Pairwise.nil
  | cons op ops ih =>
    rw [length_cons] at hroom
    have hroom' : r.seq.toNat + 1 < 2 ^ 64 := by omega
    have hle := (step_seq_le schemes op hroom').2
    have hrest := ih hclean.2 (by omega)
    rw [versions_cons]
    split
    · have hself : Follows schemes r r (op :: ops) := ⟨UInt64.le_refl _, fun _ => .inl rfl⟩
      refine Pairwise.cons (fun w hw => ?_) hrest
      exact (hself.step hclean hroom').lt hclean.2 (by omega) hw
    · exact hrest

theorem exists_version (hr : r.signature = none) (h : ¬ Renumbered schemes r ops) :
    ∃ w ∈ versions schemes r ops, w.seq = r.seq ∧ w.pairs = r.pairs := by
  induction ops generalizing r with
  | nil => exact absurd trivial h
  | cons op ops ih =>
    rw [renumbered_cons hr, not_or, not_not] at h
    obtain ⟨hseq, hsigned⟩ := h
    have hpairs : (r.step schemes op).pairs = r.pairs := by
      have hmoved := step_moved schemes r op
      generalize r.step schemes op = r' at hmoved hseq ⊢
      cases hmoved with
      | signed sig raw => rfl
      | set pairs => exact absurd ((invalidate_seq_of_none hr).symm.trans hseq) (ne_succ _)
    have hself : (r.step schemes op).signature ≠ none →
        r.step schemes op ∈ versions schemes (r.step schemes op) ops := by
      intro hs
      have hsome := isSome_iff_ne_none.2 hs
      cases ops with
      | nil =>
        rw [versions_nil, if_pos hsome]
        exact mem_singleton_self _
      | cons op' ops =>
        rw [versions_cons, if_pos hsome]
        exact mem_cons_self
    rw [versions_cons, hr]
    by_cases hs : (r.step schemes op).signature = none
    · obtain ⟨w, hw, hwseq, hwpairs⟩ := ih hs fun hren => hsigned ⟨hs, hren⟩
      exact ⟨w, hw, hwseq.trans hseq, hwpairs.trans hpairs⟩
    · exact ⟨_, hself hs, hseq, hpairs⟩

theorem clean_of_numbered (h : Numbered (versions schemes r ops)) : Clean schemes r ops := by
  induction ops generalizing r with
  | nil => trivial
  | cons op ops ih =>
    rw [versions_cons] at h
    refine ⟨fun hs hpairs => ?_, ih ?_⟩
    · rw [if_pos (isSome_iff_ne_none.2 hs)] at h
      by_contra hren
      have hset : (r.step schemes op).signature = none ∧ (r.step schemes op).seq = r.seq := by
        have hmoved := step_moved schemes r op
        generalize r.step schemes op = r' at hmoved hpairs ⊢
        cases hmoved with
        | signed sig raw => exact absurd rfl hpairs
        | set pairs => exact ⟨rfl, invalidate_seq_of_some hs⟩
      obtain ⟨w, hw, hseq, hwpairs⟩ := exists_version hset.1 hren
      have hlt := rel_of_pairwise_cons h hw fun heq => hpairs (hwpairs.symm.trans heq.symm)
      exact absurd (hset.2.symm.trans hseq.symm) (UInt64.ne_of_lt hlt)
    · split at h
      · exact h.of_cons
      · exact h

/-- In a history that leaves room for the number, later versions with other pairs have larger
numbers exactly if each `Set` that changes a signed record is followed by another one before the
record is signed again. -/
theorem versions_numbered_iff (schemes : Bytes → Option IdentityScheme) (r : Record)
    (ops : List Op) (hroom : r.seq.toNat + ops.length < 2 ^ 64) :
    Numbered (versions schemes r ops) ↔ Clean schemes r ops :=
  ⟨clean_of_numbered, fun hclean => numbered_of_clean hclean hroom⟩

end Record

namespace Sample

/-- A scheme that accepts every signature, under every name. -/
def schemes : Bytes → Option IdentityScheme := fun _ => some fun _ _ => true

/-- A record with the scheme's name, `"v4"`. -/
def record : Record := ⟨1, none, none, [⟨idKey, [0x82, 0x76, 0x34]⟩]⟩

/-- `SetSig`. -/
def sign : Op := .setSig [0x76, 0x34] (some [1])

/-- `Set` of the key `"udp"`. -/
def set (port : UInt8) : Op := .set ⟨[0x75, 0x64, 0x70], some [port]⟩

/-- The second version has the port and the number of the first. -/
theorem set_keeps_number :
    ¬ Record.Numbered (Record.versions schemes record [sign, set 5, sign]) := by
  intro h
  have hlt : (1 : UInt64) < 1 := List.rel_of_pairwise_cons h List.mem_cons_self (by decide)
  exact absurd hlt (by decide)

theorem second_set_renumbers :
    Record.Numbered (Record.versions schemes record [sign, set 5, set 5, sign]) :=
  (Record.versions_numbered_iff schemes record [sign, set 5, set 5, sign] (by decide)).2
    ⟨fun h => absurd rfl h, fun _ _ => .inl (Option.some_ne_none _), fun h => absurd rfl h,
      fun h => absurd rfl h, trivial⟩

end Sample

end Geth.Enr
