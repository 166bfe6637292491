import Geth.State.Verify.Journal

/-!
# Reverting to a snapshot

`Journaled` ties the counts of `journal.dirties` to the entries. With it `journal.revert` unwinds
the ledger, and takes back the marks of the entries with the exception of the touches of the ripemd
precompile. `RevertToSnapshot` finds a revision by binary search.
-/

namespace Geth.State

open Lib Function List

namespace StateDB

variable {B : Backend}

/-- The entries `es` are in order and account for `journal.dirties`, up to the `n` touches of the
ripemd precompile that stay; a dirty account is live or does not exist. -/
structure Journaled (L : Lawful B) (n : Nat) (es : List (JournalEntry B)) (s : StateDB B) :
    Prop where
  entriesOk : ∀ e ∈ es, EntryOk L s.db (s.stored L) e
  dirties : ∀ a, s.journal.dirties a = touches es a + if a = ripemd then n else 0
  live : ∀ {a}, 0 < s.journal.dirties a → s.Live L a

variable {L : Lawful B} {s s' : StateDB B} {n k : Nat} {es rest : List (JournalEntry B)}

theorem journaled_new (hj : s.journal = .new) : Journaled L 0 [] s := by
  refine ⟨fun _ he => absurd he not_mem_nil, fun a => ?_, fun {a} ha => ?_⟩
  · rw [hj, touches_nil, ite_self]
    rfl
  · rw [hj] at ha
    exact absurd ha (Nat.lt_irrefl 0)

theorem Journaled.extends (h : Journaled L n rest s) (hext : Extends L s s' es k) :
    Journaled L (n + k) (es ++ rest) s' := by
  refine ⟨fun e he => ?_, fun a => ?_, fun {a} ha => ?_⟩
  · rw [hext.db, hext.stored]
    rcases mem_append.mp he with he | he
    · exact hext.entriesOk e he
    · exact h.entriesOk e he
  · rw [hext.dirties, h.dirties, touches_append]
    split <;> omega
  · by_cases hlt : s.journal.dirties a < s'.journal.dirties a
    · exact hext.touched hlt
    · exact hext.live (h.live (by omega))

theorem dirties_unmark {j : Journal B} {e : JournalEntry B} {a : Address} {m : Nat}
    (h : j.dirties a = touches (e :: es) a + m) :
    (j.unmark e.dirtied).dirties a = touches es a + m := by
  rw [touches_cons] at h
  cases he : e.dirtied with
  | none =>
    rw [he, if_neg nofun] at h
    exact h
  | some b =>
    rw [he] at h
    by_cases hb : a = b
    · subst hb
      rw [if_pos rfl] at h
      have hself : (j.unmark (some a)).dirties a = j.dirties a - 1 := update_self ..
      omega
    · rw [if_neg fun hab => hb (Option.some.inj hab).symm] at h
      have hself : (j.unmark (some b)).dirties a = j.dirties a := update_of_ne hb ..
      omega

theorem Objects.revertEntries (h : Objects L s) {w : Ledger}
    (hj : Journaled L n (es ++ rest) s) (hw : unwind L s.db (s.ledger L) es = some w) :
    ∃ s', s.revertEntries es = some s' ∧ Within L s s' ∧ s'.ledger L = w ∧
      Journaled L n rest s' ∧ s'.journal.entries = s.journal.entries ∧
      s'.thash = s.thash ∧ s'.bhash = s.bhash ∧ s'.txIndex = s.txIndex ∧
      s'.validRevisions = s.validRevisions ∧ s'.nextRevisionId = s.nextRevisionId := by
  induction es generalizing s with
  | nil =>
    cases hw
    exact ⟨s, rfl, h.refl, rfl, hj, rfl, rfl, rfl, rfl, rfl, rfl⟩
  | cons e es ih =>
    obtain ⟨w1, hundo, hrest⟩ := Option.bind_eq_some_iff.mp hw
    obtain ⟨s1, hrev, hr⟩ := h.revertEntry (hj.entriesOk e (mem_cons_self ..)) hundo
    -- the state with the mark of the entry taken back
    have hobj : Objects L { s1 with journal := s1.journal.unmark e.dirtied } :=
      ⟨hr.objects.trie, hr.objects.obj, hr.objects.clean, hr.objects.fresh, hr.objects.gone⟩
    have hdirties : ∀ a, (s1.journal.unmark e.dirtied).dirties a =
        touches (es ++ rest) a + if a = ripemd then n else 0 := by
      intro a
      rw [hr.journal]
      exact dirties_unmark (hj.dirties a)
    have hj1 : Journaled L n (es ++ rest) { s1 with journal := s1.journal.unmark e.dirtied } := by
      refine ⟨fun e' he' => ?_, hdirties, fun {a} ha => ?_⟩
      · have := hj.entriesOk e' (mem_cons_of_mem _ he')
        rw [← hr.db, ← hr.stored] at this
        exact this
      · have hpos : 0 < s.journal.dirties a := by
          have hle := hdirties a
          rw [hj.dirties, cons_append, touches_cons]
          simp only at ha
          omega
        exact hr.live (hj.live hpos)
    have hunwind : unwind L s1.db (s1.ledger L) es = some w := by
      rw [hr.db, hr.ledger]
      exact hrest
    obtain ⟨s', hrun, hw', hledger, hj', hentries, h1, h2, h3, h4, h5⟩ := ih hobj hj1 hunwind
    have hmark : (s1.journal.unmark e.dirtied).entries = s1.journal.entries := by
      cases e.dirtied <;> rfl
    obtain ⟨g1, g2, g3, g4, g5⟩ := hr.session
    refine ⟨s', ?_, hr.toWithin.trans
      ⟨hw'.db, hw'.content, hw'.objects, hw'.live, hw'.deleted, hw'.marks⟩, hledger, hj', ?_,
        h1.trans g1, h2.trans g2, h3.trans g3, h4.trans g4, h5.trans g5⟩
    · simp only [StateDB.revertEntries, hrev]
      exact hrun
    · rw [hentries]
      exact hmark.trans (congrArg Journal.entries hr.journal)

theorem Objects.revertJournal (h : Objects L s) (hj : Journaled L n s.journal.entries s)
    {i : Nat} {w : Ledger} (hw : unwind L s.db (s.ledger L)
      (s.journal.entries.take (s.journal.entries.length - i)) = some w) :
    ∃ s', s.revertJournal i = some s' ∧ Within L s s' ∧ s'.ledger L = w ∧
      Journaled L n s'.journal.entries s' ∧
      s'.journal.entries = s.journal.entries.drop (s.journal.entries.length - i) ∧
      s'.thash = s.thash ∧ s'.bhash = s.bhash ∧ s'.txIndex = s.txIndex ∧
      s'.validRevisions = s.validRevisions ∧ s'.nextRevisionId = s.nextRevisionId := by
  have hsplit := take_append_drop (s.journal.entries.length - i) s.journal.entries
  have hj0 : Journaled L n (s.journal.entries.take (s.journal.entries.length - i) ++
      s.journal.entries.drop (s.journal.entries.length - i)) s := by
    rw [hsplit]
    exact hj
  obtain ⟨s', hrun, hw', hledger, hj', hentries, hrest⟩ := h.revertEntries hj0 hw
  refine ⟨{ s' with journal := { s'.journal with
    entries := s.journal.entries.drop (s.journal.entries.length - i) } }, ?_,
    ⟨hw'.db, hw'.content, ?_, hw'.live, hw'.deleted, hw'.marks⟩, hledger,
    ⟨hj'.entriesOk, hj'.dirties, hj'.live⟩, rfl, hrest⟩
  · simp [StateDB.revertJournal, hrun, hentries]
  · have ho := hw'.objects
    exact ⟨ho.trie, ho.obj, ho.clean, ho.fresh, ho.gone⟩

/-! ## Finding the revision -/

theorem searchLoop_eq {f : Nat → Bool} {size m : Nat} (hf : ∀ k < size, f k = decide (m ≤ k)) :
    ∀ {fuel i j : Nat}, i ≤ m → m ≤ j → j ≤ size → j - i ≤ fuel → searchLoop f fuel i j = m := by
  intro fuel
  induction fuel with
  | zero =>
    intro i j hi hj _ hfuel
    rw [searchLoop]
    omega
  | succ fuel ih =>
    intro i j hi hj hsize hfuel
    rw [searchLoop]
    split
    · next hlt =>
      have hmid := hf ((i + j) / 2) (by omega)
      by_cases hle : m ≤ (i + j) / 2
      · rw [decide_eq_true hle] at hmid
        simp only [hmid, if_true]
        exact ih hi hle (by omega) (by omega)
      · rw [decide_eq_false hle] at hmid
        simp only [hmid, Bool.false_eq_true, if_false]
        exact ih (by omega) hj hsize (by omega)
    · omega

/-- The revisions are numbered in order, and so are the lengths of the journal they recorded. -/
def Ordered (revs : List Revision) : Prop :=
  revs.Pairwise fun r r' => r.id < r'.id ∧ r.journalIndex ≤ r'.journalIndex

theorem Ordered.getElem {revs : List Revision} (h : Ordered revs) {i j : Nat} {r r' : Revision}
    (hr : revs[i]? = some r) (hr' : revs[j]? = some r') (hij : i < j) :
    r.id < r'.id ∧ r.journalIndex ≤ r'.journalIndex := by
  obtain ⟨hi, rfl⟩ := List.getElem?_eq_some_iff.mp hr
  obtain ⟨hj, rfl⟩ := List.getElem?_eq_some_iff.mp hr'
  exact pairwise_iff_getElem.mp h i j hi hj hij

theorem search_eq {revs : List Revision} (h : Ordered revs) {m : Nat} {r : Revision}
    (hr : revs[m]? = some r) {f : Nat → Bool}
    (hf : ∀ k r', revs[k]? = some r' → f k = decide (r.id ≤ r'.id)) :
    search revs.length f = m := by
  have hm := (List.getElem?_eq_some_iff.mp hr).1
  refine searchLoop_eq ?_ (Nat.zero_le m) hm.le le_rfl (by omega)
  intro k hk
  have hk' : revs[k]? = some revs[k] := List.getElem?_eq_getElem hk
  rw [hf k _ hk', decide_eq_decide]
  constructor
  · by_contra hlt
    have := (h.getElem hk' hr (by omega)).1
    omega
  · intro hle
    rcases Nat.lt_or_eq_of_le hle with hlt | rfl
    · exact (h.getElem hr hk' hlt).1.le
    · cases hr.symm.trans hk'
      exact le_rfl

theorem revertToSnapshot_of_valid (h : Ordered s.validRevisions) {m : Nat} {r : Revision}
    (hr : s.validRevisions[m]? = some r) :
    s.revertToSnapshot r.id = (s.revertJournal r.journalIndex).map fun s =>
      { s with validRevisions := s.validRevisions.take m } := by
  simp only [StateDB.revertToSnapshot]
  rw [search_eq h hr]
  · simp [hr]
  · intro k r' hr'
    simp [hr']

theorem valid_of_revertToSnapshot {revid : Nat} (h : s.revertToSnapshot revid = some s') :
    ∃ (m : Nat) (r : Revision), s.validRevisions[m]? = some r ∧ r.id = revid := by
  rw [StateDB.revertToSnapshot] at h
  split at h
  · cases h
  · next r hr =>
    split at h
    · cases h
    · next hid => exact ⟨_, r, hr, not_not.mp hid⟩

end StateDB

end Geth.State
