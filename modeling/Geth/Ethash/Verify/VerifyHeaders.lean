import Geth.Ethash.VerifyHeaders
import Geth.Ethash.Verify.Headers

/-!
# Results in order, and workers that stay

Every index that has been handed out is with a worker, in `done` or checked (`Sound`), so the
coordinator cannot be left waiting, and it sends the results in order. A worker that sends after the
coordinator has left takes a place in `done` for good: all of them return if and only if there are
places enough (`Fits`).
-/

namespace Geth.Ethash

open Function List

namespace Worker

/-- The index that a worker is still to send to `done`. -/
def index : Worker → Option Nat
  | .verifying i | .sending i => some i
  | _ => none

/-- The number of steps that a worker has before it, if it is given no other index. -/
def rank : Worker → Nat
  | .idle => 1
  | .verifying _ => 4
  | .sending _ => 3
  | .finished => 0

end Worker

namespace Batch

variable {ε : Type} {n : Nat} {result : Nat → ε} {s t u : Batch ε}

/-- The indices that are in `done` or with a worker. -/
def pending (s : Batch ε) : List Nat := s.done ++ s.workers.filterMap Worker.index

/-- The worker for this index has written its result. -/
def Ready (s : Batch ε) (i : Nat) : Prop :=
  s.checked i = true ∨ i ∈ s.done ∨ .sending i ∈ s.workers

/-- The invariant of a call. -/
structure Sound (n : Nat) (result : Nat → ε) (s : Batch ε) : Prop where
  next_le : s.next ≤ n
  right : ∀ i, s.Ready i → s.errors i = result i
  kept : ∀ i < s.next, s.checked i = true ∨ i ∈ s.pending
  sent : s.errorsOut = (List.range s.errorsOut.length).map result
  running : s.running = true → s.errorsOut.length = s.out ∧ s.out < n ∧ s.checked s.out = false ∧
    .finished ∉ s.workers
  left : s.running = false → s.aborted = true ∨ s.errorsOut.length = n
  workers : 0 < s.workers.length
  room : s.done.length ≤ s.workers.length

/-! ## One step -/

/-- The loop over the results that are next in order changes `out`, `errorsOut` and, when it has
sent the last one, ends the coordinator. -/
theorem deliver_eq (n : Nat) (result : Nat → ε) : ∀ (rounds : Nat) (s : Batch ε),
    ∃ out sent running, deliver n rounds s =
        { s with out := out, errorsOut := sent, running := running } ∧
      (running = true → s.running = true) ∧
      ((∀ i, s.checked i = true → s.errors i = result i) → s.out < n → n - s.out ≤ rounds →
        s.errorsOut = (List.range s.out).map result →
        sent = (List.range sent.length).map result ∧
          (running = true → sent.length = out ∧ out < n ∧ s.checked out = false) ∧
          (running = false → s.running = false ∨ sent.length = n))
  | 0, s => ⟨s.out, s.errorsOut, s.running, rfl, id, fun _ _ _ _ => by omega⟩
  | rounds + 1, s => by
    rw [deliver]
    dsimp only
    have hnext : s.checked s.out = true → (∀ i, s.checked i = true → s.errors i = result i) →
        s.errorsOut = (List.range s.out).map result →
        s.errorsOut ++ [s.errors s.out] = (List.range (s.out + 1)).map result := by
      intro hc hchecked hsent
      rw [hchecked _ hc, hsent, range_succ, map_append]
      rfl
    split
    · next hc =>
      split
      · refine ⟨s.out, _, false, rfl, nofun, fun hchecked hout _ hsent => ?_⟩
        have hlen : (s.errorsOut ++ [s.errors s.out]).length = s.out + 1 := by
          rw [hnext hc hchecked hsent, length_map, length_range]
        exact ⟨by rw [hlen, hnext hc hchecked hsent], nofun, fun _ => .inr (by omega)⟩
      · obtain ⟨out, sent, running, heq, hrun, hspec⟩ := deliver_eq n result rounds
          { s with errorsOut := s.errorsOut ++ [s.errors s.out], out := s.out + 1 }
        exact ⟨out, sent, running, heq, hrun, fun hchecked hout hr hsent =>
          hspec hchecked (by dsimp only; omega) (by dsimp only; omega) (hnext hc hchecked hsent)⟩
    · next hc =>
      refine ⟨s.out, s.errorsOut, s.running, rfl, id, fun _ hout _ hsent => ?_⟩
      have hlen : s.errorsOut.length = s.out := by rw [hsent, length_map, length_range]
      exact ⟨by rw [hlen, ← hsent], fun _ => ⟨hlen, hout, Bool.eq_false_iff.mpr hc⟩, .inl⟩

theorem Sound.step (h : Sound n result s) (hs : Step n result s t) : Sound n result t := by
  have hkept := h.kept
  have hrunning := h.running
  have hworkers := h.workers
  have hroom := h.room
  cases hs with
  | give hrun hnext hw =>
    refine { h with
      next_le := hnext, right := fun i hi => h.right i ?_, kept := fun i hi => ?_,
      running := fun _ => ?_, workers := ?_, room := ?_ }
    all_goals grind [Ready, pending, Worker.index]
  | @verify l r i hw =>
    refine { h with
      right := fun j hj => ?_, kept := fun j hj => ?_, running := fun hrun => ?_,
      workers := ?_, room := ?_ }
    · by_cases hji : j = i
      · subst hji
        exact update_self ..
      · exact (update_of_ne hji ..).trans (h.right j (by grind [Ready]))
    all_goals grind [pending, Worker.index]
  | send hw hroom =>
    refine { h with
      right := fun i hi => h.right i ?_, kept := fun i hi => ?_, running := fun hrun => ?_,
      workers := ?_, room := ?_ }
    all_goals grind [Ready, pending, Worker.index]
  | @receive i rest hrun hdone =>
    obtain ⟨hlen, hout, hc, hnone⟩ := h.running hrun
    have hright : ∀ j, Ready { s with
        done := rest, checked := update s.checked i true } j → s.errors j = result j :=
      fun j hj => h.right j (by grind [Ready])
    obtain ⟨out, sent, running, heq, -, hspec⟩ := deliver_eq n result n
      { s with done := rest, checked := update s.checked i true }
    obtain ⟨hsent, hmore, hend⟩ := hspec (fun j hj => hright j (.inl hj)) hout (Nat.sub_le _ _)
      (hlen ▸ h.sent)
    rw [heq]
    refine { h with
      right := hright, kept := fun j hj => ?_, sent := hsent, running := fun hr => ?_,
      left := fun hr => .inr ((hend hr).resolve_left (by simp [hrun])), room := ?_ }
    all_goals grind [pending]
  | abort => exact { h with left := fun _ => .inl rfl }
  | quit hrun habort => exact { h with running := nofun, left := fun _ => .inl habort }
  | finish hrun hw =>
    refine { h with
      right := fun i hi => h.right i ?_, kept := fun i hi => ?_, running := fun hr => ?_,
      workers := ?_, room := ?_ }
    all_goals grind [Ready, pending, Worker.index]

theorem Sound.steps (h : Sound n result s) (hs : Steps n result s t) : Sound n result t := by
  induction hs with
  | refl => exact h
  | tail _ hstep ih => exact ih.step hstep

theorem sound_start {workers : Nat} (hn : 0 < n) (hworkers : 0 < workers) (nil : ε) :
    Sound n result (start workers nil) := by
  refine ⟨Nat.zero_le n, fun i hi => ?_, nofun, rfl, fun _ => ⟨rfl, hn, rfl, fun hf => ?_⟩, nofun,
    ?_, Nat.zero_le _⟩
  · grind [Ready, start]
  · cases eq_of_mem_replicate hf
  · exact Nat.lt_of_lt_of_eq hworkers length_replicate.symm

/-! ## Runs end -/

/-- Every step takes one off the steps to go. -/
def rank (n : Nat) (s : Batch ε) : Nat :=
  4 * (n - s.next) + (s.workers.map Worker.rank).sum + s.done.length + s.running.toNat +
    (!s.aborted).toNat

theorem Step.rank_lt (h : Step n result s t) : t.rank n < s.rank n := by
  cases h with
  | receive hrun hdone =>
    obtain ⟨out, sent, running, heq, -, -⟩ := deliver_eq n result n
      { s with done := _, checked := update s.checked _ true }
    have hle : running.toNat ≤ true.toNat := Bool.toNat_le running
    rw [heq]
    simp only [rank, hrun, hdone, length_cons]
    omega
  | give hrun hnext hw =>
    simp only [rank, hw, map_append, map_cons, sum_append, sum_cons, Worker.rank]
    omega
  | abort hopen => simp [rank, hopen]
  | quit hrun habort => simp [rank, hrun]
  | verify hw | finish _ hw =>
    simp only [rank, hw, map_append, map_cons, sum_append, sum_cons, Worker.rank]
    omega
  | send hw hroom =>
    simp only [rank, hw, map_append, map_cons, sum_append, sum_cons, Worker.rank,
      length_append, length_singleton]
    omega

theorem step_wellFounded (n : Nat) (result : Nat → ε) : WellFounded fun t s => Step n result s t :=
  Subrelation.wf Step.rank_lt (measure (rank n)).wf

theorem Sound.delivered (h : Sound n result s) (hopen : s.aborted = false)
    (hstuck : ∀ t, Step n result s t → t.aborted = true) : s.errorsOut.length = n := by
  have hno : ∀ {t}, Step n result s t → t.aborted = s.aborted → False := by
    intro t ht heq
    rw [hstuck t ht, hopen] at heq
    cases heq
  cases hrun : s.running with
  | false => exact (h.left hrun).resolve_left (by simp [hopen])
  | true =>
    obtain ⟨-, hout, hc, hnone⟩ := h.running hrun
    have hdone : s.done = [] := by
      cases hdone : s.done with
      | nil => rfl
      | cons i rest =>
        refine absurd ?_ (hno (.receive hrun hdone))
        obtain ⟨out, sent, running, heq, -⟩ := deliver_eq n result n
          { s with done := rest, checked := update s.checked i true }
        rw [heq]
    have hidle : ∀ w ∈ s.workers, w = .idle := by
      intro w hw
      obtain ⟨l, r, hlr⟩ := append_of_mem hw
      cases w with
      | idle => rfl
      | verifying i => exact (hno (.verify hlr) rfl).elim
      | sending i => exact (hno (.send hlr (by rw [hdone]; exact h.workers)) rfl).elim
      | finished => exact absurd hw hnone
    have hnext : s.next = n := by
      by_contra hne
      obtain ⟨w, hw⟩ := exists_mem_of_length_pos h.workers
      obtain ⟨l, r, hlr⟩ := append_of_mem hw
      rw [hidle w hw] at hlr
      exact hno (.give hrun (Nat.lt_of_le_of_ne h.next_le hne) hlr) rfl
    -- the next result in order is nowhere
    rcases h.kept s.out (hnext ▸ hout) with h' | h'
    · rw [hc] at h'
      cases h'
    · rw [pending, hdone, nil_append, mem_filterMap] at h'
      obtain ⟨w, hw, hi⟩ := h'
      rw [hidle w hw] at hi
      cases hi

/-! ## After the coordinator has left -/

/-- There is a place in `done` for every index that is with a worker. -/
def Fits (s : Batch ε) : Prop := s.pending.length ≤ s.workers.length

theorem Step.left (h : Step n result s t) (hleft : s.running = false) :
    t.running = false ∧ t.errorsOut = s.errorsOut ∧ (t.Fits ↔ s.Fits) := by
  cases h with
  | give hrun | receive hrun | quit hrun => cases hrun.symm.trans hleft
  | abort => exact ⟨hleft, rfl, Iff.rfl⟩
  | verify hw | finish _ hw | send hw =>
    refine ⟨hleft, rfl, ?_⟩
    grind [Fits, pending, Worker.index]

theorem steps_left (h : Steps n result s t) (hleft : s.running = false) :
    t.running = false ∧ t.errorsOut = s.errorsOut ∧ (t.Fits ↔ s.Fits) := by
  induction h with
  | refl => exact ⟨hleft, rfl, Iff.rfl⟩
  | tail _ hstep ih =>
    obtain ⟨hleft', hsent, hiff⟩ := hstep.left ih.1
    exact ⟨hleft', hsent.trans ih.2.1, hiff.trans ih.2.2⟩

theorem Sound.finished_iff (h : Sound n result s) (hstuck : ∀ t, ¬ Step n result s t) :
    s.running = false ∧ ((∀ w ∈ s.workers, w = .finished) ↔ s.Fits) := by
  have habort : s.aborted = true := by
    by_contra hopen
    exact hstuck _ (.abort (Bool.eq_false_iff.mpr hopen))
  have hleft : s.running = false := Bool.eq_false_iff.mpr fun hrun => hstuck _ (.quit hrun habort)
  refine ⟨hleft, fun hall => ?_, fun hfits w hw => ?_⟩
  · have hnil : s.workers.filterMap Worker.index = [] :=
      filterMap_eq_nil_iff.mpr fun w hw => by rw [hall w hw]; rfl
    rw [Fits, pending, hnil, append_nil]
    exact h.room
  · obtain ⟨l, r, hlr⟩ := append_of_mem hw
    cases w with
    | idle => exact absurd (.finish hleft hlr) (hstuck _)
    | verifying i => exact absurd (.verify hlr) (hstuck _)
    | sending i =>
      refine absurd (.send hlr ?_) (hstuck _)
      rw [Fits, pending, length_append] at hfits
      have hpos := length_pos_of_mem
        (mem_filterMap.mpr ⟨_, hw, (rfl : (Worker.sending i).index = some i)⟩)
      omega
    | finished => rfl

end Batch

/-! ## The calls -/

namespace Call

open Batch

variable (call : Call)

theorem start_cases :
    Sound call.headers.length call.result call.start ∧ call.ethash.mode ≠ .fullFake ∨
      call.start = .answered (call.headers.map fun _ => some (.ok ())) (some (.ok ())) ∧
        (call.ethash.mode = .fullFake ∨ call.headers = []) := by
  unfold start Engine.verifyHeaders
  split
  · next h => exact .inr ⟨rfl, h.imp_right length_eq_zero_iff.mp⟩
  · next h =>
    obtain ⟨hmode, hn⟩ := not_or.mp h
    refine .inl ⟨sound_start (Nat.pos_of_ne_zero hn) ?_ _, hmode⟩
    split
    · exact Nat.pos_of_ne_zero hn
    · exact call.procs.pos

/-- What a call that is not aborted sends: in the mode that accepts every input no header is looked
at. -/
def verdicts : List (Option (Except WorkerErr Unit)) :=
  if call.ethash.mode = .fullFake then call.headers.map fun _ => some (.ok ())
  else (List.range call.headers.length).map call.result

/-- Whatever the order of the steps, the results come in the order of the headers, one for each, and
every run ends. -/
theorem verifyHeaders_in_order : (WellFounded fun t s => call.Step s t) ∧
      ∀ s, call.Steps call.start s → s.aborted = false → s.errorsOut <+: call.verdicts ∧
          ((∀ t, call.Step s t → t.aborted = true) → s.errorsOut = call.verdicts) := by
  refine ⟨step_wellFounded _ _, fun s hs hopen => ?_⟩
  rcases call.start_cases with ⟨hsound, hmode⟩ | ⟨heq, hmode⟩
  · have h := hsound.steps hs
    have hle : s.errorsOut.length ≤ call.headers.length := by
      cases hrun : s.running with
      | true =>
        obtain ⟨hlen, hout, -⟩ := h.running hrun
        omega
      | false => exact Nat.le_of_eq ((h.left hrun).resolve_left (by simp [hopen]))
    have htake : s.errorsOut = call.verdicts.take s.errorsOut.length := by
      rw [verdicts, if_neg hmode, ← List.map_take, List.take_range, Nat.min_eq_left hle]
      exact h.sent
    refine ⟨htake ▸ List.take_prefix .., fun hstuck => ?_⟩
    rw [htake, h.delivered hopen hstuck]
    exact List.take_of_length_le (by simp [verdicts, hmode])
  · rw [heq] at hs
    have hsent : s.errorsOut = call.verdicts := by
      rw [(steps_left hs rfl).2.1, verdicts]
      rcases hmode with hmode | hmode
      · rw [if_pos hmode]
        rfl
      · rw [hmode]
        split <;> rfl
    exact ⟨hsent ▸ List.prefix_rfl, fun _ => hsent⟩

/-- A run in which nothing can happen any more: the coordinator has returned, and the workers have
if and only if the indices they had when it did fitted into `done`. -/
theorem verifyHeaders_finished_iff : (WellFounded fun t s => call.Step s t) ∧
      ∀ t, call.Steps call.start t → (∀ u, ¬ call.Step t u) → t.running = false ∧
          ∀ s s', call.Steps call.start s → s.running = true → call.Step s s' →
            s'.running = false → call.Steps s' t →
            ((∀ w ∈ t.workers, w = .finished) ↔ s'.Fits) := by
  refine ⟨step_wellFounded _ _, fun t ht hstuck => ?_⟩
  rcases call.start_cases with ⟨hsound, -⟩ | ⟨heq, -⟩
  · obtain ⟨hleft, hiff⟩ := (hsound.steps ht).finished_iff hstuck
    exact ⟨hleft, fun s s' _ _ _ hs' hrest => hiff.trans (steps_left hrest hs').2.2⟩
  · rw [heq] at ht ⊢
    refine ⟨(steps_left ht rfl).1, fun s s' hs hrun => ?_⟩
    cases hrun.symm.trans (steps_left hs rfl).1

end Call

namespace Sample

open Batch

/-- The state of a call. -/
abbrev Progress := Batch (Option (Except WorkerErr Unit))

/-- Two headers without known parents, for one worker. -/
def orphans : Call :=
  ⟨env, faker, homestead, fun _ => ⟨fun _ _ => none, 0⟩, 1, [(header, false), (header, false)]⟩

/-- The worker has verified the first one and sent its index. -/
def sentFirst : Progress :=
  { orphans.start with
    next := 1, done := [0], errors := Function.update orphans.start.errors 0 (orphans.result 0) }

theorem steps_sentFirst : orphans.Steps orphans.start sentFirst :=
  ((Relation.ReflTransGen.single (.give (s := orphans.start) (l := []) rfl Nat.two_pos rfl)).tail
    (.verify (l := []) rfl)).tail (.send (l := []) rfl (by exact Nat.one_pos))

/-- The two headers for two workers. -/
def pair : Call := { orphans with procs := 2 }

/-- The second worker has verified its header and sent its index, the first one has not. -/
def sentSecond : Progress :=
  { pair.start with
    next := 2, workers := [.verifying 0, .idle], done := [1]
    errors := Function.update pair.start.errors 1 (pair.result 1) }

/-- The coordinator has the second index, and the first one is there for it. -/
def sentBoth : Progress :=
  { sentSecond with
    workers := [.idle, .idle], done := [0], checked := Function.update (fun _ => false) 1 true
    errors := Function.update sentSecond.errors 0 (pair.result 0) }

/-- It has sent both results and left. -/
def delivered : Progress :=
  { sentBoth with
    out := 1, done := [], checked := Function.update sentBoth.checked 0 true, running := false
    errorsOut := [pair.result 0, pair.result 1] }

/-- The workers have returned as well. -/
def returned : Progress :=
  { delivered with workers := [.finished, .finished] }

theorem steps_sentBoth : pair.Steps pair.start sentBoth := by
  have hgiven : pair.Steps pair.start { pair.start with
      next := 2, workers := [.verifying 0, .verifying 1] } :=
    (Relation.ReflTransGen.single (.give (l := []) rfl Nat.two_pos rfl)).tail
      (.give (l := [.verifying 0]) rfl Nat.one_lt_two rfl)
  have hsecond : pair.Steps pair.start sentSecond :=
    (hgiven.tail (.verify (l := [.verifying 0]) rfl)).tail
      (.send (l := [.verifying 0]) rfl Nat.two_pos)
  exact ((hsecond.tail (.receive rfl rfl)).tail (.verify (l := []) rfl)).tail
    (.send (l := []) rfl Nat.two_pos)

theorem step_delivered : pair.Step sentBoth delivered := by
  have hstep : pair.Step sentBoth (deliver 2 2 { sentBoth with
      done := [], checked := Function.update sentBoth.checked 0 true }) := .receive rfl rfl
  exact hstep

theorem steps_returned : pair.Steps delivered returned := by
  have hfirst : pair.Steps delivered { delivered with workers := [.finished, .idle] } :=
    .single (.finish (l := []) rfl rfl)
  exact hfirst.tail (.finish (l := [.finished]) rfl rfl)

theorem aborted_of_returned (t : Progress)
    (h : pair.Step returned t) : t.aborted = true := by
  cases h <;> simp_all [returned, delivered, cons_eq_append_iff]

/-- The results come in the order of the headers, although the second one was there first. -/
theorem verifyHeaders_outOfOrder :
    sentBoth.checked 1 = true ∧ sentBoth.errorsOut = [] ∧ returned.errorsOut = pair.verdicts :=
  ⟨rfl, rfl, (pair.verifyHeaders_in_order.2 returned
    ((steps_sentBoth.tail step_delivered).trans steps_returned) rfl).2 aborted_of_returned⟩

/-- A header without a known parent is an error for the worker, but not in this mode. -/
theorem verifyHeaders_fullFake :
    (Call.start { orphans with ethash := ⟨⟨.fullFake, 0⟩, none⟩ }).errorsOut =
        [some (.ok ()), some (.ok ())] ∧
      Call.result { orphans with ethash := ⟨⟨.fullFake, 0⟩, none⟩ } 0 =
        some (.error .unknownAncestor) := by
  decide

/-- The worker has the second header, and the call is aborted. -/
def abandoned : Progress :=
  { sentFirst with next := 2, workers := [.verifying 1], aborted := true }

theorem steps_abandoned : orphans.Steps orphans.start abandoned :=
  (steps_sentFirst.tail (.give (l := []) rfl Nat.one_lt_two rfl)).tail (.abort rfl)

/-- The coordinator has left, and then the worker has verified the header. -/
def blocked : Progress :=
  { abandoned with
    running := false, workers := [.sending 1]
    errors := Function.update abandoned.errors 1 (orphans.result 1) }

theorem steps_blocked : orphans.Steps { abandoned with running := false } blocked :=
  .single (.verify (l := []) rfl)

theorem blocked_stuck (u : Progress) : ¬ orphans.Step blocked u := by
  intro hu
  cases hu <;> simp_all [blocked, abandoned, sentFirst, cons_eq_append_iff]

/-- The second worker is blocked, and in the run of two workers both return. -/
theorem verifyHeaders_finished_blocked :
    ((∀ w ∈ blocked.workers, w = .finished) ↔ Fits { abandoned with running := false }) ∧
    ∀ w ∈ returned.workers, w = .finished := by
  refine ⟨(orphans.verifyHeaders_finished_iff.2 _
    ((steps_abandoned.tail (.quit rfl rfl)).trans steps_blocked) blocked_stuck).2
    _ _ steps_abandoned rfl (.quit rfl rfl) rfl steps_blocked, ?_⟩
  have hend := steps_returned.tail (.abort rfl)
  refine ((pair.verifyHeaders_finished_iff.2 { returned with aborted := true }
    ((steps_sentBoth.tail step_delivered).trans hend) fun u hu => ?_).2 _ _ steps_sentBoth rfl
    step_delivered rfl hend).mpr (by exact Nat.zero_le _)
  cases hu <;> simp_all [returned, delivered, cons_eq_append_iff]

/-- Nobody has taken the first index from `done`: the worker waits forever to send its own. -/
theorem verifyHeaders_blocked :
    orphans.Steps orphans.start blocked ∧ (∀ u, ¬ orphans.Step blocked u) ∧
      .sending 1 ∈ blocked.workers :=
  ⟨(steps_abandoned.tail (.quit rfl rfl)).trans steps_blocked, blocked_stuck,
    List.mem_singleton_self _⟩

end Sample

end Geth.Ethash
