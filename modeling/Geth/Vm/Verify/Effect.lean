import Geth.Vm.Verify.Refinement

/-!
# What running code does to the state

`Effect` lists what the machine does to a session: it opens accounts, transfers value, writes,
destroys accounts, and reverts what a call has done. Everything else about the state after a run
follows from the list, by induction: which snapshots are left, what a static call can change, that
no balance becomes negative.
-/

namespace Geth.Vm

open State Function List Option

/-- What the machine is allowed to do: nothing may be written (`static`), an account may destroy
itself (`destructs`), and the amounts that are transferred are neither negative nor beyond the
balance (`fair`). -/
structure Scope where
  static : Bool
  destructs : Bool
  fair : Bool

/-- The balance that the session has at an address. -/
def balanceOf (σ : Session) (addr : Address) : Int :=
  ((σ.world.ledger.accounts addr).map Acct.balance).getD 0

/-- No balance is negative. -/
def Nonneg (σ : Session) : Prop :=
  ∀ addr ac, σ.world.ledger.accounts addr = some ac → 0 ≤ ac.balance

/-- The operations that write and leave the balances alone. -/
def Writes : Op → Prop
  | .createAccount _ | .setNonce _ _ | .setCode _ _ | .setState _ _ _ | .addRefund _ | .addLog _ =>
    True
  | _ => False

/-- What running code does to a session. -/
inductive Effect (keccak : Bytes → Hash) (p : Scope) : Session → Session → Prop
  | refl (σ : Session) : Effect keccak p σ σ
  | trans {σ τ υ : Session} (h₁ : Effect keccak p σ τ) (h₂ : Effect keccak p τ υ) :
      Effect keccak p σ υ
  | preimage {σ τ : Session} {hash : Hash} {data : Bytes}
      (hs : σ.step keccak (.addPreimage hash data) = some τ) : Effect keccak p σ τ
  /-- An account that is not there is created. -/
  | opened {σ τ : Session} {addr : Address} (hnew : σ.world.ledger.accounts addr = none)
      (hs : σ.step keccak (.createAccount addr) = some τ) : Effect keccak p σ τ
  | transfer {σ τ υ : Session} {sender recipient : Address} {value : Int}
      (hstatic : p.static = true → value = 0)
      (hfair : p.fair = true → 0 ≤ value ∧ value ≤ balanceOf σ sender)
      (hsub : σ.step keccak (.subBalance sender value) = some τ)
      (hadd : τ.step keccak (.addBalance recipient value) = some υ) : Effect keccak p σ υ
  | write {σ τ : Session} (op : Op) (hop : Writes op) (hstatic : p.static = false)
      (hs : σ.step keccak op = some τ) : Effect keccak p σ τ
  | destruct {σ τ υ : Session} {self beneficiary : Address} (hstatic : p.static = false)
      (hdestructs : p.destructs = true)
      (hadd : σ.step keccak (.addBalance beneficiary (balanceOf σ self)) = some τ)
      (hsuicide : τ.step keccak (.suicide self) = some υ) : Effect keccak p σ υ
  | snapshot {σ τ : Session} (hs : σ.step keccak .snapshot = some τ) : Effect keccak p σ τ
  /-- What has been done since a snapshot is taken back. -/
  | reverted {σ σ₁ τ : Session} (hs : σ.step keccak .snapshot = some σ₁)
      (h : Effect keccak p σ₁ τ) : Effect keccak p σ
        { τ with world := σ.world.settle τ.ripemdTouched, saved := σ.saved }

variable {keccak : Bytes → Hash} {p q : Scope} {σ τ υ : Session}

theorem Effect.weaken (h : Effect keccak p σ τ) (hstatic : q.static = true → p.static = true)
    (hdestructs : p.destructs = true → q.destructs = true)
    (hfair : q.fair = true → p.fair = true) : Effect keccak q σ τ := by
  have hwrites : p.static = false → q.static = false := fun h => by
    rw [← Bool.not_eq_true] at h ⊢
    exact fun hq => h (hstatic hq)
  induction h with
  | refl σ => exact .refl σ
  | trans _ _ ih1 ih2 => exact .trans ih1 ih2
  | preimage hs => exact .preimage hs
  | opened hnew hs => exact .opened hnew hs
  | transfer hs hf hsub hadd =>
    exact .transfer (fun h => hs (hstatic h)) (fun h => hf (hfair h)) hsub hadd
  | write op hop hs hstep => exact .write op hop (hwrites hs) hstep
  | destruct hs hd hadd hsuicide => exact .destruct (hwrites hs) (hdestructs hd) hadd hsuicide
  | snapshot hs => exact .snapshot hs
  | reverted hs _ ih => exact .reverted hs ih

/-! ## Snapshots -/

/-- The snapshots that were there are still there; those that were added have new numbers. -/
structure Keeps (σ τ : Session) : Prop where
  saved : ∃ since, τ.saved = σ.saved ++ since ∧ ∀ r ∈ since, σ.nextId ≤ r.1
  nextId : σ.nextId ≤ τ.nextId

theorem Keeps.of_eq (hsaved : τ.saved = σ.saved) (hnext : τ.nextId = σ.nextId) : Keeps σ τ :=
  ⟨⟨[], by rw [hsaved, append_nil], by simp⟩, hnext.ge⟩

theorem Keeps.trans (h₁ : Keeps σ τ) (h₂ : Keeps τ υ) : Keeps σ υ := by
  obtain ⟨⟨since1, hsaved1, hnew1⟩, hnext1⟩ := h₁
  obtain ⟨⟨since2, hsaved2, hnew2⟩, hnext2⟩ := h₂
  refine ⟨⟨since1 ++ since2, by rw [hsaved2, hsaved1, append_assoc], fun r hr => ?_⟩,
    hnext1.trans hnext2⟩
  rcases mem_append.mp hr with hr | hr
  · exact hnew1 r hr
  · exact hnext1.trans (hnew2 r hr)

theorem keeps_snapshot (hs : σ.step keccak .snapshot = some τ) : Keeps σ τ := by
  cases hs
  exact ⟨⟨[(σ.nextId, σ.world)], rfl, by simp⟩, Nat.le_succ _⟩

theorem keeps_write {op : Op} (hop : Writes op) (hs : σ.step keccak op = some τ) : Keeps σ τ := by
  cases op with
  | createAccount | setNonce | setCode | setState | addRefund | addLog =>
    cases hs
    exact .of_eq rfl rfl
  | _ => exact hop.elim

theorem Effect.keeps (h : Effect keccak p σ τ) : Keeps σ τ := by
  induction h with
  | refl σ => exact .of_eq rfl rfl
  | trans _ _ ih1 ih2 => exact ih1.trans ih2
  | preimage hs | opened _ hs =>
    cases hs
    exact .of_eq rfl rfl
  | transfer _ _ hsub hadd =>
    cases hsub
    cases hadd
    exact .of_eq rfl rfl
  | write _ hop _ hs => exact keeps_write hop hs
  | destruct _ _ hadd hsuicide =>
    cases hadd
    cases hsuicide
    exact .of_eq rfl rfl
  | snapshot hs => exact keeps_snapshot hs
  | reverted hs _ ih =>
    exact ⟨⟨[], (append_nil _).symm, by simp⟩, ((keeps_snapshot hs).trans ih).nextId⟩

theorem Effect.revertToSnapshot {σ₁ : Session} (hlt : ∀ r ∈ σ.saved, r.1 < σ.nextId)
    (hs : σ.step keccak .snapshot = some σ₁) (h : Effect keccak p σ₁ τ) :
    τ.step keccak (.revertToSnapshot σ.nextId) = some
      { τ with world := σ.world.settle τ.ripemdTouched, saved := σ.saved } := by
  cases hs
  obtain ⟨since, hsaved, -⟩ := h.keeps.saved
  have hne : ∀ r ∈ σ.saved, r.1 ≠ σ.nextId := fun r hr => Nat.ne_of_lt (hlt r hr)
  have hfind : τ.saved.find? (fun r => r.1 = σ.nextId) = some (σ.nextId, σ.world) := by
    rw [hsaved, append_assoc, List.find?_append, List.find?_eq_none.mpr (by simpa using hne)]
    simp
  have htake : τ.saved.takeWhile (fun r => r.1 ≠ σ.nextId) = σ.saved := by
    rw [hsaved, append_assoc, takeWhile_append_of_pos (by simpa using hne)]
    simp
  simp only [Session.step, Session.revertToSnapshot, hfind, map_some]
  rw [htake]

/-! ## Static code -/

/-- Nothing has been written, but accounts may have been opened. -/
structure Quiet (w w' : Ledger) : Prop where
  accounts : ∀ addr, w'.accounts addr = w.accounts addr ∨
    (w.accounts addr = none ∧ w'.accounts addr = some .new)
  refund : w'.refund = w.refund
  logs : w'.logs = w.logs
  logSize : w'.logSize = w.logSize

theorem Quiet.refl (w : Ledger) : Quiet w w := ⟨fun _ => .inl rfl, rfl, rfl, rfl⟩

theorem Quiet.trans {w1 w2 w3 : Ledger} (h₁ : Quiet w1 w2) (h₂ : Quiet w2 w3) : Quiet w1 w3 := by
  refine ⟨fun addr => ?_, h₂.refund.trans h₁.refund, h₂.logs.trans h₁.logs,
    h₂.logSize.trans h₁.logSize⟩
  rcases h₁.accounts addr with heq1 | ⟨hnone, hnew⟩
  · rw [← heq1]
    exact h₂.accounts addr
  · rcases h₂.accounts addr with heq2 | ⟨hnone2, -⟩
    · exact .inr ⟨hnone, heq2.trans hnew⟩
    · cases hnew.symm.trans hnone2

theorem quiet_change_id (w : World) (addr : Address) :
    Quiet w.ledger (w.change addr id).ledger := by
  refine ⟨fun a => ?_, rfl, rfl, rfl⟩
  by_cases ha : a = addr
  · subst ha
    have hset : (w.change a id).ledger.accounts a = some ((w.ledger.accounts a).getD .new) :=
      update_self ..
    rw [hset]
    cases hac : w.ledger.accounts a with
    | none => exact .inr ⟨rfl, rfl⟩
    | some ac => exact .inl rfl
  · exact .inl (update_of_ne ha ..)

theorem quiet_subBalance (w : World) (addr : Address) :
    Quiet w.ledger (w.subBalance addr 0).ledger := by
  simp only [World.subBalance, if_true]
  split
  · exact quiet_change_id w addr
  · exact .refl _

theorem quiet_addBalance (w : World) (addr : Address) :
    Quiet w.ledger (w.addBalance keccak addr 0).ledger := by
  simp only [World.addBalance, if_true]
  split
  · exact quiet_change_id w addr
  · exact .refl _

variable {addr : Address}

theorem quiet_opened {w : World} (hnew : w.ledger.accounts addr = none) :
    Quiet w.ledger (w.createAccount addr).ledger := by
  simp only [World.createAccount, hnew]
  exact quiet_change_id w addr

theorem Effect.quiet (h : Effect keccak p σ τ) (hstatic : p.static = true) :
    Quiet σ.world.ledger τ.world.ledger := by
  induction h with
  | refl σ => exact .refl _
  | trans _ _ ih1 ih2 => exact ih1.trans ih2
  | preimage hs =>
    cases hs
    exact ⟨fun _ => .inl rfl, rfl, rfl, rfl⟩
  | opened hnew hs =>
    cases hs
    exact quiet_opened hnew
  | transfer hvalue _ hsub hadd =>
    cases hsub
    cases hadd
    rw [hvalue hstatic]
    exact (quiet_subBalance _ _).trans (quiet_addBalance _ _)
  | write _ _ hwrites _ => cases hstatic.symm.trans hwrites
  | destruct hwrites _ _ _ => cases hstatic.symm.trans hwrites
  | snapshot hs =>
    cases hs
    exact .refl _
  | reverted _ _ _ => exact .refl _

/-! ## Balances -/

theorem Nonneg.change (h : Nonneg σ) {f : Acct → Acct}
    (hf : 0 ≤ (f ((σ.world.ledger.accounts addr).getD .new)).balance) :
    Nonneg { σ with world := σ.world.change addr f } := by
  intro a ac hac
  have hupd : update σ.world.ledger.accounts addr
      (some (f ((σ.world.ledger.accounts addr).getD .new))) a = some ac := hac
  by_cases ha : a = addr
  · rw [ha, update_self] at hupd
    cases hupd
    exact hf
  · rw [update_of_ne ha] at hupd
    exact h a ac hupd

theorem balance_getD (σ : Session) (addr : Address) :
    ((σ.world.ledger.accounts addr).getD .new).balance = balanceOf σ addr := by
  rw [balanceOf]
  cases σ.world.ledger.accounts addr <;> rfl

theorem Nonneg.balanceOf (h : Nonneg σ) (addr : Address) : 0 ≤ balanceOf σ addr := by
  rw [Vm.balanceOf]
  cases hac : σ.world.ledger.accounts addr with
  | none => exact le_refl 0
  | some ac => exact h addr ac hac

theorem Nonneg.of_ledger (h : Nonneg σ)
    (hledger : τ.world.ledger.accounts = σ.world.ledger.accounts) : Nonneg τ := by
  intro addr ac hac
  rw [hledger] at hac
  exact h addr ac hac

theorem Nonneg.subBalance (h : Nonneg σ) {amount : Int} (hle : amount ≤ Vm.balanceOf σ addr)
    (hs : σ.step keccak (.subBalance addr amount) = some τ) : Nonneg τ := by
  cases hs
  have hkeep : 0 ≤ ((σ.world.ledger.accounts addr).getD .new).balance :=
    balance_getD σ addr ▸ h.balanceOf addr
  simp only [World.subBalance]
  split
  · split
    · exact h.change hkeep
    · exact h
  · apply h.change
    simp only [balance_getD]
    omega

theorem Nonneg.addBalance (h : Nonneg σ) {amount : Int} (hamount : 0 ≤ amount)
    (hs : σ.step keccak (.addBalance addr amount) = some τ) : Nonneg τ := by
  cases hs
  have hkeep : 0 ≤ ((σ.world.ledger.accounts addr).getD .new).balance :=
    balance_getD σ addr ▸ h.balanceOf addr
  refine Nonneg.of_ledger (σ := { σ with world := σ.world.addBalance keccak addr amount }) ?_ rfl
  simp only [World.addBalance]
  split
  · split
    · exact h.change hkeep
    · exact h
  · apply h.change
    have := h.balanceOf addr
    simp only [balance_getD]
    omega

theorem Nonneg.createAccount (h : Nonneg σ) (hs : σ.step keccak (.createAccount addr) = some τ) :
    Nonneg τ := by
  cases hs
  simp only [World.createAccount]
  split
  · exact h.change (balance_getD σ addr ▸ h.balanceOf addr)
  · next ac hac =>
    intro a ac' hac'
    have hupd : update σ.world.ledger.accounts addr
        (some { Acct.new with balance := ac.balance }) a = some ac' := hac'
    by_cases ha : a = addr
    · rw [ha, update_self] at hupd
      cases hupd
      exact h addr ac hac
    · rw [update_of_ne ha] at hupd
      exact h a ac' hupd

theorem Nonneg.suicide (h : Nonneg σ) (hs : σ.step keccak (.suicide addr) = some τ) : Nonneg τ := by
  cases hs
  simp only [World.suicide]
  split
  · exact h
  · exact h.change (le_refl 0)

theorem Nonneg.write (h : Nonneg σ) {op : Op} (hop : Writes op)
    (hs : σ.step keccak op = some τ) : Nonneg τ := by
  cases op with
  | createAccount addr => exact h.createAccount hs
  | setNonce addr _ | setCode addr _ | setState addr _ _ =>
    cases hs
    exact h.change (balance_getD σ addr ▸ h.balanceOf addr)
  | addRefund | addLog =>
    cases hs
    exact h.of_ledger rfl
  | _ => exact hop.elim

theorem balanceOf_set {ac : Acct} (hset : τ.world.ledger.accounts =
      update σ.world.ledger.accounts addr (some ac)) (a : Address) :
    Vm.balanceOf τ a = if a = addr then ac.balance else Vm.balanceOf σ a := by
  rw [Vm.balanceOf, hset]
  split
  · next ha => rw [ha, update_self, map_some, getD_some]
  · next ha => rw [update_of_ne ha, Vm.balanceOf]

theorem balanceOf_set_eq {ac : Acct} (hset : τ.world.ledger.accounts =
      update σ.world.ledger.accounts addr (some ac))
    (hac : ac.balance = Vm.balanceOf σ addr) (a : Address) :
    Vm.balanceOf τ a = Vm.balanceOf σ a := by
  rw [balanceOf_set hset]
  split
  · next ha => rw [hac, ha]
  · rfl

theorem balanceOf_createAccount (hs : σ.step keccak (.createAccount addr) = some τ) (a : Address) :
    Vm.balanceOf τ a = Vm.balanceOf σ a := by
  cases hs
  simp only [World.createAccount]
  split
  · next hnone => exact balanceOf_set_eq rfl (balance_getD σ addr) a
  · next ac hac =>
    refine balanceOf_set_eq rfl ?_ a
    rw [Vm.balanceOf, hac]
    rfl

theorem balanceOf_write (op : Op) (hop : Writes op) (hs : σ.step keccak op = some τ) (a : Address) :
    Vm.balanceOf τ a = Vm.balanceOf σ a := by
  cases op with
  | createAccount addr => exact balanceOf_createAccount hs a
  | setNonce addr _ | setCode addr _ | setState addr _ _ =>
    cases hs
    refine balanceOf_set_eq rfl ?_ a
    exact balance_getD σ addr
  | addRefund | addLog =>
    cases hs
    rfl
  | _ => exact hop.elim

theorem Effect.nonneg (h : Effect keccak p σ τ) (hfair : p.fair = true) (hn : Nonneg σ) :
    Nonneg τ := by
  induction h with
  | refl σ => exact hn
  | trans _ _ ih1 ih2 => exact ih2 (ih1 hn)
  | preimage hs | snapshot hs =>
    cases hs
    exact hn.of_ledger rfl
  | opened _ hs => exact hn.createAccount hs
  | transfer _ hamount hsub hadd =>
    obtain ⟨hvalue, hfunded⟩ := hamount hfair
    exact (hn.subBalance hfunded hsub).addBalance hvalue hadd
  | write _ hop _ hs => exact hn.write hop hs
  | destruct _ _ hadd hsuicide => exact (hn.addBalance (hn.balanceOf _) hadd).suicide hsuicide
  | reverted _ _ _ => exact hn.of_ledger rfl

end Geth.Vm
