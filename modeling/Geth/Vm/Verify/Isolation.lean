import Geth.Vm.Verify.Evolve

/-!
# Failed calls and static calls

A call that returns an error leaves the state as it was, whatever its code has done; a `Create`
leaves the nonce of its caller counted up. The gas is gone, unless the code has reverted or the call
was refused before any code was run. A static call writes nothing, also through the calls that it
makes.
-/

namespace Geth.Vm

open State

/-! ## The gas of a failed call -/

theorem leftOver_eq_zero (c : Contract) {err : VmErr} (h : err ≠ .executionReverted) :
    c.leftOver err = 0 := by
  rw [Contract.leftOver, if_neg h, Contract.useGas, if_neg (UInt64.lt_irrefl c.gas)]
  exact UInt64.sub_self c.gas

section Refused

variable {S : Type} [StateDB S]

/-- The call is refused before any code is run: it is too deep, or its value cannot be paid. -/
def Refused (evm : Evm S) (caller : Address) (value : Option Int) : Prop :=
  evm.depth > callCreateDepth ∨ ∃ v ∈ value, (StateDB.getBalance evm.db caller).1 < v

/-- What one of the four calls returns, with the value that its caller has to be able to pay. -/
inductive Invoked (calls : Calls S) (evm : Evm S) :
    Address → Option Int → UInt64 → CallResult → Evm S → Prop
  | call {caller : ContractRef} {addr : Address} {input : Bytes} {gas : UInt64} {value : Int}
      {res : CallResult} {evm' : Evm S}
      (h : calls.call caller addr input gas value evm = .ok (res, evm')) :
      Invoked calls evm caller.address (some value) gas res evm'
  | callCode {caller : ContractRef} {addr : Address} {input : Bytes} {gas : UInt64} {value : Int}
      {res : CallResult} {evm' : Evm S}
      (h : calls.callCode caller addr input gas value evm = .ok (res, evm')) :
      Invoked calls evm caller.address (some value) gas res evm'
  | delegateCall {parent : Contract} {addr : Address} {input : Bytes} {gas : UInt64}
      {res : CallResult} {evm' : Evm S}
      (h : calls.delegateCall parent addr input gas evm = .ok (res, evm')) :
      Invoked calls evm parent.self none gas res evm'
  | staticCall {caller : ContractRef} {addr : Address} {input : Bytes} {gas : UInt64}
      {res : CallResult} {evm' : Evm S}
      (h : calls.staticCall caller addr input gas evm = .ok (res, evm')) :
      Invoked calls evm caller.address none gas res evm'

variable {env : Env} {interpreter : Runner S} {evm evm' : Evm S} {caller : Address}
  {value : Option Int} {gas : UInt64} {res : CallResult}

theorem Settled.leftOver {snapshot : Nat} {result : Except Fault (Ret × Contract × Evm S)}
    (h : Settled snapshot result res evm') (herr : res.err ≠ none)
    (hrevert : res.err ≠ some .executionReverted) : res.leftOverGas = 0 := by
  cases h with
  | returned => exact absurd rfl herr
  | reverted => exact leftOver_eq_zero _ fun h => hrevert (congrArg some h)

section Called

variable {Ran : S → CallResult → Evm S → Prop} (h : Called env evm caller value gas Ran res evm')

include h

theorem Called.leftOver_of_refused (hrefused : Refused evm caller value) :
    res.leftOverGas = gas := by
  cases h with
  | ran hdepth hfunded h =>
    obtain ⟨v, hv, hlt⟩ := hrefused.resolve_left hdepth
    exact absurd (of_decide_eq_true (hfunded v hv)) (not_le.mpr hlt)
  | _ => rfl

theorem Called.leftOver (hrefused : ¬ Refused evm caller value) (herr : res.err ≠ none)
    (hran : ∀ db, Ran db res evm' → res.leftOverGas = 0) : res.leftOverGas = 0 := by
  cases h with
  | skipped => exact absurd rfl herr
  | tooDeep hdeep => exact absurd (.inl hdeep) hrefused
  | unfunded hv hunfunded =>
    exact absurd (.inr ⟨_, hv, not_le.mp (of_decide_eq_false hunfunded)⟩) hrefused
  | ran _ _ h => exact hran _ h

end Called

theorem Invoked.called (h : Invoked (calls env interpreter) evm caller value gas res evm') :
    ∃ Ran, Called env evm caller value gas Ran res evm' ∧
      ∀ db, Ran db res evm' → res.err ≠ none → res.err ≠ some .executionReverted →
        res.leftOverGas = 0 := by
  cases h with
  | call h =>
    refine ⟨_, called_of_call h, fun db hentered herr => ?_⟩
    cases hentered with
    | vacant => exact absurd rfl herr
    | ran _ _ hsettled => exact hsettled.leftOver herr
  | callCode h => exact ⟨_, called_of_callCode h, fun _ hsettled => hsettled.leftOver⟩
  | delegateCall h => exact ⟨_, called_of_delegateCall h, fun _ hsettled => hsettled.leftOver⟩
  | staticCall h => exact ⟨_, called_of_staticCall h, fun _ ⟨_, _, hsettled⟩ => hsettled.leftOver⟩

theorem Stored.leftOver {snapshot : Nat} {addr : Address}
    {result : Except Fault (Ret × Contract × Evm S)}
    (h : Stored env snapshot addr result res evm') (herr : res.err ≠ none)
    (hrevert : res.err ≠ some .executionReverted)
    (hfrontier : env.isHomestead = true ∨ res.err ≠ some .codeStoreOutOfGas) :
    res.leftOverGas = 0 := by
  cases h with
  | stored => exact absurd rfl herr
  | kept _ hkept =>
    rcases hfrontier with hhomestead | herr'
    · cases hkept.symm.trans hhomestead
    · exact absurd rfl herr'
  | reverted => exact leftOver_eq_zero _ fun h => hrevert (congrArg some h)

end Refused

/-! ## Failed calls -/

section Failed

variable {B : Backend} {L : Lawful B} {hL : L.CollisionFree} {d : Bool}
  {evm : Evm (State.StateDB B)}

theorem sameView_of_rel {s s' : State.StateDB B} {σ σ' : Session}
    (h : (StateDB.refinement L hL).rel s σ) (h' : (StateDB.refinement L hL).rel s' σ')
    (hledger : σ'.world.ledger = σ.world.ledger) : StateDB.SameView L s s' := by
  obtain ⟨n, href⟩ := h
  obtain ⟨n', href'⟩ := h'
  exact StateDB.sameView_of_ledger href.objects href'.objects
    (href'.ledger.trans (hledger.trans href.ledger.symm))

theorem Invoked.sameView {env : Env} {n : Nat} {caller : Address} {value : Option Int}
    {gas : UInt64} {res : CallResult} {evm' : Evm (State.StateDB B)} {σ : Session}
    (hrel : (StateDB.refinement L hL).rel evm.db σ)
    (h : Invoked (Evm.calls env n) evm caller value gas res evm') (herr : res.err ≠ none) :
    StateDB.SameView L evm.db evm'.db := by
  -- the rules for static frames and for amounts do not matter here
  have hrun := (interpreter_evolve (StateDB.refinement L hL) env false false n).run
  have hview : (∃ σ', Evolves (StateDB.refinement L hL) env false false σ evm σ' evm' ∧
      (res.err ≠ none → σ'.world.ledger = σ.world.ledger)) → StateDB.SameView L evm.db evm'.db := by
    rintro ⟨σ', hevolves, hledger⟩
    exact sameView_of_rel hrel hevolves.rel (hledger herr)
  cases h with
  | call h => exact hview (call_evolves hrun hrel nofun nofun h)
  | callCode h => exact hview (callCode_evolves hrun hrel nofun h)
  | delegateCall h => exact hview (delegateCall_evolves hrun hrel nofun h)
  | staticCall h =>
    obtain ⟨σ', hevolves, -, hledger⟩ := staticCall_evolves hrun hrel nofun h
    exact hview ⟨σ', hevolves, hledger⟩

/-- Failed calls have no effect. Let no two accounts and no two slots have one hash. For every state
that a run with one flag reaches and every code in it, whenever `Call`, `CallCode`, `DelegateCall`
or `StaticCall` returns an error, every getter of the state shows what it showed before; after
`Create` it shows that with the nonce of the caller counted up, apart from code before Homestead
that cannot be paid for. No gas is left, unless the code has reverted. If a call is refused before
any code is run, all the gas is left and `Create` does not count the nonce either. -/
theorem failed_call_without_effect (hL : L.CollisionFree) (hs : StateDB.Reachable L d evm.db)
    (env : Env) (n : Nat) :
    (∀ caller value gas res evm', Invoked (Evm.calls env n) evm caller value gas res evm' →
      res.err ≠ none → StateDB.SameView L evm.db evm'.db ∧
        (Refused evm caller value → res.leftOverGas = gas) ∧
        (¬ Refused evm caller value → res.err ≠ some .executionReverted → res.leftOverGas = 0)) ∧
    ∀ (caller : ContractRef) code gas value res addr evm',
      (Evm.calls env n).create caller code gas value evm = .ok (res, addr, evm') → res.err ≠ none →
        (Refused evm caller.address (some value) →
          StateDB.SameView L evm.db evm'.db ∧ res.leftOverGas = gas) ∧
        (¬ Refused evm caller.address (some value) →
          env.isHomestead = true ∨ res.err ≠ some .codeStoreOutOfGas →
            StateDB.SameView L (numbered evm.db caller.address) evm'.db ∧
            (res.err ≠ some .executionReverted → res.leftOverGas = 0)) := by
  obtain ⟨⟨k, σ, href⟩, -⟩ := hs.sound
  have hrel : (StateDB.refinement L hL).rel evm.db σ := ⟨k, href⟩
  refine ⟨fun caller value gas res evm' h herr => ?_, ?_⟩
  · obtain ⟨Ran, hcalled, hran⟩ := h.called
    exact ⟨h.sameView hrel herr, hcalled.leftOver_of_refused, fun hrefused hrevert =>
      hcalled.leftOver hrefused herr fun db h => hran db h herr hrevert⟩
  intro caller code gas value res addr evm' h herr
  have hbalance : (StateDB.getBalance evm.db caller.address).1 = balanceOf σ caller.address :=
    ((StateDB.refinement L hL).getBalance hrel caller.address).1
  have hrun := (interpreter_evolve (StateDB.refinement L hL) env false false n).run
  obtain ⟨σ', hevolves, hsame, hnumbered⟩ := create_evolves hrun hrel nofun rfl h
  constructor
  · intro hrefused
    have hrefused' : evm.depth > callCreateDepth ∨ balanceOf σ caller.address < value :=
      hrefused.imp_right fun ⟨v, hv, hlt⟩ => by
        cases hv
        exact hbalance ▸ hlt
    exact ⟨sameView_of_rel hrel hevolves.rel (hsame hrefused'),
      (called_of_create h).leftOver_of_refused hrefused⟩
  · intro hrefused hfrontier
    obtain ⟨hdepth, hpays⟩ := not_or.mp hrefused
    have hfunds : value ≤ balanceOf σ caller.address := by
      rw [← hbalance]
      exact not_lt.mp fun hlt => hpays ⟨value, rfl, hlt⟩
    obtain ⟨σ₁, hrel₁, -, -, hledger⟩ := numbered_rel
      (p := ⟨false, false, false⟩) hrel caller.address
    refine ⟨sameView_of_rel hrel₁ hevolves.rel
      ((hnumbered (not_lt.mp hdepth) hfunds herr hfrontier).trans hledger.symm), fun hrevert => ?_⟩
    refine (called_of_create h).leftOver hrefused herr fun db hmade => ?_
    cases hmade with
    | collision => rfl
    | skipped => exact absurd rfl herr
    | ran _ _ hstored => exact hstored.leftOver herr hrevert hfrontier

end Failed

/-! ## Static calls -/

section Static

variable {B : Backend} {L : Lawful B} {hL : L.CollisionFree} {d : Bool}

/-- What a static call may change is that an account is there, without anything in it. -/
structure QuietView (s s' : State.StateDB B) : Prop where
  getBalance : ∀ a, (s'.getBalance a).1 = (s.getBalance a).1
  getNonce : ∀ a, (s'.getNonce a).1 = (s.getNonce a).1
  getCode : ∀ a, (s'.getCode a).1.getD [] = (s.getCode a).1.getD []
  getState : ∀ a key, (s'.getState a key).1 = (s.getState a key).1
  hasSuicided : ∀ a, (s'.hasSuicided a).1 = (s.hasSuicided a).1
  refund : s'.refund = s.refund
  logs : ∀ hash, s'.getLogs hash = s.getLogs hash
  logSize : s'.logSize = s.logSize
  exist : ∀ a, (s'.exist a).1 = (s.exist a).1 ∧ (s'.getCodeHash a).1 = (s.getCodeHash a).1 ∨
    ((s.exist a).1 = false ∧ (s'.exist a).1 = true ∧ (s'.empty a).1 = true)

theorem Quiet.map_eq {α : Type} {w w' : Ledger} (h : Quiet w w') (f : Acct → α) {x : α}
    (hf : f .new = x) (a : Address) :
    ((w'.accounts a).map f).getD x = ((w.accounts a).map f).getD x := by
  rcases h.accounts a with heq | ⟨hnone, hnew⟩
  · rw [heq]
  · rw [hnone, hnew]
    exact hf

theorem quietView_of_rel {s s' : State.StateDB B} {σ σ' : Session}
    (h : (StateDB.refinement L hL).rel s σ) (h' : (StateDB.refinement L hL).rel s' σ')
    (hquiet : Quiet σ.world.ledger σ'.world.ledger) : QuietView s s' := by
  obtain ⟨n, href⟩ := h
  obtain ⟨n', href'⟩ := h'
  have ho := href.objects
  have ho' := href'.objects
  refine ⟨fun a => ?_, fun a => ?_, fun a => ?_, fun a key => ?_, fun a => ?_, ?_,
    fun hash => ?_, ?_, fun a => ?_⟩
  · rw [(ho'.getBalance (hL.known a)).1, (ho.getBalance (hL.known a)).1, href.account,
      href'.account]
    exact hquiet.map_eq Acct.balance rfl a
  · rw [(ho'.getNonce (hL.known a)).1, (ho.getNonce (hL.known a)).1, href.account, href'.account]
    exact hquiet.map_eq Acct.nonce rfl a
  · rw [(ho'.getCode (hL.known a)).1, (ho.getCode (hL.known a)).1, href.account, href'.account]
    exact hquiet.map_eq Acct.code rfl a
  · rw [(ho'.getState (hL.known a) (hL.knownSlot key)).1,
      (ho.getState (hL.known a) (hL.knownSlot key)).1, href.account, href'.account]
    exact hquiet.map_eq (fun ac => ac.storage key) rfl a
  · rw [(ho'.hasSuicided (hL.known a)).1, (ho.hasSuicided (hL.known a)).1, href.account,
      href'.account]
    exact hquiet.map_eq Acct.suicided rfl a
  · have hrefund := hquiet.refund
    rw [← href.ledger, ← href'.ledger] at hrefund
    exact hrefund
  · have hlogs := congrFun hquiet.logs hash
    rw [← href.ledger, ← href'.ledger] at hlogs
    exact hlogs
  · have hlogSize := hquiet.logSize
    rw [← href.ledger, ← href'.ledger] at hlogSize
    exact hlogSize
  · rw [(ho'.exist (hL.known a)).1, (ho.exist (hL.known a)).1, (ho'.getCodeHash (hL.known a)).1,
      (ho.getCodeHash (hL.known a)).1, (ho'.empty (hL.known a)).1, href.account, href'.account]
    rcases hquiet.accounts a with heq | ⟨hnone, hnew⟩
    · rw [heq]
      exact .inl ⟨rfl, rfl⟩
    · rw [hnone, hnew]
      refine .inr ⟨rfl, rfl, ?_⟩
      simp [Acct.empty, Acct.new]

/-- Static calls do not modify state. Let no two accounts and no two slots have one hash. Under the
rules of Byzantium, for every code, input and state that a run with one flag reaches, `StaticCall`
leaves the balances, nonces, codes, storage, suicide flags, logs and the refund counter as they
were, and the flag of the interpreter too. Only an account that is empty may have been created. -/
theorem static_call_writes_nothing (hL : L.CollisionFree) {env : Env}
    (hbyzantium : env.isByzantium = true) {n : Nat} {evm evm' : Evm (State.StateDB B)}
    (hs : StateDB.Reachable L d evm.db) {caller : ContractRef} {addr : Address} {input : Bytes}
    {gas : UInt64} {res : CallResult}
    (h : (Evm.calls env n).staticCall caller addr input gas evm = .ok (res, evm')) :
    QuietView evm.db evm'.db ∧ evm'.readOnly = evm.readOnly := by
  obtain ⟨⟨k, σ, href⟩, -⟩ := hs.sound
  have hrel : (StateDB.refinement L hL).rel evm.db σ := ⟨k, href⟩
  have hrun := (interpreter_evolve (StateDB.refinement L hL) env true false n).run
  obtain ⟨σ', hevolves, heffect, -⟩ := staticCall_evolves hrun hrel nofun h
  exact ⟨quietView_of_rel hrel hevolves.rel (heffect.quiet hbyzantium), hevolves.readOnly⟩

end Static

namespace Sample

/-- The result of a `Create` by an account without funds, on the state that has just been opened. -/
def creates (env : Env) (code : Bytes) (value : Int) :
    Except Fault (CallResult × Address × Evm (State.StateDB Memory.backend)) :=
  (Evm.calls env 1).create (.account Memory.sampleAddr) code 5 value
    (fresh Memory.opened)

/-- A `Create` whose value cannot be paid returns an error with all the gas and without a new
nonce. -/
theorem unfunded_create_keeps_gas :
    ∃ res addr evm', creates byzantium [] 1 = .ok (res, addr, evm') ∧ res.err = some .insufficientBalance ∧ res.leftOverGas = 5 ∧
      (evm'.db.getNonce Memory.sampleAddr).1 =
        (Memory.opened.getNonce Memory.sampleAddr).1 := by
  have hrun : (match creates byzantium [] 1 with
      | .ok (res, _, evm') => some (res.err, res.leftOverGas,
          (evm'.db.getNonce Memory.sampleAddr).1)
      | .error _ => none) = some (some .insufficientBalance, 5, 0) := by decide
  split at hrun
  · next res addr evm' hcreate =>
    simp only [Option.some.injEq, Prod.mk.injEq] at hrun
    obtain ⟨herr, hgas, hnonce⟩ := hrun
    refine ⟨res, addr, evm', hcreate, herr, hgas, hnonce.trans ?_⟩
    decide
  · cases hrun

/-- Code that is not valid: the nonce stays counted up, everything else is as before. -/
theorem invalid_code_without_effect : ∃ res addr evm',
    creates byzantium [0xfe] 0 = .ok (res, addr, evm') ∧ res.err = some (.invalidOpcode 0xfe) ∧
      res.leftOverGas = 0 ∧ State.StateDB.SameView Memory.lawful
        (numbered Memory.opened Memory.sampleAddr) evm'.db := by
  have hrun : (match creates byzantium [0xfe] 0 with
      | .ok (res, _, _) => some (res.err, res.leftOverGas)
      | .error _ => none) = some (some (.invalidOpcode 0xfe), 0) := by decide
  split at hrun
  · next res addr evm' hcreate =>
    simp only [Option.some.injEq, Prod.mk.injEq] at hrun
    obtain ⟨herr, hgas⟩ := hrun
    have hpays : ¬ Refused (fresh Memory.opened) Memory.sampleAddr (some 0) := by
      rintro (hdeep | ⟨v, hv, hlt⟩)
      · exact absurd hdeep (by decide)
      · cases hv
        exact absurd hlt (by decide)
    have hreach : State.StateDB.Reachable Memory.lawful true
        (fresh Memory.opened).db := Memory.opened_reachable true
    have hfailed := (failed_call_without_effect Memory.lawful_collisionFree hreach byzantium 1).2
      _ _ _ _ _ _ _ hcreate (by rw [herr]; exact Option.some_ne_none _)
    exact ⟨res, addr, evm', hcreate, herr, hgas, (hfailed.2 hpays (.inl (by decide))).1⟩
  · cases hrun

/-- Code that calls an account which is not there and then stores something. -/
def callThenStore : Bytes :=
  [0x60, 0, 0x60, 0, 0x60, 0, 0x60, 0, 0x60, 0, 0x60, 7, 0x60, 0, 0xf1, 0x60, 1, 0x55]

/-- A state with a contract of that code. -/
def callsAndStores : State.StateDB Memory.backend :=
  Memory.opened.setCode Memory.sampleAddr callThenStore

theorem callsAndStores_reachable :
    State.StateDB.Reachable Memory.lawful true (fresh callsAndStores).db :=
  ⟨Memory.opened, [.setCode Memory.sampleAddr callThenStore],
    Memory.opened_opened,
    .cons trivial ⟨Memory.lawful_known _, trivial, not_not.mpr Memory.clean_empty⟩ rfl
      .nil,
    not_not.mpr Memory.clean_empty⟩

/-- The store is refused in a static call. -/
theorem static_call_refuses_store : ∃ res evm',
    (Evm.calls byzantium 20).staticCall (.account (bytesToAddress [])) Memory.sampleAddr []
      100000 (fresh callsAndStores) = .ok (res, evm') ∧ res.err = some .writeProtection ∧
        QuietView callsAndStores evm'.db := by
  have hrun : (match (Evm.calls byzantium 20).staticCall (.account (bytesToAddress []))
        Memory.sampleAddr [] 100000 (fresh callsAndStores) with
      | .ok (res, _) => res.err
      | .error _ => none) = some .writeProtection := by decide
  split at hrun
  · next res evm' hcall =>
    exact ⟨res, evm', hcall, hrun,
      (static_call_writes_nothing Memory.lawful_collisionFree (by decide) callsAndStores_reachable
        hcall).1⟩
  · cases hrun

/-- The address of the precompiled contract that copies data. -/
def dataCopyAddr : Address := bytesToAddress [4]

/-- The order of a loop over the changes of that account, one slot among them. -/
def slotOrder : Order := ⟨[dataCopyAddr], fun _ => [Hash.zero]⟩

/-- A slot of the account has been set. -/
def slotSet : State.StateDB Memory.backend :=
  Memory.opened.setState dataCopyAddr Hash.zero (Memory.keccak [])

/-- The account, which has nothing else, has been deleted as an empty one. -/
def cleared : State.StateDB Memory.backend := (slotSet.finalise true slotOrder).getD Memory.opened

/-- Code that calls the precompiled contract and then fails. -/
def callThenFail : Bytes :=
  [0x60, 0, 0x60, 0, 0x60, 0, 0x60, 0, 0x60, 0, 0x60, 4, 0x61, 0xff, 0xff, 0xf1, 0xfe]

/-- The deleted object has been written, and there is a contract of that code. -/
def covered : State.StateDB Memory.backend :=
  (((cleared.commit false slotOrder).map Prod.snd).getD Memory.opened).setCode Memory.sampleAddr
    callThenFail

theorem coversStorage_slotOrder {s : State.StateDB Memory.backend}
    (hs : ∀ a, a ≠ dataCopyAddr → s.stateObjects a = none)
    (hdirty : (s.stateObjects dataCopyAddr).map StateObject.dirtyStorage =
      some (Function.update (fun _ => none) Hash.zero (some (Memory.keccak [])))) :
    s.CoversStorage slotOrder := by
  intro a o ho
  by_cases ha : a = dataCopyAddr
  · subst ha
    rw [ho] at hdirty
    rw [Option.some.inj hdirty]
    refine Memory.enumerates_single rfl fun key hkey => ?_
    rw [Function.update_of_ne hkey]
    exact Bool.false_ne_true
  · cases (hs a ha).symm.trans ho

theorem run_covered : State.StateDB.Run (fun _ _ => True) Memory.opened
    [.setState dataCopyAddr Hash.zero (Memory.keccak []), .finalise true slotOrder,
      .commit false slotOrder, .setCode Memory.sampleAddr callThenFail] covered := by
  have hset : ∀ a, a ≠ dataCopyAddr → slotSet.stateObjects a = none := fun a ha =>
    (Function.update_of_ne ha ..).trans (Function.update_of_ne ha ..)
  have hcleared : ∀ a, a ≠ dataCopyAddr → cleared.stateObjects a = none := fun a ha =>
    (Function.update_of_ne ha ..).trans (hset a ha)
  have hdirties : slotSet.CoversDirties slotOrder := by
    refine ⟨Memory.enumerates_single (by decide) fun a ha => ?_,
      coversStorage_slotOrder hset rfl⟩
    have hzero : slotSet.journal.dirties a = 0 :=
      (Function.update_of_ne ha ..).trans (Function.update_of_ne ha ..)
    rw [hzero]
    exact Nat.lt_irrefl 0
  have hobjects : cleared.CoversObjects slotOrder := by
    refine ⟨Memory.enumerates_single rfl fun a ha => ?_, coversStorage_slotOrder hcleared rfl⟩
    rw [hcleared a ha]
    exact Bool.false_ne_true
  have hsome : (cleared.commit false slotOrder).isSome = true := by decide +kernel
  have hcommit : cleared.step (.commit false slotOrder) =
      some (((cleared.commit false slotOrder).map Prod.snd).getD Memory.opened) := by
    obtain ⟨p, hp⟩ := Option.isSome_iff_exists.mp hsome
    rw [StateDB.step, hp]
    rfl
  exact .cons trivial trivial rfl <| .cons hdirties trivial rfl <| .cons hobjects trivial hcommit <|
    .cons trivial trivial rfl .nil

/-- With both values of the flag in one run a static call changes storage: `Finalise(true)` deletes
the account of a precompiled contract, `Commit(false)` writes its deleted object back into the trie,
and the revert of the call that has created it anew uncovers the slot in the trie. -/
theorem static_call_uncovers_slot : State.StateDB.Run (fun _ _ => True) Memory.opened
      [.setState dataCopyAddr Hash.zero (Memory.keccak []), .finalise true slotOrder,
        .commit false slotOrder, .setCode Memory.sampleAddr callThenFail] covered ∧
    Memory.Clean covered.db ∧
    ∃ res evm', (Evm.calls byzantium 20).staticCall (.account (bytesToAddress []))
        Memory.sampleAddr [] 100000 (fresh covered) = .ok (res, evm') ∧
      res.err = some (.invalidOpcode 0xfe) ∧
      (covered.getState dataCopyAddr Hash.zero).1 = Hash.zero ∧
      (evm'.db.getState dataCopyAddr Hash.zero).1 = Memory.keccak [] ∧
      Memory.keccak [] ≠ Hash.zero := by
  have hslot : (match (Evm.calls byzantium 20).staticCall (.account (bytesToAddress []))
        Memory.sampleAddr [] 100000 (fresh covered) with
      | .ok (res, evm') => some (res.err, (evm'.db.getState dataCopyAddr Hash.zero).1)
      | .error _ => none) = some (some (.invalidOpcode 0xfe), Memory.keccak []) := by decide +kernel
  refine ⟨run_covered, Memory.clean_of_check (by decide +kernel), ?_⟩
  split at hslot
  · next res evm' hcall =>
    obtain ⟨herr, hvalue⟩ := Prod.mk.inj (Option.some.inj hslot)
    exact ⟨res, evm', hcall, herr, by decide +kernel, hvalue, by decide⟩
  · cases hslot

end Sample

end Geth.Vm
