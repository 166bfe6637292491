import Geth.Vm.Verify.Table

/-!
# What the calls do

The ways in which each of the five calls can return. `Settled` and `Stored` say what becomes of a
run, `Called` how it is reached.
-/

namespace Geth.Vm

open State

variable {S : Type}

/-! ## The end of a call -/

theorem restoreReadOnly_eq_ok {readOnly : Bool} {result : Except Fault (CallResult × Evm S)}
    {res : CallResult} {evm' : Evm S} (h : restoreReadOnly readOnly result = .ok (res, evm')) :
    ∃ evm, result = .ok (res, evm) ∧
      evm' = if readOnly then evm else { evm with readOnly := false } := by
  cases result with
  | error fault => cases h
  | ok p =>
    cases h
    exact ⟨_, rfl, rfl⟩

variable [StateDB S]

/-- The run has returned, or its effects have been reverted. -/
inductive Settled (snapshot : Nat) (result : Except Fault (Ret × Contract × Evm S)) :
    CallResult → Evm S → Prop
  | returned {ret : Bytes} {contract : Contract} {evm : Evm S}
      (hrun : result = .ok ((ret, none), contract, evm)) :
      Settled snapshot result ⟨ret, contract.gas, none⟩ evm
  | reverted {ret : Bytes} {err : VmErr} {contract : Contract} {evm : Evm S} {db : S}
      (hrun : result = .ok ((ret, some err), contract, evm))
      (hrevert : StateDB.revertToSnapshot evm.db snapshot = some db) :
      Settled snapshot result ⟨ret, contract.leftOver err, some err⟩ { evm with db := db }

variable {snapshot : Nat} {result : Except Fault (Ret × Contract × Evm S)} {res : CallResult}
  {evm evm' : Evm S}

theorem settled_of_settle (h : settle snapshot result = .ok (res, evm')) :
    Settled snapshot result res evm' := by
  cases result with
  | error fault => cases h
  | ok p =>
    obtain ⟨⟨ret, err⟩, contract, evm⟩ := p
    cases err with
    | none =>
      cases h
      exact .returned rfl
    | some err =>
      simp only [settle] at h
      split at h
      · cases h
      · next db hrevert =>
        cases h
        exact .reverted rfl hrevert

/-- The code has been stored, or the effects of the run have been reverted. Before Homestead a code
that cannot be paid for leaves the account without code and the gas where it is. -/
inductive Stored (env : Env) (snapshot : Nat) (contractAddr : Address)
    (result : Except Fault (Ret × Contract × Evm S)) : CallResult → Evm S → Prop
  | stored {ret : Bytes} {contract contract' : Contract} {evm : Evm S}
      (hrun : result = .ok ((ret, none), contract, evm))
      (hgas : contract.useGas (UInt64.ofNat ret.length * createDataGas) = some contract') :
      Stored env snapshot contractAddr result ⟨ret, contract'.gas, none⟩
        { evm with db := StateDB.setCode evm.db contractAddr ret }
  | kept {ret : Bytes} {err : Option VmErr} {contract : Contract} {evm : Evm S}
      (hrun : result = .ok ((ret, err), contract, evm)) (hfrontier : env.isHomestead = false) :
      Stored env snapshot contractAddr result ⟨ret, contract.gas, some .codeStoreOutOfGas⟩ evm
  | reverted {ret : Bytes} {err : Option VmErr} {err' : VmErr} {contract : Contract} {evm : Evm S}
      {db : S} (hrun : result = .ok ((ret, err), contract, evm))
      (hrevert : StateDB.revertToSnapshot evm.db snapshot = some db) :
      Stored env snapshot contractAddr result ⟨ret, contract.leftOver err', some err'⟩
        { evm with db := db }

theorem stored_of_storeCode {env : Env} {addr addr' : Address}
    (h : storeCode env snapshot addr result = .ok (res, addr', evm')) :
    addr' = addr ∧ Stored env snapshot addr result res evm' := by
  cases result with
  | error fault => cases h
  | ok p =>
    obtain ⟨⟨ret, err⟩, contract, evm⟩ := p
    simp only [storeCode] at h
    split at h
    · next hok =>
      obtain ⟨rfl, hsize⟩ := hok
      cases huse : contract.useGas (UInt64.ofNat ret.length * createDataGas) with
      | some contract' =>
        simp only [huse, hsize, Bool.false_eq_true, ne_eq, not_true_eq_false, false_and, or_self,
          if_false] at h
        cases h
        exact ⟨rfl, .stored rfl huse⟩
      | none =>
        simp only [huse, hsize, Bool.false_eq_true, ne_eq, reduceCtorEq, not_false_eq_true,
          not_true_eq_false, true_and, or_false, false_or] at h
        split at h
        · split at h
          · cases h
          · next db hrevert =>
            cases h
            exact ⟨rfl, .reverted rfl hrevert⟩
        · next hfrontier =>
          cases h
          exact ⟨rfl, .kept rfl (Bool.eq_false_iff.mpr hfrontier)⟩
    · next hfailed =>
      split at h
      · split at h
        · cases h
        · next db hrevert =>
          cases h
          exact ⟨rfl, .reverted rfl hrevert⟩
      · next hkept =>
        -- the run itself has failed for want of gas for the code
        obtain ⟨hsize, hkept⟩ := not_or.mp hkept
        have hsize := Bool.eq_false_iff.mpr hsize
        have herr : err ≠ none := fun herr => hfailed ⟨herr, hsize⟩
        obtain ⟨hfrontier, herr'⟩ := not_or.mp (not_and.mp hkept herr)
        obtain rfl := not_not.mp herr'
        cases h
        exact ⟨rfl, .kept rfl (Bool.eq_false_iff.mpr hfrontier)⟩

/-! ## The five calls -/

section Kinds

variable {env : Env} {interpreter : Runner S} {caller : ContractRef} {parent : Contract}
  {addr : Address} {input : Bytes} {gas : UInt64} {value : Int}

/-- The state after the check that the caller can pay the value, if there is one to be paid. -/
def checked (db : S) (caller : Address) : Option Int → S
  | none => db
  | some value => (canTransfer db caller value).2

/-- The ways in which a call returns: it is not made, or it goes on from the state in which it has
been checked. -/
inductive Called (env : Env) (evm : Evm S) (caller : Address) (value : Option Int) (gas : UInt64)
    (Ran : S → CallResult → Evm S → Prop) : CallResult → Evm S → Prop
  | skipped (hskip : env.noRecursion = true ∧ evm.depth > 0) :
      Called env evm caller value gas Ran ⟨[], gas, none⟩ evm
  | tooDeep (hdepth : evm.depth > callCreateDepth) :
      Called env evm caller value gas Ran ⟨[], gas, some .depth⟩ evm
  | unfunded {v : Int} (hvalue : value = some v)
      (hfunded : (canTransfer evm.db caller v).1 = false) :
      Called env evm caller value gas Ran ⟨[], gas, some .insufficientBalance⟩
        { evm with db := (canTransfer evm.db caller v).2 }
  | ran {res : CallResult} {evm' : Evm S} (hdepth : ¬ evm.depth > callCreateDepth)
      (hfunded : ∀ v, value = some v → (canTransfer evm.db caller v).1 = true)
      (hran : Ran (checked evm.db caller value) res evm') :
      Called env evm caller value gas Ran res evm'

theorem called_of_funded {Ran : S → CallResult → Evm S → Prop} {addr : Address}
    (hdepth : ¬ evm.depth > callCreateDepth) (hfunded : ¬ (canTransfer evm.db addr value).1 = false)
    (hran : Ran (canTransfer evm.db addr value).2 res evm') :
    Called env evm addr (some value) gas Ran res evm' := by
  refine .ran hdepth (fun v hv => ?_) hran
  cases hv
  exact Bool.not_eq_false _ ▸ hfunded

/-- How `Call` goes on: nothing is there to be called, or the code has been run. -/
inductive Entered (env : Env) (interpreter : Runner S) (caller : ContractRef) (addr : Address)
    (input : Bytes) (gas : UInt64) (value : Int) (evm : Evm S) (db : S) :
    CallResult → Evm S → Prop
  | vacant : Entered env interpreter caller addr input gas value evm db ⟨[], gas, none⟩
      { evm with db := (StateDB.exist (StateDB.snapshot db).2 addr).2 }
  | ran {db₁ db₂ : S} {exists? : Bool} {res : CallResult} {evm' : Evm S}
      (hexist : StateDB.exist (StateDB.snapshot db).2 addr = (exists?, db₁))
      (hdb₂ : db₂ = transfer (if exists? then db₁ else StateDB.createAccount db₁ addr)
        caller.address addr value)
      (hsettled : Settled (StateDB.snapshot db).1 (run env interpreter
        (load db₂ caller.address addr addr gas value).1 input ({ evm with
          db := (load db₂ caller.address addr addr gas value).2 }.enter caller)) res evm') :
      Entered env interpreter caller addr input gas value evm db res evm'

theorem called_of_call
    (h : call env interpreter caller addr input gas value evm = .ok (res, evm')) :
    Called env evm caller.address (some value) gas
      (Entered env interpreter caller addr input gas value evm) res evm' := by
  simp only [call] at h
  split at h
  · next hskip =>
    cases h
    exact .skipped hskip
  · split at h
    · next hdepth =>
      cases h
      exact .tooDeep hdepth
    · next hdepth =>
      split at h
      · next hfunded =>
        cases h
        exact .unfunded rfl hfunded
      · next hfunded =>
        refine called_of_funded hdepth hfunded ?_
        split at h
        · cases h
          exact .vacant
        · exact .ran rfl rfl (settled_of_settle h)

theorem called_of_callCode
    (h : callCode env interpreter caller addr input gas value evm = .ok (res, evm')) :
    Called env evm caller.address (some value) gas (fun db => Settled (StateDB.snapshot db).1
      (run env interpreter
        (load (StateDB.snapshot db).2 caller.address caller.address addr gas value).1 input
        ({ evm with db := (load (StateDB.snapshot db).2 caller.address caller.address addr gas
          value).2 }.enter caller))) res evm' := by
  simp only [callCode] at h
  split at h
  · next hskip =>
    cases h
    exact .skipped hskip
  · split at h
    · next hdepth =>
      cases h
      exact .tooDeep hdepth
    · next hdepth =>
      split at h
      · next hfunded =>
        cases h
        exact .unfunded rfl hfunded
      · next hfunded => exact called_of_funded hdepth hfunded (settled_of_settle h)

theorem called_of_delegateCall
    (h : delegateCall env interpreter parent addr input gas evm = .ok (res, evm')) :
    Called env evm parent.self none gas (fun db => Settled (StateDB.snapshot db).1
      (run env interpreter (load (StateDB.snapshot db).2 parent.callerAddress parent.self addr gas
        parent.value).1 input { evm with db := (load (StateDB.snapshot db).2 parent.callerAddress
          parent.self addr gas parent.value).2 })) res evm' := by
  simp only [delegateCall] at h
  split at h
  · next hskip =>
    cases h
    exact .skipped hskip
  · split at h
    · next hdepth =>
      cases h
      exact .tooDeep hdepth
    · next hdepth => exact .ran hdepth nofun (settled_of_settle h)

theorem called_of_staticCall
    (h : staticCall env interpreter caller addr input gas evm = .ok (res, evm')) :
    Called env evm caller.address none gas (fun db res evm' => ∃ evm1,
      evm' = (if evm.readOnly then evm1 else { evm1 with readOnly := false }) ∧
      Settled (StateDB.snapshot db).1 (run env interpreter
        (load (StateDB.snapshot db).2 caller.address addr addr gas 0).1 input ({ evm with
          db := (load (StateDB.snapshot db).2 caller.address addr addr gas 0).2
          readOnly := true }.enter caller)) res evm1) res evm' := by
  simp only [staticCall] at h
  split at h
  · next hskip =>
    cases h
    exact .skipped hskip
  · split at h
    · next hdepth =>
      cases h
      exact .tooDeep hdepth
    · next hdepth =>
      obtain ⟨evm1, hsettle, rfl⟩ := restoreReadOnly_eq_ok h
      exact .ran hdepth nofun ⟨evm1, rfl, settled_of_settle hsettle⟩

/-- How `Create` goes on: the address is taken, the code is not to be run, or it has been run. -/
inductive Made (env : Env) (interpreter : Runner S) (caller : ContractRef) (code : Bytes)
    (gas : UInt64) (value : Int) (evm : Evm S) (db : S) : CallResult → Evm S → Prop
  | collision {contractAddr : Address} : Made env interpreter caller code gas value evm db
      ⟨[], 0, some .contractAddressCollision⟩
      { evm with db := (collides env (numbered db caller.address) contractAddr).2 }
  | skipped {db₁ db₂ : S} {contractAddr : Address}
      (hdb₁ : collides env (numbered db caller.address) contractAddr = (false, db₁))
      (hdb₂ : created env (StateDB.snapshot db₁).2 caller.address contractAddr value = db₂) :
      Made env interpreter caller code gas value evm db ⟨[], gas, none⟩
        ({ evm with db := db₂ }.enter caller)
  | ran {db₁ db₂ : S} {contractAddr : Address} {res : CallResult} {evm' : Evm S}
      (hdb₁ : collides env (numbered db caller.address) contractAddr = (false, db₁))
      (hdb₂ : created env (StateDB.snapshot db₁).2 caller.address contractAddr value = db₂)
      (hstored : Stored env (StateDB.snapshot db₁).1 contractAddr (run env interpreter
        ⟨caller.address, contractAddr, code, env.crypto.keccak code, contractAddr, [], gas,
          value⟩ []
        ({ evm with db := db₂ }.enter caller)) res evm') :
      Made env interpreter caller code gas value evm db res evm'

theorem called_of_create {code : Bytes}
    (h : create env interpreter caller code gas value evm = .ok (res, addr, evm')) :
    Called env evm caller.address (some value) gas
      (Made env interpreter caller code gas value evm) res evm' := by
  simp only [create] at h
  split at h
  · next hdepth =>
    cases h
    exact .tooDeep hdepth
  · next hdepth =>
    split at h
    · next hfunded =>
      cases h
      exact .unfunded rfl hfunded
    · next hfunded =>
      refine called_of_funded hdepth hfunded ?_
      split at h
      · cases h
        exact .collision
      · next hcollision =>
        rw [Bool.not_eq_true] at hcollision
        split at h
        · cases h
          exact .skipped (Prod.ext hcollision rfl) rfl
        · exact .ran (Prod.ext hcollision rfl) rfl (stored_of_storeCode h).2

end Kinds

end Geth.Vm
