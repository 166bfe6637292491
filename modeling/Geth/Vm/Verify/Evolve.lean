import Geth.Vm.Verify.Gas
import Geth.Vm.Verify.Track

/-!
# Every run has an effect

A round of the loop has an effect on the session behind the database, if the calls have. So, by
induction on the rounds to go, have all runs and calls. The depth and the `readOnly` flag come back
as they were; an account is destroyed only if the trace of the run has `SELFDESTRUCT`.
-/

namespace Geth.Vm

open State Function List

/-! ## Around an operation -/

section Frame

variable {S : Type}

theorem dispatch_evm (operation : Operation S) (res : Bytes) (err : Option VmErr) (m : Machine S) :
    ∃ returnData, (operation.dispatch res err m).machine.evm =
      { m.evm with returnData := returnData } := by
  refine ⟨if operation.returns then res else m.evm.returnData, ?_⟩
  simp only [Operation.dispatch]
  cases operation.returns <;> cases err <;> cases operation.reverts <;> cases operation.halts <;>
    cases operation.jumps <;> rfl

theorem dispatch_stack (operation : Operation S) (res : Bytes) (err : Option VmErr)
    (m : Machine S) : (operation.dispatch res err m).machine.stack = m.stack := by
  simp only [Operation.dispatch]
  cases operation.returns <;> cases err <;> cases operation.reverts <;> cases operation.halts <;>
    cases operation.jumps <;> rfl

theorem useGas_value (c : Contract) (gas : UInt64) : ((c.useGas gas).getD c).value = c.value := by
  rw [Contract.useGas]
  split <;> rfl

theorem writes_of_allowed {env : Env} {m : Machine S} {operation : Operation S} {op : UInt8}
    (h : enforceRestrictions env m.evm.readOnly op operation m.stack = .ok none)
    (hstatic : (env.isByzantium && m.evm.readOnly) = true) : operation.writes = false ∧
      (op = 0xf1 → ∀ value, m.stack[2]? = some value → value = 0) := by
  obtain ⟨hbyzantium, hreadOnly⟩ := Bool.and_eq_true_iff.mp hstatic
  rw [enforceRestrictions, if_pos ⟨hbyzantium, hreadOnly⟩] at h
  split at h
  · cases h
  · next hwrites =>
    refine ⟨Bool.eq_false_iff.mpr hwrites, fun hop value hvalue => ?_⟩
    rw [if_pos hop, hvalue] at h
    by_contra hne
    have hbits : bitLen value > 0 := by
      rw [bitLen, if_neg hne]
      exact Nat.succ_pos _
    simp only [if_pos hbits] at h
    cases h

end Frame

variable {S : Type} [StateDB S] {keccak : Bytes → Hash} {R : Refinement S keccak} {env : Env}
  {strict fair : Bool} {σ : Session}

/-- How the machine may change, from a session to another. The rules for static frames are followed
up if `strict` is set. -/
structure Evolves (R : Refinement S keccak) (env : Env) (strict fair : Bool) (σ : Session)
    (evm : Evm S) (σ' : Session) (evm' : Evm S) : Prop where
  rel : R.rel evm'.db σ'
  depth : evm'.depth = evm.depth
  readOnly : evm'.readOnly = evm.readOnly
  effect : ∃ ops, evm'.trace = ops ++ evm.trace ∧
    Effect keccak ⟨strict && (env.isByzantium && evm.readOnly), decide (0xff ∈ ops), fair⟩ σ σ'

section Evolves

variable {σ τ υ : Session} {evm evm₁ evm₂ : Evm S}

theorem evolves_of_effect {destructs : Bool} (hrel : R.rel evm₁.db τ)
    (hdepth : evm₁.depth = evm.depth) (hreadOnly : evm₁.readOnly = evm.readOnly)
    (htrace : evm₁.trace = evm.trace) (hdestructs : destructs = false)
    (heffect : Effect keccak ⟨strict && (env.isByzantium && evm.readOnly), destructs, fair⟩ σ τ) :
    Evolves R env strict fair σ evm τ evm₁ :=
  ⟨hrel, hdepth, hreadOnly, [], htrace,
    heffect.weaken id (fun h => by cases hdestructs.symm.trans h) id⟩

theorem Evolves.refl (hrel : R.rel evm.db σ) : Evolves R env strict fair σ evm σ evm :=
  evolves_of_effect hrel rfl rfl rfl rfl (.refl σ)

theorem Evolves.trans (h1 : Evolves R env strict fair σ evm τ evm₁)
    (h2 : Evolves R env strict fair τ evm₁ υ evm₂) : Evolves R env strict fair σ evm υ evm₂ := by
  obtain ⟨ops1, htrace1, heffect1⟩ := h1.effect
  obtain ⟨ops2, htrace2, heffect2⟩ := h2.effect
  refine ⟨h2.rel, h2.depth.trans h1.depth, h2.readOnly.trans h1.readOnly, ops2 ++ ops1, ?_, ?_⟩
  · rw [htrace2, htrace1, append_assoc]
  · rw [h1.readOnly] at heffect2
    refine .trans (heffect1.weaken id (fun h => ?_) id) (heffect2.weaken id (fun h => ?_) id)
    · exact decide_eq_true (mem_append_right _ (of_decide_eq_true h))
    · exact decide_eq_true (mem_append_left _ (of_decide_eq_true h))

theorem Evolves.after (h : Evolves R env strict fair τ evm υ evm₁)
    (heffect : Effect keccak ⟨strict && (env.isByzantium && evm.readOnly), false, fair⟩ σ τ) :
    Evolves R env strict fair σ evm υ evm₁ := by
  obtain ⟨ops, htrace, heffect'⟩ := h.effect
  exact ⟨h.rel, h.depth, h.readOnly, ops, htrace, .trans (heffect.weaken id nofun id) heffect'⟩

theorem Evolves.of_look {m : Machine S} (h : Evolves R env strict fair σ m.look.evm τ evm₁) :
    Evolves R env strict fair σ m.evm τ evm₁ :=
  ⟨h.rel, h.depth, h.readOnly, h.effect⟩

theorem Evolves.nonneg (h : Evolves R env strict fair σ evm τ evm₁) (hfair : fair = true)
    (hn : Nonneg σ) : Nonneg τ := by
  obtain ⟨ops, -, heffect⟩ := h.effect
  exact heffect.nonneg hfair hn

end Evolves

/-- The amounts that a run of the contract starts from are proper. -/
structure Proper (env : Env) (value : Int) (σ : Session) : Prop where
  nonneg : Nonneg σ
  value : 0 ≤ value
  gasPrice : 0 ≤ env.gasPrice

/-- Every run has an effect. -/
def Runner.Evolve (R : Refinement S keccak) (env : Env) (strict fair : Bool) (runner : Runner S) :
    Prop :=
  ∀ contract input evm ret contract' evm' σ,
    runner contract input evm = .ok (ret, contract', evm') → R.rel evm.db σ →
    (fair = true → Proper env contract.value σ) → ∃ σ', Evolves R env strict fair σ evm σ' evm'

/-- Every call has an effect; in a static frame, those that are allowed there. -/
structure Calls.Evolve (R : Refinement S keccak) (env : Env) (strict fair : Bool)
    (calls : Calls S) : Prop where
  call : ∀ caller addr input gas value evm res evm' σ,
    calls.call caller addr input gas value evm = .ok (res, evm') → R.rel evm.db σ →
    (fair = true → Proper env value σ) →
    ((strict && (env.isByzantium && evm.readOnly)) = true → value = 0) →
    ∃ σ', Evolves R env strict fair σ evm σ' evm'
  callCode : ∀ caller addr input gas value evm res evm' σ,
    calls.callCode caller addr input gas value evm = .ok (res, evm') → R.rel evm.db σ →
    (fair = true → Proper env value σ) → ∃ σ', Evolves R env strict fair σ evm σ' evm'
  delegateCall : ∀ parent addr input gas evm res evm' σ,
    calls.delegateCall parent addr input gas evm = .ok (res, evm') → R.rel evm.db σ →
    (fair = true → Proper env parent.value σ) → ∃ σ', Evolves R env strict fair σ evm σ' evm'
  staticCall : ∀ caller addr input gas evm res evm' σ,
    calls.staticCall caller addr input gas evm = .ok (res, evm') → R.rel evm.db σ →
    (fair = true → Proper env 0 σ) → ∃ σ', Evolves R env strict fair σ evm σ' evm'
  create : ∀ caller code gas value evm res addr evm' σ,
    calls.create caller code gas value evm = .ok (res, addr, evm') → R.rel evm.db σ →
    (fair = true → Proper env value σ) → (strict && (env.isByzantium && evm.readOnly)) = false →
    ∃ σ', Evolves R env strict fair σ evm σ' evm'

/-! ## A round of the loop -/

section Round

variable {calls : Calls S} {m m' : Machine S} {r : Ret} {σ : Session}

/-- What an operation does to the machine and to the amounts of its frame. -/
structure Advances (R : Refinement S keccak) (env : Env) (strict fair : Bool) (σ : Session)
    (m m' : Machine S) : Prop where
  evolves : ∃ σ', Evolves R env strict fair σ m.evm σ' m'.evm
  value : m'.contract.value = m.contract.value
  stack : fair = true → ∀ x ∈ m'.stack, 0 ≤ x

/-- The end of an operation that calls: the word that it pushes is proper. -/
theorem resume_evolves {st : List Int} {retOffset retSize : Int}
    {result : Except Fault (CallResult × Evm S)}
    (h : resume m st retOffset retSize result = .ok (r, m'))
    (hcall : ∀ res evm', result = .ok (res, evm') → ∃ σ', Evolves R env strict fair σ m.evm σ' evm')
    (hst : fair = true → ∀ x ∈ st, 0 ≤ x) : Advances R env strict fair σ m m' := by
  obtain ⟨res, mem, evm, hresult, -, rfl⟩ := resume_eq_ok h
  refine ⟨hcall res evm hresult, rfl, fun hf => forall_mem_cons.mpr ⟨?_, hst hf⟩⟩
  rw [CallResult.success]
  split <;> decide

variable (hcalls : calls.Evolve R env strict fair) (hrel : R.rel m.evm.db σ)
  (hfair : fair = true → m.Fair env ∧ Nonneg σ)

include hcalls hrel hfair

theorem opCall_evolves (h : opCall env calls m = .ok (r, m'))
    (hstatic : (strict && (env.isByzantium && m.evm.readOnly)) = true →
      ∀ value, m.stack[2]? = some value → value = 0) :
    Advances R env strict fair σ m m' := by
  simp only [opCall] at h
  split at h
  · next gas addr value inOffset inSize retOffset retSize st hst =>
    split at h
    · cases h
    · refine resume_evolves h (fun res evm' hcall => ?_) fun hf =>
        (hfair hf).1.rest (t := [gas, addr, value, inOffset, inSize, retOffset, retSize]) hst
      refine hcalls.call _ _ _ _ _ _ _ _ σ hcall hrel (fun hf => ?_) fun hs => ?_
      · exact ⟨(hfair hf).2, u256_nonneg _, (hfair hf).1.gasPrice⟩
      · rw [hstatic hs value (by rw [hst]; rfl)]
        rfl
  · cases h

theorem opCallCode_evolves (h : opCallCode env calls m = .ok (r, m')) :
    Advances R env strict fair σ m m' := by
  simp only [opCallCode] at h
  split at h
  · next gas addr value inOffset inSize retOffset retSize st hst =>
    split at h
    · cases h
    · refine resume_evolves h (fun res evm' hcall => ?_) fun hf =>
        (hfair hf).1.rest (t := [gas, addr, value, inOffset, inSize, retOffset, retSize]) hst
      exact hcalls.callCode _ _ _ _ _ _ _ _ σ hcall hrel fun hf =>
        ⟨(hfair hf).2, u256_nonneg _, (hfair hf).1.gasPrice⟩
  · cases h

theorem opDelegateCall_evolves (h : opDelegateCall env calls m = .ok (r, m')) :
    Advances R env strict fair σ m m' := by
  simp only [opDelegateCall] at h
  split at h
  · next gas addr inOffset inSize retOffset retSize st hst =>
    split at h
    · cases h
    · refine resume_evolves h (fun res evm' hcall => ?_) fun hf =>
        (hfair hf).1.rest (t := [gas, addr, inOffset, inSize, retOffset, retSize]) hst
      exact hcalls.delegateCall _ _ _ _ _ _ _ σ hcall hrel fun hf =>
        ⟨(hfair hf).2, (hfair hf).1.value, (hfair hf).1.gasPrice⟩
  · cases h

theorem opStaticCall_evolves (h : opStaticCall env calls m = .ok (r, m')) :
    Advances R env strict fair σ m m' := by
  simp only [opStaticCall] at h
  split at h
  · next gas addr inOffset inSize retOffset retSize st hst =>
    split at h
    · cases h
    · refine resume_evolves h (fun res evm' hcall => ?_) fun hf =>
        (hfair hf).1.rest (t := [gas, addr, inOffset, inSize, retOffset, retSize]) hst
      exact hcalls.staticCall _ _ _ _ _ _ _ σ hcall hrel fun hf =>
        ⟨(hfair hf).2, le_refl 0, (hfair hf).1.gasPrice⟩
  · cases h

theorem opCreate_evolves (h : opCreate env calls m = .ok (r, m'))
    (hstatic : (strict && (env.isByzantium && m.evm.readOnly)) = false) :
    Advances R env strict fair σ m m' := by
  simp only [opCreate] at h
  split at h
  · next value offset size st hst =>
    split at h
    · cases h
    · split at h
      · cases h
      · next res addr evm hcreate =>
        cases h
        refine ⟨hcalls.create _ _ _ _ _ _ _ _ σ hcreate hrel (fun hf => ?_) hstatic, ?_,
          fun hf => forall_mem_cons.mpr ⟨?_, (hfair hf).1.rest (t := [value, offset, size]) hst⟩⟩
        · have hvalue := (hfair hf).1.stack value (hst ▸ mem_cons_self)
          exact ⟨(hfair hf).2, hvalue, (hfair hf).1.gasPrice⟩
        · exact useGas_value _ _
        · rw [createdAddress]
          split
          · exact le_refl 0
          · split
            · exact le_refl 0
            · exact setBytes_nonneg _
  · cases h

omit hcalls hrel hfair

theorem prepare_evolves {σ₁ : Session} {m1 : Machine S} {op : UInt8} {contract : Contract}
    {size : UInt64} {last temp : UInt64} {db : S} (hm1 : m1 = m.priced last temp db)
    (hrel : R.rel m1.evm.db σ₁)
    (heffect : Effect keccak ⟨strict && (env.isByzantium && m.evm.readOnly), false, fair⟩ σ σ₁) :
    Evolves R env strict fair σ m.evm σ₁ (m1.prepare op contract size).evm := by
  subst hm1
  exact ⟨hrel, rfl, rfl, [op], rfl, heffect.weaken id nofun id⟩

theorem Operation.Role.gas {op : UInt8} {operation : Operation S} (h : operation.Role R op) :
    operation.gasCost.Tracks R (!operation.writes) := by
  cases h with
  | plain _ hgas _ => exact hgas
  | create => exact (memoryPlusGas_pure _).tracks _
  | call => exact gasCall_tracks _
  | callCode => exact gasCallCode_pure.tracks _
  | delegateCall => exact gasDelegateCall_pure.tracks _
  | staticCall => exact gasDelegateCall_pure.tracks _

theorem operation_advances (hcalls : calls.Evolve R env strict fair) {σ₁ : Session}
    {m1 m2 : Machine S}
    {op : UInt8} {operation : Operation S} {contract : Contract} {size last temp : UInt64} {db : S}
    (hm1 : m1 = m.priced last temp db) (hrel1 : R.rel m1.evm.db σ₁)
    (hfair : fair = true → m.Fair env ∧ Nonneg σ) (hrole : operation.Role R op)
    (hallowed : enforceRestrictions env m.evm.readOnly op operation m.stack = .ok none)
    (hvalue : contract.value = m.contract.value)
    (heffect : Effect keccak ⟨!operation.writes, false, fair⟩ σ σ₁)
    (hexec : operation.execute env calls (m1.prepare op contract size) = .ok (r, m2)) :
    Advances R env strict fair σ m m2 := by
  have hquiet : (strict && (env.isByzantium && m.evm.readOnly)) = true →
      (!operation.writes) = true := by
    intro hs
    rw [(writes_of_allowed hallowed (Bool.and_eq_true_iff.mp hs).2).1]
    rfl
  subst hm1
  have hfair1 : fair = true → Machine.Fair env ((m.priced last temp db).prepare op contract size) ∧
      Nonneg σ₁ := fun hf =>
    ⟨⟨(hfair hf).1.stack, hvalue ▸ (hfair hf).1.value, (hfair hf).1.gasPrice⟩,
      heffect.nonneg hf (hfair hf).2⟩
  have hprepared : Evolves R env strict fair σ m.evm σ₁
      ((m.priced last temp db).prepare op contract size).evm :=
    prepare_evolves rfl hrel1 (heffect.weaken hquiet id id)
  have hthen : Advances R env strict fair σ₁ ((m.priced last temp db).prepare op contract size) m2 →
      Advances R env strict fair σ m m2 := by
    rintro ⟨⟨σ₂, hevolves⟩, hvalue2, hstack⟩
    exact ⟨⟨σ₂, hprepared.trans hevolves⟩, hvalue2.trans hvalue, hstack⟩
  cases hrole with
  | plain hplain hgas hexecute =>
    obtain ⟨σ₂, hrel2, heffect2, hstack⟩ :=
      hexecute _ _ _ _ _ σ₁ fair hexec hrel1 hfair1
    obtain ⟨pc, stack, mem, jumpdests, db2, rfl⟩ := hplain.execute _ _ _ _ _ hexec
    refine ⟨⟨σ₂, hrel2, rfl, rfl, [op], rfl, .trans (heffect.weaken hquiet nofun id)
      (heffect2.weaken hquiet (fun hd => ?_) id)⟩, hvalue, hstack⟩
    exact decide_eq_true (mem_singleton.mpr (of_decide_eq_true hd).symm)
  | create =>
    apply hthen
    refine opCreate_evolves hcalls hrel1 hfair1 hexec (Bool.eq_false_iff.mpr fun hs => ?_)
    cases hquiet hs
  | call =>
    apply hthen
    exact opCall_evolves hcalls hrel1 hfair1 hexec fun hs =>
      (writes_of_allowed hallowed (Bool.and_eq_true_iff.mp hs).2).2 rfl
  | callCode => exact hthen (opCallCode_evolves hcalls hrel1 hfair1 hexec)
  | delegateCall => exact hthen (opDelegateCall_evolves hcalls hrel1 hfair1 hexec)
  | staticCall => exact hthen (opStaticCall_evolves hcalls hrel1 hfair1 hexec)

theorem step_evolves (hcalls : calls.Evolve R env strict fair) (hrel : R.rel m.evm.db σ)
    (hfair : fair = true → m.Fair env ∧ Nonneg σ) {next : Next S}
    (h : step env calls m = .ok next) :
    ∃ σ', Evolves R env strict fair σ m.evm σ' next.machine.evm ∧
      (fair = true → next.machine.Fair env) := by
  cases round_of_step h with
  | rejected err => exact ⟨σ, .refl hrel, fun hf => (hfair hf).1⟩
  | starved hop hallowed hgas =>
    obtain ⟨last, temp, db, rfl⟩ := (kind_of_jumpTable hop).prices _ _ _ _ _ hgas
    obtain ⟨σ₁, hrel1, heffect1⟩ :=
      (role_of_jumpTable hop).gas _ _ _ _ _ σ ⟨_, false, fair⟩ hgas hrel rfl
    refine ⟨σ₁, evolves_of_effect hrel1 rfl rfl rfl rfl (heffect1.weaken (fun hs => ?_) id id),
      fun hf => ⟨(hfair hf).1.stack, (hfair hf).1.value, (hfair hf).1.gasPrice⟩⟩
    rw [(writes_of_allowed hallowed (Bool.and_eq_true_iff.mp hs).2).1]
  | @performed operation size cost m1 m2 res err hop hstack hallowed hmem hgas hpaid hexec =>
    obtain ⟨last, temp, db, hm1⟩ := (kind_of_jumpTable hop).prices _ _ _ _ _ hgas
    have hrole : Operation.Role R _ _ := role_of_jumpTable hop
    obtain ⟨σ₁, hrel1, heffect1⟩ := hrole.gas _ _ _ _ _ σ ⟨_, false, fair⟩ hgas hrel rfl
    obtain ⟨⟨σ₂, hevolves⟩, hvalue, hstack⟩ := operation_advances hcalls hm1 hrel1 hfair hrole
      hallowed (congrArg (fun m => m.contract.value) hm1) heffect1 hexec
    refine ⟨σ₂, ?_, fun hf => ⟨?_, ?_, (hfair hf).1.gasPrice⟩⟩
    · obtain ⟨returnData, heq⟩ := dispatch_evm operation res err m2
      rw [heq]
      exact ⟨hevolves.rel, hevolves.depth, hevolves.readOnly, hevolves.effect⟩
    · rw [dispatch_stack]
      exact hstack hf
    · rw [dispatch_contract, hvalue]
      exact (hfair hf).1.value

end Round

/-! ## Calls -/

section Entry

variable {db : S} {σ σ₁ : Session} {p : Scope}

theorem canTransfer_eq (h : R.rel db σ) (addr : Address) (amount : Int) :
    (canTransfer db addr amount).1 = decide (balanceOf σ addr ≥ amount) ∧
      R.rel (canTransfer db addr amount).2 σ := by
  obtain ⟨hvalue, hrel⟩ := R.getBalance h addr
  exact ⟨congrArg (fun balance => decide (balance ≥ amount)) hvalue, hrel⟩

theorem transfer_effect (h : R.rel db σ) (sender recipient : Address) {value : Int}
    (hstatic : p.static = true → value = 0)
    (hfair : p.fair = true → 0 ≤ value ∧ value ≤ balanceOf σ sender) :
    ∃ σ', R.rel (transfer db sender recipient value) σ' ∧ Effect keccak p σ σ' :=
  ⟨_, R.addBalance (R.subBalance h sender value rfl) recipient value rfl,
    .transfer hstatic hfair rfl rfl⟩

theorem load_rel (h : R.rel db σ) (callerAddress self codeAddr : Address) (gas : UInt64)
    (value : Int) : R.rel (load db callerAddress self codeAddr gas value).2 σ :=
  (R.getCode (R.getCodeHash h codeAddr).2 codeAddr).2

theorem opened_effect {addr : Address} {exists? : Bool} {db1 : S} (h : R.rel db σ)
    (hexist : StateDB.exist db addr = (exists?, db1)) : ∃ σ',
    R.rel (if exists? then db1 else StateDB.createAccount db1 addr) σ' ∧ Effect keccak p σ σ' ∧
      ∀ a, balanceOf σ' a = balanceOf σ a := by
  obtain ⟨hvalue, hrel⟩ := R.exist h addr
  rw [hexist] at hvalue hrel
  cases exists? with
  | true => exact ⟨σ, hrel, .refl σ, fun _ => rfl⟩
  | false =>
    have hnone : σ.world.ledger.accounts addr = none := Option.isSome_eq_false_iff.mp hvalue.symm
      |> Option.isNone_iff_eq_none.mp
    refine ⟨_, R.createAccount hrel addr rfl, .opened hnone rfl, fun a => ?_⟩
    simp only [balanceOf, World.createAccount, hnone, World.change, Ledger.set]
    by_cases ha : a = addr
    · rw [ha, update_self, hnone]
      rfl
    · rw [update_of_ne ha]

theorem numbered_rel (h : R.rel db σ) (caller : Address) : ∃ σ', R.rel (numbered db caller) σ' ∧
    (p.static = false → Effect keccak p σ σ') ∧ (∀ a, balanceOf σ' a = balanceOf σ a) ∧
    σ'.world.ledger =
      (σ.world.change caller fun ac => { ac with nonce := ac.nonce + 1 }).ledger := by
  obtain ⟨hvalue, hrel⟩ := R.getNonce h caller
  have hnonce : (StateDB.getNonce db caller).1 =
      ((σ.world.ledger.accounts caller).getD .new).nonce := by
    rw [hvalue]
    cases σ.world.ledger.accounts caller <;> rfl
  obtain ⟨σ', hstep⟩ : ∃ σ', σ.step keccak
      (.setNonce caller ((StateDB.getNonce db caller).1 + 1)) = some σ' := ⟨_, rfl⟩
  refine ⟨σ', R.setNonce hrel caller _ hstep, fun hs => .write (.setNonce _ _) trivial hs hstep,
    balanceOf_write (.setNonce _ _) trivial hstep, ?_⟩
  rw [hnonce] at hstep
  cases hstep
  rfl

theorem collides_rel (env : Env) (h : R.rel db σ) (addr : Address) :
    R.rel (collides env db addr).2 σ :=
  (R.getNonce (R.getCodeHash h addr).2 addr).2

theorem created_effect (env : Env) (h : R.rel db σ) (caller addr : Address) {value : Int}
    (hstatic : p.static = false)
    (hfair : p.fair = true → 0 ≤ value ∧ value ≤ balanceOf σ caller) :
    ∃ σ', R.rel (created env db caller addr value) σ' ∧ Effect keccak p σ σ' := by
  have hquiet : p.static = true → value = 0 := fun hs => by cases hstatic.symm.trans hs
  obtain ⟨σ₁, hcreate⟩ : ∃ σ₁, σ.step keccak (.createAccount addr) = some σ₁ := ⟨_, rfl⟩
  obtain ⟨σ₂, hnonce⟩ : ∃ σ₂, σ₁.step keccak (.setNonce addr 1) = some σ₂ := ⟨_, rfl⟩
  have hrel1 := R.createAccount h addr hcreate
  have hbalance1 := balanceOf_createAccount hcreate caller
  have heffect1 : Effect keccak p σ σ₁ := .write (.createAccount addr) trivial hstatic hcreate
  rw [created]
  cases env.isEIP158 with
  | true =>
    have hrel2 := R.setNonce hrel1 addr 1 hnonce
    have hbalance2 := balanceOf_write (.setNonce addr 1) trivial hnonce caller
    obtain ⟨σ', hrel', heffect⟩ := transfer_effect (p := p) hrel2 caller addr hquiet fun hf => by
      rw [hbalance2, hbalance1]
      exact hfair hf
    exact ⟨σ', hrel', heffect1.trans
      (.trans (.write (.setNonce addr 1) trivial hstatic hnonce) heffect)⟩
  | false =>
    obtain ⟨σ', hrel', heffect⟩ := transfer_effect (p := p) hrel1 caller addr hquiet fun hf => by
      rw [hbalance1]
      exact hfair hf
    exact ⟨σ', hrel', heffect1.trans heffect⟩

theorem snapshot_rel (h : R.rel db σ) : ∃ σ₁, σ.step keccak .snapshot = some σ₁ ∧
    (StateDB.snapshot db).1 = σ.nextId ∧ R.rel (StateDB.snapshot db).2 σ₁ :=
  ⟨_, rfl, R.snapshot h rfl⟩

end Entry

section Settled

variable {snapshot : Nat} {runner : Runner S} {contract : Contract} {input : Bytes}
  {evm evm₁ evm' : Evm S} {res : CallResult} {σ σ₁ σ₂ : Session}

theorem revert_evolves {db : S} {σ3 : Session} (hsaved : ∀ r ∈ σ.saved, r.1 < σ.nextId)
    (hid : snapshot = σ.nextId) (hσ₁ : σ.step keccak .snapshot = some σ₁)
    (h : Evolves R env strict fair σ₁ evm σ3 evm₁)
    (hrevert : StateDB.revertToSnapshot evm₁.db snapshot = some db) :
    ∃ σ', Evolves R env strict fair σ evm σ' { evm₁ with db := db } ∧
      σ'.world.ledger = σ.world.ledger := by
  obtain ⟨ops, htrace, heffect⟩ := h.effect
  obtain ⟨db', hdb', hrel⟩ :=
    R.revertToSnapshot h.rel σ.nextId (heffect.revertToSnapshot hsaved hσ₁)
  rw [← hid, hrevert] at hdb'
  cases hdb'
  exact ⟨_, ⟨hrel, h.depth, h.readOnly, ops, htrace, .reverted hσ₁ heffect⟩, rfl⟩

variable (hrun : runner.Evolve R env strict fair) (hsaved : ∀ r ∈ σ.saved, r.1 < σ.nextId)
  (hid : snapshot = σ.nextId) (hσ₁ : σ.step keccak .snapshot = some σ₁)
  (hentry : Evolves R env strict fair σ₁ evm σ₂ evm₁)
  (hproper : fair = true → Proper env contract.value σ₂)

include hrun hsaved hid hσ₁ hentry hproper

theorem Settled.evolves (h : Settled snapshot (runner contract input evm₁) res evm') :
    ∃ σ', Evolves R env strict fair σ evm σ' evm' ∧
      (res.err ≠ none → σ'.world.ledger = σ.world.ledger) := by
  cases h with
  | returned hresult =>
    obtain ⟨σ3, hevolves⟩ := hrun _ _ _ _ _ _ σ₂ hresult hentry.rel hproper
    exact ⟨σ3, (hentry.trans hevolves).after (.snapshot hσ₁), fun herr => absurd rfl herr⟩
  | reverted hresult hrevert =>
    obtain ⟨σ3, hevolves⟩ := hrun _ _ _ _ _ _ σ₂ hresult hentry.rel hproper
    obtain ⟨σ', hevolves', hledger⟩ :=
      revert_evolves hsaved hid hσ₁ (hentry.trans hevolves) hrevert
    exact ⟨σ', hevolves', fun _ => hledger⟩

theorem Stored.evolves {addr : Address}
    (hstatic : (strict && (env.isByzantium && evm.readOnly)) = false)
    (h : Stored env snapshot addr (runner contract input evm₁) res evm') :
    ∃ σ', Evolves R env strict fair σ evm σ' evm' ∧
      (res.err ≠ none → env.isHomestead = true ∨ res.err ≠ some .codeStoreOutOfGas →
        σ'.world.ledger = σ.world.ledger) := by
  have hran : ∀ {ret contract' evm₂}, runner contract input evm₁ = .ok (ret, contract', evm₂) →
      ∃ σ3, Evolves R env strict fair σ₁ evm σ3 evm₂ := by
    intro ret contract' evm₂ hresult
    obtain ⟨σ3, hevolves⟩ := hrun _ _ _ _ _ _ σ₂ hresult hentry.rel hproper
    exact ⟨σ3, hentry.trans hevolves⟩
  cases h with
  | @stored ret _ _ evm₂ hresult hgas =>
    obtain ⟨σ3, hevolves⟩ := hran hresult
    have hcode : σ3.step keccak (.setCode addr ret) = some _ := rfl
    refine ⟨_, (hevolves.after (.snapshot hσ₁)).trans (evolves_of_effect
      (R.setCode hevolves.rel addr ret hcode) rfl rfl rfl rfl
      (.write (.setCode addr ret) trivial ?_ hcode)), fun herr => absurd rfl herr⟩
    rw [hevolves.readOnly]
    exact hstatic
  | kept hresult hfrontier =>
    obtain ⟨σ3, hevolves⟩ := hran hresult
    refine ⟨σ3, hevolves.after (.snapshot hσ₁), fun _ hnot => ?_⟩
    rcases hnot with hhomestead | herr
    · cases hfrontier.symm.trans hhomestead
    · exact absurd rfl herr
  | reverted hresult hrevert =>
    obtain ⟨σ3, hevolves⟩ := hran hresult
    obtain ⟨σ', hevolves', hledger⟩ := revert_evolves hsaved hid hσ₁ hevolves hrevert
    exact ⟨σ', hevolves', fun _ _ => hledger⟩

end Settled

theorem enter_evolves (evm : Evm S) (caller : ContractRef) {db : S} {τ : Session}
    (hrel : R.rel db τ)
    (heffect : Effect keccak ⟨strict && (env.isByzantium && evm.readOnly), false, fair⟩ σ τ) :
    Evolves R env strict fair σ evm τ ({ evm with db := db }.enter caller) := by
  cases caller <;> exact evolves_of_effect hrel rfl rfl rfl rfl heffect

theorem loaded_evolves (evm : Evm S) {db : S} (hrel : R.rel db σ) :
    Evolves R env strict fair σ evm σ { evm with db := db } :=
  evolves_of_effect hrel rfl rfl rfl rfl (.refl σ)

theorem Proper.effect {p : Scope} {value : Int} {τ : Session} (h : Proper env value σ)
    (heffect : Effect keccak p σ τ) (hfair : p.fair = true) : Proper env value τ :=
  ⟨heffect.nonneg hfair h.nonneg, h.value, h.gasPrice⟩

/-- A call that is not made leaves the session as it is. -/
theorem Called.evolves {evm evm' : Evm S} {caller : Address} {value : Option Int}
    {gas : UInt64} {Ran : S → CallResult → Evm S → Prop} {res : CallResult} {P : Session → Prop}
    (h : Called env evm caller value gas Ran res evm') (hrel : R.rel evm.db σ)
    (hσ : res.err = none ∨ evm.depth > callCreateDepth ∨
      (∃ v, value = some v ∧ balanceOf σ caller < v) → P σ)
    (hran : ∀ db, R.rel db σ → evm.depth ≤ callCreateDepth →
      (∀ v, value = some v → v ≤ balanceOf σ caller) → Ran db res evm' →
      ∃ σ', Evolves R env strict fair σ evm σ' evm' ∧ P σ') :
    ∃ σ', Evolves R env strict fair σ evm σ' evm' ∧ P σ' := by
  cases h with
  | skipped => exact ⟨σ, .refl hrel, hσ (.inl rfl)⟩
  | tooDeep hdepth => exact ⟨σ, .refl hrel, hσ (.inr (.inl hdepth))⟩
  | @unfunded v hv hfunded =>
    obtain ⟨hpays, hrel1⟩ := canTransfer_eq hrel caller v
    have hlt := not_le.mp (of_decide_eq_false (hpays ▸ hfunded))
    exact ⟨σ, loaded_evolves evm hrel1, hσ (.inr (.inr ⟨v, hv, hlt⟩))⟩
  | ran hdepth hfunded h =>
    refine hran _ ?_ (not_lt.mp hdepth) (fun v hv => ?_) h
    · cases value with
      | none => exact hrel
      | some v => exact (canTransfer_eq hrel caller v).2
    · have hpays := hfunded v hv
      rw [(canTransfer_eq hrel caller v).1] at hpays
      exact of_decide_eq_true hpays

section Kinds

variable {interpreter : Runner S} {caller : ContractRef} {parent : Contract} {addr : Address}
  {input : Bytes} {gas : UInt64} {value : Int} {evm evm' : Evm S} {res : CallResult} {σ : Session}

variable (hrun : (run env interpreter).Evolve R env strict fair) (hrel : R.rel evm.db σ)

include hrun hrel

theorem call_evolves (hproper : fair = true → Proper env value σ)
    (hstatic : (strict && (env.isByzantium && evm.readOnly)) = true → value = 0)
    (h : call env interpreter caller addr input gas value evm = .ok (res, evm')) :
    ∃ σ', Evolves R env strict fair σ evm σ' evm' ∧
      (res.err ≠ none → σ'.world.ledger = σ.world.ledger) := by
  refine (called_of_call h).evolves hrel (fun _ _ => rfl) fun db hrel0 _ hpays hentered => ?_
  obtain ⟨σ₁, hσ₁, hid, hrel1⟩ := snapshot_rel hrel0
  cases hentered with
  | vacant =>
    exact ⟨σ₁, evolves_of_effect (R.exist hrel1 addr).2 rfl rfl rfl rfl (.snapshot hσ₁),
      fun herr => absurd rfl herr⟩
  | ran hexist hdb2 hsettled =>
    -- before the code runs, the account is there and the value is transferred
    obtain ⟨σ₂, hrel2, heffect2, hbalance⟩ := opened_effect
      (p := ⟨strict && (env.isByzantium && evm.readOnly), false, fair⟩) hrel1 hexist
    have hfair : fair = true → 0 ≤ value ∧ value ≤ balanceOf σ₂ caller.address := by
      refine fun hf => ⟨(hproper hf).value, ?_⟩
      rw [hbalance]
      cases hσ₁
      exact hpays value rfl
    obtain ⟨σ3, hrel3, heffect3⟩ := transfer_effect
      (p := ⟨strict && (env.isByzantium && evm.readOnly), false, fair⟩) hrel2 caller.address addr
      hstatic hfair
    rw [← hdb2] at hrel3
    have heffect := heffect2.trans heffect3
    exact hsettled.evolves hrun (R.saved_lt hrel) hid hσ₁
      (enter_evolves evm caller (load_rel hrel3 caller.address addr addr gas value) heffect)
      fun hf => (hproper hf).effect (.trans (.snapshot hσ₁) heffect) hf

theorem callCode_evolves (hproper : fair = true → Proper env value σ)
    (h : callCode env interpreter caller addr input gas value evm = .ok (res, evm')) :
    ∃ σ', Evolves R env strict fair σ evm σ' evm' ∧
      (res.err ≠ none → σ'.world.ledger = σ.world.ledger) := by
  refine (called_of_callCode h).evolves hrel (fun _ _ => rfl) fun db hrel0 _ _ hsettled => ?_
  obtain ⟨σ₁, hσ₁, hid, hrel1⟩ := snapshot_rel hrel0
  exact hsettled.evolves hrun (R.saved_lt hrel) hid hσ₁
    (enter_evolves evm caller (load_rel hrel1 caller.address caller.address addr gas value)
      (.refl σ₁))
    fun hf => (hproper hf).effect (p := ⟨true, false, fair⟩) (.snapshot hσ₁) hf

theorem delegateCall_evolves (hproper : fair = true → Proper env parent.value σ)
    (h : delegateCall env interpreter parent addr input gas evm = .ok (res, evm')) :
    ∃ σ', Evolves R env strict fair σ evm σ' evm' ∧
      (res.err ≠ none → σ'.world.ledger = σ.world.ledger) := by
  refine (called_of_delegateCall h).evolves hrel (fun _ _ => rfl) fun db hrel0 _ _ hsettled => ?_
  obtain ⟨σ₁, hσ₁, hid, hrel1⟩ := snapshot_rel hrel0
  have hproper1 : fair = true → Proper env (load (StateDB.snapshot db).2 parent.callerAddress
      parent.self addr gas parent.value).1.value σ₁ := fun hf =>
    (hproper hf).effect (p := ⟨true, false, fair⟩) (.snapshot hσ₁) hf
  exact hsettled.evolves hrun (R.saved_lt hrel) hid hσ₁
    (loaded_evolves evm (load_rel hrel1 parent.callerAddress parent.self addr gas parent.value))
    hproper1

/-- What a static call does is what static code may do, in a frame that is static and in one that is
not; the flag is restored. -/
theorem staticCall_evolves (hproper : fair = true → Proper env 0 σ)
    (h : staticCall env interpreter caller addr input gas evm = .ok (res, evm')) :
    ∃ σ', Evolves R env strict fair σ evm σ' evm' ∧
      Effect keccak ⟨strict && env.isByzantium, true, false⟩ σ σ' ∧
      (res.err ≠ none → σ'.world.ledger = σ.world.ledger) := by
  refine (called_of_staticCall h).evolves hrel (fun _ => ⟨.refl σ, fun _ => rfl⟩)
    fun db hrel0 _ _ ⟨evm₁, hevm1, hsettled⟩ => ?_
  obtain ⟨σ₁, hσ₁, hid, hrel1⟩ := snapshot_rel hrel0
  obtain ⟨σ', hevolves, hledger⟩ := hsettled.evolves hrun (R.saved_lt hrel) hid hσ₁
    (enter_evolves { evm with readOnly := true } caller
      (load_rel hrel1 caller.address addr addr gas 0) (.refl σ₁))
    fun hf => (hproper hf).effect (p := ⟨true, false, fair⟩) (.snapshot hσ₁) hf
  obtain ⟨ops, htrace, heffect⟩ := hevolves.effect
  rw [Bool.and_true] at heffect
  refine ⟨σ', ?_, heffect.weaken id (fun _ => rfl) nofun, hledger⟩
  have hweak : Effect keccak
      ⟨strict && (env.isByzantium && evm.readOnly), decide (0xff ∈ ops), fair⟩ σ σ' := by
    refine heffect.weaken (fun hs => ?_) id id
    obtain ⟨hstrict, hs⟩ := Bool.and_eq_true_iff.mp hs
    exact Bool.and_eq_true_iff.mpr ⟨hstrict, (Bool.and_eq_true_iff.mp hs).1⟩
  subst hevm1
  cases hreadOnly : evm.readOnly with
  | true =>
    exact ⟨hevolves.rel, hevolves.depth, hevolves.readOnly.trans hreadOnly.symm, ops, htrace,
      hreadOnly ▸ hweak⟩
  | false => exact ⟨hevolves.rel, hevolves.depth, hreadOnly.symm, ops, htrace, hweak⟩

/-- A `Create` that is not refused counts the caller's nonce up; that stays when the code fails, and
all else is taken back. Before Homestead an account whose code cannot be paid for stays as well. -/
theorem create_evolves {code : Bytes} (hproper : fair = true → Proper env value σ)
    (hwrites : (strict && (env.isByzantium && evm.readOnly)) = false)
    (h : create env interpreter caller code gas value evm = .ok (res, addr, evm')) :
    ∃ σ', Evolves R env strict fair σ evm σ' evm' ∧
      (evm.depth > callCreateDepth ∨ balanceOf σ caller.address < value →
        σ'.world.ledger = σ.world.ledger) ∧
      (evm.depth ≤ callCreateDepth → value ≤ balanceOf σ caller.address → res.err ≠ none →
        env.isHomestead = true ∨ res.err ≠ some .codeStoreOutOfGas →
          σ'.world.ledger = (σ.world.change caller.address fun ac =>
            { ac with nonce := ac.nonce + 1 }).ledger) := by
  refine (called_of_create h).evolves hrel (fun hσ => ⟨fun _ => rfl, fun hdepth hpays herr => ?_⟩)
    fun db hrel1 hdepth hpays hmade => ?_
  · rcases hσ with hnone | hdeep | ⟨v, hv, hlt⟩
    · exact absurd hnone herr
    · exact absurd hdepth (not_le.mpr hdeep)
    · cases hv
      exact absurd hpays (not_le.mpr hlt)
  replace hpays := hpays value rfl
  suffices hmade' : ∃ σ', Evolves R env strict fair σ evm σ' evm' ∧ (res.err ≠ none →
      env.isHomestead = true ∨ res.err ≠ some .codeStoreOutOfGas →
        σ'.world.ledger = (σ.world.change caller.address fun ac =>
          { ac with nonce := ac.nonce + 1 }).ledger) by
    obtain ⟨σ', hevolves, hledger⟩ := hmade'
    exact ⟨σ', hevolves, fun h => absurd h (not_or.mpr ⟨not_lt.mpr hdepth, not_lt.mpr hpays⟩),
      fun _ _ => hledger⟩
  obtain ⟨σ₁, hrel2, hnumber, hbalance, hledger⟩ := numbered_rel
    (p := ⟨strict && (env.isByzantium && evm.readOnly), false, fair⟩) hrel1 caller.address
  have heffect1 := hnumber hwrites
  -- the new account and the value that it is given
  have hnew : ∀ {db1 db2 contractAddr},
      collides env (numbered db caller.address) contractAddr = (false, db1) →
      created env (StateDB.snapshot db1).2 caller.address contractAddr value = db2 →
      ∃ σ₂ σ3, σ₁.step keccak .snapshot = some σ₂ ∧ R.rel db1 σ₁ ∧
        (StateDB.snapshot db1).1 = σ₁.nextId ∧ R.rel db2 σ3 ∧
        Effect keccak ⟨strict && (env.isByzantium && evm.readOnly), false, fair⟩ σ₂ σ3 := by
    intro db1 db2 contractAddr hdb1 hdb2
    have hrel3 := collides_rel env hrel2 contractAddr
    rw [hdb1] at hrel3
    obtain ⟨σ₂, hσ2, hid, hrel4⟩ := snapshot_rel hrel3
    obtain ⟨σ3, hrel5, heffect3⟩ := created_effect env
      (p := ⟨strict && (env.isByzantium && evm.readOnly), false, fair⟩) hrel4 caller.address
      contractAddr hwrites
      fun hf => by
        refine ⟨(hproper hf).value, ?_⟩
        cases hσ2
        exact hpays.trans (hbalance caller.address).ge
    exact ⟨σ₂, σ3, hσ2, hrel3, hid, hdb2 ▸ hrel5, heffect3⟩
  cases hmade with
  | collision =>
    exact ⟨σ₁, evolves_of_effect (collides_rel env hrel2 _) rfl rfl rfl rfl heffect1,
      fun _ _ => hledger⟩
  | skipped hdb1 hdb2 =>
    obtain ⟨σ₂, σ3, hσ2, -, -, hrel3, heffect3⟩ := hnew hdb1 hdb2
    exact ⟨σ3, enter_evolves evm caller hrel3
      (heffect1.trans (.trans (.snapshot hσ2) heffect3)), fun herr => absurd rfl herr⟩
  | ran hdb1 hdb2 hstored =>
    obtain ⟨σ₂, σ3, hσ2, hrel3, hid, hrel4, heffect3⟩ := hnew hdb1 hdb2
    obtain ⟨σ', hevolves, hledger'⟩ := hstored.evolves hrun (R.saved_lt hrel3) hid hσ2
      (enter_evolves evm caller hrel4 heffect3) (fun hf => (((hproper hf).effect heffect1 hf).effect
        (p := ⟨true, false, fair⟩) (.snapshot hσ2) hf).effect heffect3 hf) hwrites
    exact ⟨σ', hevolves.after heffect1, fun herr hnot => (hledger' herr hnot).trans hledger⟩

end Kinds

/-! ## The loop -/

theorem Runner.Evolve.run {interpreter : Runner S} (h : interpreter.Evolve R env strict fair) :
    (Vm.run env interpreter).Evolve R env strict fair := by
  intro contract input evm ret contract' evm' σ hrun hrel hproper
  simp only [Vm.run] at hrun
  split at hrun
  · split at hrun
    · cases hrun
    · cases hrun
      exact ⟨σ, .refl hrel⟩
  · exact h _ _ _ _ _ _ σ hrun hrel hproper

theorem Runner.Evolve.calls {interpreter : Runner S} (h : interpreter.Evolve R env strict fair) :
    (Vm.calls env interpreter).Evolve R env strict fair where
  call _ _ _ _ _ _ _ _ σ hcall hrel hproper hstatic := by
    obtain ⟨σ', hevolves, -⟩ := call_evolves h.run hrel hproper hstatic hcall
    exact ⟨σ', hevolves⟩
  callCode _ _ _ _ _ _ _ _ σ hcall hrel hproper := by
    obtain ⟨σ', hevolves, -⟩ := callCode_evolves h.run hrel hproper hcall
    exact ⟨σ', hevolves⟩
  delegateCall _ _ _ _ _ _ _ σ hcall hrel hproper := by
    obtain ⟨σ', hevolves, -⟩ := delegateCall_evolves h.run hrel hproper hcall
    exact ⟨σ', hevolves⟩
  staticCall _ _ _ _ _ _ _ σ hcall hrel hproper := by
    obtain ⟨σ', hevolves, -, -⟩ := staticCall_evolves h.run hrel hproper hcall
    exact ⟨σ', hevolves⟩
  create _ _ _ _ _ _ _ _ σ hcreate hrel hproper hstatic := by
    obtain ⟨σ', hevolves, -, -⟩ := create_evolves h.run hrel hproper hstatic hcreate
    exact ⟨σ', hevolves⟩

theorem interpret_evolve {loop : Machine S → Except Fault (Ret × Machine S)}
    (h : ∀ m ret m' σ, loop m = .ok (ret, m') → R.rel m.evm.db σ →
      (fair = true → m.Fair env ∧ Nonneg σ) → ∃ σ', Evolves R env strict fair σ m.evm σ' m'.evm) :
    (interpret loop).Evolve R env strict fair := by
  intro contract input evm ret contract' evm' σ hrun hrel hproper
  simp only [interpret] at hrun
  split at hrun
  · cases hrun
    exact ⟨σ, evolves_of_effect hrel rfl rfl rfl rfl (.refl σ)⟩
  · split at hrun
    · cases hrun
    · next hloop =>
      cases hrun
      obtain ⟨σ', hevolves⟩ := h _ _ _ σ hloop hrel fun hf =>
        ⟨⟨by rintro x ⟨⟩, (hproper hf).value, (hproper hf).gasPrice⟩, (hproper hf).nonneg⟩
      refine ⟨σ', hevolves.rel, ?_, hevolves.readOnly, hevolves.effect⟩
      rw [hevolves.depth]
      exact Nat.add_sub_cancel ..

/-- By induction on the rounds to go: a round has an effect because the calls with one round less
have. -/
theorem loop_evolves (R : Refinement S keccak) (env : Env) (strict fair : Bool) (n : Nat)
    {m m' : Machine S} {ret : Ret} (h : loop env n m = .ok (ret, m'))
    (hrel : R.rel m.evm.db σ) (hfair : fair = true → m.Fair env ∧ Nonneg σ) :
    ∃ σ', Evolves R env strict fair σ m.evm σ' m'.evm := by
  induction n generalizing m ret m' σ with
  | zero => cases h
  | succ n ih =>
    have hcalls : (calls env (interpret (loop env n)) : Calls S).Evolve R env strict fair :=
      (interpret_evolve fun _ _ _ _ hloop => ih hloop).calls
    have hrel' : R.rel m.look.evm.db σ := hrel
    have hlooked : fair = true → m.look.Fair env ∧ Nonneg σ := fun hf =>
      ⟨⟨(hfair hf).1.stack, (hfair hf).1.value, (hfair hf).1.gasPrice⟩, (hfair hf).2⟩
    simp only [loop] at h
    split at h
    · cases h
      exact ⟨σ, evolves_of_effect hrel rfl rfl rfl rfl (.refl σ)⟩
    · split at h
      · cases h
      · next hstep =>
        obtain ⟨σ₁, hevolves1, hfair1⟩ := step_evolves hcalls hrel' hlooked hstep
        obtain ⟨σ', hevolves⟩ := ih h hevolves1.rel fun hf =>
          ⟨hfair1 hf, hevolves1.nonneg hf (hfair hf).2⟩
        exact ⟨σ', (hevolves1.trans hevolves).of_look⟩
      · next hstep =>
        cases h
        obtain ⟨σ₁, hevolves1, -⟩ := step_evolves hcalls hrel' hlooked hstep
        exact ⟨σ₁, hevolves1.of_look⟩

theorem interpreter_evolve (R : Refinement S keccak) (env : Env) (strict fair : Bool) (n : Nat) :
    (Interpreter.run env n).Evolve R env strict fair :=
  interpret_evolve fun _ _ _ _ hloop => loop_evolves R env strict fair n hloop

end Geth.Vm
