import Geth.Vm.Verify.Calls
import Geth.Vm.Verify.Effect

/-!
# Operations and their effects

Every operation that does not call has an effect on the session behind the database that its flags
announce: it writes only if `writes` is set, and only `SELFDESTRUCT` destroys an account. If the
amounts on the stack, the value of the frame and the balances are not negative, the stack stays so.
-/

namespace Geth.Vm

open State List

variable {S : Type}

/-! ## Effects -/

variable [StateDB S] {keccak : Bytes → Hash} {R : Refinement S keccak}

/-- The operation has an effect within the scope. -/
def Execution.Tracks (R : Refinement S keccak) (static destructs : Bool) (e : Execution S) : Prop :=
  ∀ env calls m r m' σ fair, e env calls m = .ok (r, m') → R.rel m.evm.db σ →
    (fair = true → m.Fair env ∧ Nonneg σ) → ∃ σ', R.rel m'.evm.db σ' ∧
      Effect keccak ⟨static, destructs, fair⟩ σ σ' ∧ (fair = true → ∀ x ∈ m'.stack, 0 ≤ x)

/-- The gas function has an effect within the scope. -/
def GasFunc.Tracks (R : Refinement S keccak) (static : Bool) (g : GasFunc S) : Prop :=
  ∀ env m size cost m' σ p, g env m size = .ok (cost, m') → R.rel m.evm.db σ → p.static = static →
    ∃ σ', R.rel m'.evm.db σ' ∧ Effect keccak p σ σ'

theorem Execution.Quiet.tracks {e : Execution S} (h : e.Quiet) (static destructs : Bool) :
    e.Tracks R static destructs := by
  intro env calls m r m' σ fair he hrel hm
  obtain ⟨pc, stack, mem, jumpdests, rfl, hstack⟩ := h env calls m r m' he
  exact ⟨σ, hrel, .refl σ, fun hf => hstack (hm hf).1⟩

theorem GasFunc.Pure.tracks {g : GasFunc S} (h : g.Pure) (static : Bool) : g.Tracks R static := by
  intro env m size cost m' σ p hg hrel _
  obtain ⟨last, temp, rfl⟩ := h env m size cost m' hg
  exact ⟨σ, hrel, .refl σ⟩

/-! ### Gas -/

variable {env : Env} {op : UInt8} {operation : Operation S}

theorem chargesNewAccount_rel {db : S} {σ : Session} (h : R.rel db σ) (addr : Address)
    (transfersValue : Bool) : R.rel (chargesNewAccount env db addr transfersValue).2 σ := by
  simp only [chargesNewAccount]
  split
  · split
    · exact (R.empty h addr).2
    · exact h
  · exact (R.exist h addr).2

theorem chargesBeneficiary_rel {db : S} {σ : Session} (h : R.rel db σ) (self addr : Address) :
    R.rel (chargesBeneficiary env db self addr).2 σ := by
  have hempty := (R.empty h addr).2
  simp only [chargesBeneficiary]
  split
  · split
    · next heq =>
      rw [heq] at hempty
      exact (R.getBalance hempty self).2
    · next heq =>
      rw [heq] at hempty
      exact hempty
  · exact (R.exist h addr).2

theorem gasCall_tracks (static : Bool) : (gasCall : GasFunc S).Tracks R static := by
  intro env m size cost m' σ p h hrel _
  simp only [gasCall] at h
  split at h
  · obtain ⟨last, temp, rfl⟩ := priced_of_call h
    exact ⟨σ, chargesNewAccount_rel hrel _ _, .refl σ⟩
  · cases h

theorem gasSStore_tracks : (gasSStore : GasFunc S).Tracks R false := by
  intro env m size cost m' σ p h hrel hstatic
  simp only [gasSStore] at h
  split at h
  · next x y st hst =>
    have hget := (R.getState hrel m.contract.self (bigToHash x)).2
    split at h
    · cases h
      exact ⟨σ, hget, .refl σ⟩
    · split at h
      · cases h
        exact ⟨_, R.addRefund hget _ rfl, .write (.addRefund _) trivial hstatic rfl⟩
      · cases h
        exact ⟨σ, hget, .refl σ⟩
  · cases h

theorem gasSuicide_tracks : (gasSuicide : GasFunc S).Tracks R false := by
  intro env m size cost m' σ p h hrel hstatic
  simp only [gasSuicide] at h
  split at h
  · next beneficiary st hst =>
    obtain ⟨db, hdb, hrel'⟩ : ∃ db, (if env.isEIP150 = true then
        (env.gasTable.suicide + (if (chargesBeneficiary env m.evm.db m.contract.self
          (bigToAddress beneficiary)).1 = true then env.gasTable.createBySuicide else 0),
          (chargesBeneficiary env m.evm.db m.contract.self (bigToAddress beneficiary)).2)
        else (0, m.evm.db)).2 = db ∧ R.rel db σ := by
      refine ⟨_, rfl, ?_⟩
      split
      · exact chargesBeneficiary_rel hrel _ _
      · exact hrel
    rw [hdb] at h
    have hsuicided := (R.hasSuicided hrel' m.contract.self).2
    cases h
    cases (StateDB.hasSuicided db m.contract.self).1 with
    | true => exact ⟨σ, hsuicided, .refl σ⟩
    | false => exact ⟨_, R.addRefund hsuicided _ rfl, .write (.addRefund _) trivial hstatic rfl⟩
  · cases h

/-! ### Operations on the state -/

theorem opSha3_tracks (static destructs : Bool) :
    (opSha3 : Execution S).Tracks R static destructs := by
  intro env calls m r m' σ fair h hrel hm
  simp only [opSha3] at h
  split at h
  · next offset size st hst =>
    split at h
    · cases h
    · next data hdata =>
      cases h
      have hstack : fair = true → ∀ x ∈ setBytes (env.crypto.keccak data).val :: st, 0 ≤ x :=
        fun hf => forall_mem_cons.mpr ⟨setBytes_nonneg _, (hm hf).1.rest (t := [offset, size]) hst⟩
      cases env.enablePreimageRecording with
      | true => exact ⟨_, R.addPreimage hrel _ _ rfl, .preimage rfl, hstack⟩
      | false => exact ⟨σ, hrel, .refl σ, hstack⟩
  · cases h

theorem querying_tracks {get : S → Address → Int × S} (hget : ∀ {db σ}, R.rel db σ → ∀ addr,
      R.rel (get db addr).2 σ ∧ (Nonneg σ → 0 ≤ (get db addr).1)) (static destructs : Bool) :
    (querying get).Tracks R static destructs := by
  intro env calls m r m' σ fair h hrel hm
  simp only [querying] at h
  split at h
  · next slot st hst =>
    cases h
    obtain ⟨hrel', hvalue⟩ := hget hrel (bigToAddress slot)
    exact ⟨σ, hrel', .refl σ, fun hf => forall_mem_cons.mpr
      ⟨hvalue (hm hf).2, (hm hf).1.rest (t := [slot]) hst⟩⟩
  · cases h

theorem opBalance_tracks (static destructs : Bool) :
    (opBalance : Execution S).Tracks R static destructs := by
  apply querying_tracks
  intro db σ h addr
  obtain ⟨hvalue, hrel⟩ := R.getBalance h addr
  refine ⟨hrel, fun hn => ?_⟩
  rw [hvalue]
  exact hn.balanceOf addr

theorem opExtCodeSize_tracks (static destructs : Bool) :
    (opExtCodeSize : Execution S).Tracks R static destructs := by
  apply querying_tracks
  exact fun h addr => ⟨R.getCodeSize h addr, fun _ => Int.natCast_nonneg _⟩

theorem opExtCodeCopy_tracks (static destructs : Bool) :
    (opExtCodeCopy : Execution S).Tracks R static destructs := by
  intro env calls m r m' σ fair h hrel hm
  simp only [opExtCodeCopy] at h
  split at h
  · next addr memOffset codeOffset length st hst =>
    obtain ⟨mem, rfl⟩ := copyToMemory_moved h
    exact ⟨σ, (R.getCode hrel _).2, .refl σ, fun hf =>
      (hm hf).1.rest (t := [addr, memOffset, codeOffset, length]) hst⟩
  · cases h

theorem opSload_tracks (static destructs : Bool) :
    (opSload : Execution S).Tracks R static destructs := by
  intro env calls m r m' σ fair h hrel hm
  simp only [opSload] at h
  split at h
  · next loc st hst =>
    cases h
    exact ⟨σ, (R.getState hrel _ _).2, .refl σ, fun hf => forall_mem_cons.mpr
      ⟨setBytes_nonneg _, (hm hf).1.rest (t := [loc]) hst⟩⟩
  · cases h

theorem opSstore_tracks (destructs : Bool) : (opSstore : Execution S).Tracks R false destructs := by
  intro env calls m r m' σ fair h hrel hm
  simp only [opSstore] at h
  split at h
  · next loc val st hst =>
    cases h
    exact ⟨_, R.setState hrel _ _ _ rfl, .write (.setState _ _ _) trivial rfl rfl,
      fun hf => (hm hf).1.rest (t := [loc, val]) hst⟩
  · cases h

theorem makeLog_tracks (size : Nat) (destructs : Bool) :
    (makeLog size : Execution S).Tracks R false destructs := by
  intro env calls m r m' σ fair h hrel hm
  simp only [makeLog] at h
  split at h
  · next mStart mSize st hst =>
    split at h
    · cases h
    · split at h
      · cases h
      · cases h
        refine ⟨_, R.addLog hrel _ rfl, .write (.addLog _) trivial rfl rfl, fun hf x hx => ?_⟩
        exact (hm hf).1.rest (t := [mStart, mSize]) hst x (mem_of_mem_drop hx)
  · cases h

theorem opSuicide_tracks : (opSuicide : Execution S).Tracks R false true := by
  intro env calls m r m' σ fair h hrel hm
  simp only [opSuicide] at h
  split at h
  · next beneficiary st hst =>
    cases h
    obtain ⟨hbalance, hrel1⟩ := R.getBalance hrel m.contract.self
    obtain ⟨τ, hadd⟩ : ∃ τ, σ.step keccak (.addBalance (bigToAddress beneficiary)
        (balanceOf σ m.contract.self)) = some τ := ⟨_, rfl⟩
    have hrel2 := R.addBalance hrel1 _ _ hadd
    rw [balanceOf, ← hbalance] at hrel2
    exact ⟨_, R.suicide hrel2 _ rfl, .destruct rfl rfl hadd rfl,
      fun hf => (hm hf).1.rest (t := [beneficiary]) hst⟩
  · cases h

/-! ## The tables -/

/-- The bytes of the two opcodes that the source tells apart by their number. -/
theorem byte_of_ofByte {b : UInt8} : (OpCode.ofByte b = some .call → b = 0xf1) ∧
    (OpCode.ofByte b = some .selfdestruct → b = 0xff) := by
  have hall : ∀ i : Fin 256, (OpCode.ofByte (UInt8.ofNat i) = some .call → UInt8.ofNat i = 0xf1) ∧
      (OpCode.ofByte (UInt8.ofNat i) = some .selfdestruct → UInt8.ofNat i = 0xff) := by
    decide +kernel
  have hb := hall ⟨b.toNat, b.toNat_lt⟩
  rwa [UInt8.ofNat_toNat] at hb

/-- An entry of a table at a byte: an operation with an effect within the scope that its flags
announce, or one of the five that call. -/
inductive Operation.Role (R : Refinement S keccak) : UInt8 → Operation S → Prop
  | plain {op : UInt8} {operation : Operation S} (hplain : operation.Plain)
      (hgas : operation.gasCost.Tracks R (!operation.writes))
      (hexec : operation.execute.Tracks R (!operation.writes) (decide (op = 0xff))) :
      operation.Role R op
  | create {op : UInt8} : Operation.Role R op
      { execute := opCreate, gasCost := gasCreate, pops := 3, pushes := 1,
        memorySize := some memoryCreate, writes := true, returns := true }
  | call : Operation.Role R 0xf1
      { execute := opCall, gasCost := gasCall, pops := 7, pushes := 1,
        memorySize := some memoryCall, returns := true }
  | callCode {op : UInt8} : Operation.Role R op
      { execute := opCallCode, gasCost := gasCallCode, pops := 7, pushes := 1,
        memorySize := some memoryCall, returns := true }
  | delegateCall {op : UInt8} : Operation.Role R op
      { execute := opDelegateCall, gasCost := gasDelegateCall, pops := 6, pushes := 1,
        memorySize := some memoryDelegateCall, returns := true }
  | staticCall {op : UInt8} : Operation.Role R op
      { execute := opStaticCall, gasCost := gasStaticCall, pops := 6, pushes := 1,
        memorySize := some memoryStaticCall, returns := true }

theorem Operation.Quiet.role (h : operation.Quiet) : operation.Role R op :=
  .plain h.plain (h.gasCost.tracks _) (h.execute.tracks _ _)

theorem role_of_jumpTable (h : env.jumpTable op = some operation) : operation.Role R op := by
  refine of_jumpTable h fun code hcode => ?_
  have hquiet : ¬ code.Stateful → _ := quiet_of_constantinople (S := S)
  cases code with
  | sha3 =>
    have hgas : (gasSha3 : GasFunc S).Pure := copyGasFunc_pure _ _ _
    exact .plain ⟨opSha3_moves, hgas.prices⟩ (hgas.tracks _) (opSha3_tracks _ _)
  | balance =>
    have hgas : (gasBalance : GasFunc S).Pure := tableGas_pure _
    exact .plain ⟨querying_moves _, hgas.prices⟩ (hgas.tracks _) (opBalance_tracks _ _)
  | extCodeSize =>
    have hgas : (gasExtCodeSize : GasFunc S).Pure := tableGas_pure _
    exact .plain ⟨opExtCodeSize_moves, hgas.prices⟩ (hgas.tracks _) (opExtCodeSize_tracks _ _)
  | extCodeCopy =>
    have hgas : (gasExtCodeCopy : GasFunc S).Pure := copyGasFunc_pure _ _ _
    exact .plain ⟨opExtCodeCopy_moves, hgas.prices⟩ (hgas.tracks _) (opExtCodeCopy_tracks _ _)
  | sload =>
    have hgas : (gasSLoad : GasFunc S).Pure := tableGas_pure _
    exact .plain ⟨opSload_moves, hgas.prices⟩ (hgas.tracks _) (opSload_tracks _ _)
  | sstore =>
    exact .plain ⟨opSstore_moves, gasSStore_prices⟩ gasSStore_tracks (opSstore_tracks _)
  | log n =>
    have hgas : (makeGasLog (UInt64.ofNat n.val) : GasFunc S).Pure := makeGasLog_pure _
    exact .plain ⟨makeLog_moves _, hgas.prices⟩ (hgas.tracks _) (makeLog_tracks _ _)
  | selfdestruct =>
    obtain rfl := byte_of_ofByte.2 hcode
    exact .plain ⟨opSuicide_moves, gasSuicide_prices⟩ gasSuicide_tracks opSuicide_tracks
  | create => exact .create
  | call =>
    obtain rfl := byte_of_ofByte.1 hcode
    exact .call
  | callCode => exact .callCode
  | delegateCall => exact .delegateCall
  | staticCall => exact .staticCall
  | _ => exact Operation.Quiet.role (hquiet not_false)

end Geth.Vm
