import Geth.Vm.Verify.Calls
import Geth.State.Verify.Snapshot

/-!
# Gas never grows

Every round of the loop leaves the frame at most the gas that it had, also when it runs other code:
what the callee gives back is at most what it was given, and that was paid for, the stipend
included, by the frame. The proof goes by induction on the rounds to go, through the interpreter and
the five calls.
-/

namespace Geth.Vm

open Option

variable {S : Type}

/-! ## The price of a call -/

variable {gas : UInt64} {c c' : Contract} {input : Bytes}

variable {env : Env}

/-- The gas set aside for a call, on top of the base cost. -/
structure Reserves (env : Env) (m m' : Machine S) (cost : UInt64) (base : Nat) : Prop where
  cost : cost.toNat = base + m'.evm.callGasTemp.toNat
  rule : env.isEIP150 = true → m'.evm.callGasTemp.toNat ≤
    m.contract.gas.toNat - base - (m.contract.gas.toNat - base) / 64

section Prices

variable {m m' : Machine S} {size cost : UInt64}

end Prices

/-! ## Gas in a round of the loop -/

/-- The call that the operation of this byte makes in this state with this value: it is given so
much gas and leaves so much over. -/
inductive Nested (calls : Calls S) (op : UInt8) (value : Int) (evm : Evm S) (gas left : UInt64) :
    Prop
  | create {caller code ret err addr evm'} (hop : op = 0xf0)
      (h : calls.create caller code gas value evm = .ok (⟨ret, left, err⟩, addr, evm'))
  | call {caller addr input ret err evm'} (hop : op = 0xf1)
      (h : calls.call caller addr input gas value evm = .ok (⟨ret, left, err⟩, evm'))
  | callCode {caller addr input ret err evm'} (hop : op = 0xf2)
      (h : calls.callCode caller addr input gas value evm = .ok (⟨ret, left, err⟩, evm'))
  | delegateCall {parent addr input ret err evm'} (hop : op = 0xf4)
      (h : calls.delegateCall parent addr input gas evm = .ok (⟨ret, left, err⟩, evm'))
  | staticCall {caller addr input ret err evm'} (hop : op = 0xfa)
      (h : calls.staticCall caller addr input gas evm = .ok (⟨ret, left, err⟩, evm'))

/-- What the callee receives on top of the gas that is passed on: `CALL` and `CALLCODE` with a
value. -/
def stipend (op : UInt8) (value : Int) : Nat :=
  if (op = 0xf1 ∨ op = 0xf2) ∧ value ≠ 0 then callStipend.toNat else 0

/-- The calls leave over at most the gas that they are given. -/
def Calls.Bounded (calls : Calls S) : Prop :=
  ∀ op value evm gas left, Nested calls op value evm gas left → left ≤ gas

theorem resume_eq_ok {m m' : Machine S} {st : List Int} {retOffset retSize : Int} {r : Ret}
    {result : Except Fault (CallResult × Evm S)}
    (h : resume m st retOffset retSize result = .ok (r, m')) :
    ∃ res mem evm, result = .ok (res, evm) ∧ r = (res.ret, none) ∧ m' = { m with
      stack := res.success :: st
      mem := mem
      contract := { m.contract with gas := m.contract.gas + res.leftOverGas }
      evm := evm } := by
  cases result with
  | error fault => cases h
  | ok p =>
    obtain ⟨res, evm⟩ := p
    simp only [resume] at h
    split at h
    · cases h
    · next mem _ =>
      cases h
      exact ⟨res, mem, evm, rfl, rfl, rfl⟩

section Operations

variable [StateDB S]

/-- The operation at the counter is paid for: its price is what its gas function asks for, and the
machine that it is run on has so much less. -/
inductive Charged (env : Env) (m : Machine S) (cost : UInt64) : Machine S → Prop
  | mk {operation : Operation S} {size : UInt64} {m₁ : Machine S}
      (hcontract : m₁.contract = m.contract)
      (hop : env.jumpTable (m.contract.getOp m.pc) = some operation)
      (hmem : operation.memoryBytes m.stack = .ok (some size))
      (hgas : operation.gasCost env m size = .ok (some cost, m₁)) (hpaid : cost ≤ m.contract.gas) :
      Charged env m cost (m₁.prepare (m.contract.getOp m.pc)
        { m₁.contract with gas := m₁.contract.gas - cost } size)

/-- What a round of the loop does to the gas of its frame. The sums are those of natural numbers, so
none of them wraps, and an operation that runs other code is always a `call`. -/
inductive Spent (env : Env) (calls : Calls S) (m : Machine S) : Next S → Prop
  /-- No operation is run, and no gas is taken. -/
  | refused {err : VmErr} {m' : Machine S} (hafter : m'.contract.gas = m.contract.gas) :
      Spent env calls m (.stop ([], some err) m')
  /-- It takes the price of the operation. -/
  | cost {cost : UInt64} {prepared : Machine S} {next : Next S}
      (hop : m.contract.getOp m.pc ∉ callOps) (hcharged : Charged env m cost prepared)
      (hafter : next.machine.contract.gas.toNat = m.contract.gas.toNat - cost.toNat) :
      Spent env calls m next
  /-- It takes the base price, passes gas on, which the callee receives together with the stipend,
  and gets back what the callee leaves over. What is passed on is part of the price, except in
  `CREATE`, which takes it afterwards. -/
  | call {cost : UInt64} {prepared : Machine S} {next : Next S} (value : Int) (base passed : Nat)
      (received returned : UInt64) (hcharged : Charged env m cost prepared)
      (hcost : cost.toNat = base + if m.contract.getOp m.pc = 0xf0 then 0 else passed)
      (hpaid : base + passed ≤ m.contract.gas.toNat)
      (hnested : Nested calls (m.contract.getOp m.pc) value prepared.evm received returned)
      (hreceived : received.toNat = passed + stipend (m.contract.getOp m.pc) value)
      (hstipend : stipend (m.contract.getOp m.pc) value ≤ base) (hreturned : returned ≤ received)
      (hafter : next.machine.contract.gas.toNat =
        m.contract.gas.toNat - base - passed + returned.toNat)
      (hrule : env.isEIP150 = true →
        passed ≤ m.contract.gas.toNat - base - (m.contract.gas.toNat - base) / 64) :
      Spent env calls m next

/-- The stipend is paid for by the base price, so a frame has no more gas after a call than
before. -/
theorem Spent.le {calls : Calls S} {m : Machine S} {next : Next S}
    (h : Spent env calls m next) : next.machine.contract.gas ≤ m.contract.gas := by
  rw [UInt64.le_iff_toNat_le]
  cases h with
  | refused hafter => exact (congrArg UInt64.toNat hafter).le
  | cost hop hcharged hafter => omega
  | call value base passed received returned hcharged hcost hpaid hnested hreceived hstipend
      hreturned hafter hrule =>
    have hreturned' := UInt64.le_iff_toNat_le.mp hreturned
    omega

variable {env : Env} {calls : Calls S} {m p p' : Machine S} {r : Ret} {cost : UInt64} {base : Nat}
variable {next : Next S}

/-- The frame has paid the base cost and the gas that it has set aside, and its operation is run on
the machine `p`. -/
structure Paid (env : Env) (m : Machine S) (cost : UInt64) (base passed : Nat) (p : Machine S) :
    Prop where
  charged : Charged env m cost p
  cost : cost.toNat = base + if m.contract.getOp m.pc = 0xf0 then 0 else passed
  paid : base + passed ≤ m.contract.gas.toNat
  rule : env.isEIP150 = true →
    passed ≤ m.contract.gas.toNat - base - (m.contract.gas.toNat - base) / 64

theorem Reserves.paid {m₁ : Machine S} (h : Reserves env m m₁ cost base)
    (hcharged : Charged env m cost p) (hop : m.contract.getOp m.pc ≠ 0xf0)
    (hpaid : cost ≤ m.contract.gas) (hevm : p.evm.callGasTemp = m₁.evm.callGasTemp) :
    Paid env m cost base p.evm.callGasTemp.toNat p := by
  have hcost := h.cost
  rw [hevm]
  refine ⟨hcharged, ?_, ?_, h.rule⟩
  · rw [if_neg hop, hcost]
  · exact hcost ▸ UInt64.le_iff_toNat_le.mp hpaid

theorem Paid.frame (h : Paid env m cost base p.evm.callGasTemp.toNat p)
    (hop : m.contract.getOp m.pc ≠ 0xf0) :
    p.contract.gas.toNat = m.contract.gas.toNat - (base + p.evm.callGasTemp.toNat) := by
  obtain ⟨hcharged, hcost, -, -⟩ := h
  rw [if_neg hop] at hcost
  cases hcharged with
  | mk hcontract _ _ _ hpaid =>
    rw [← hcost, ← UInt64.toNat_sub_of_le _ _ hpaid, ← hcontract]
    rfl

theorem Paid.received (h : Paid env m cost base p.evm.callGasTemp.toNat p) (value : Int)
    (hop : m.contract.getOp m.pc = 0xf1 ∨ m.contract.getOp m.pc = 0xf2)
    (hvalue : value ≠ 0 → callValueTransferGas.toNat ≤ base) :
    (callGasWithStipend p.evm value).toNat =
        p.evm.callGasTemp.toNat + stipend (m.contract.getOp m.pc) value ∧
      stipend (m.contract.getOp m.pc) value ≤ base := by
  rw [callGasWithStipend, stipend]
  split
  · next hne =>
    have htransfer : callValueTransferGas.toNat = 9000 := rfl
    have hstipend : callStipend.toNat = 2300 := rfl
    have hpaid := h.paid
    have hlt := m.contract.gas.toNat_lt
    rw [if_pos ⟨hop, hne⟩]
    refine ⟨?_, by omega⟩
    rw [UInt64.toNat_add, Nat.mod_eq_of_lt]
    omega
  · next hzero => exact ⟨by rw [if_neg fun h => hzero h.2]; rfl, by simp [hzero]⟩

section Called

variable (hbounded : calls.Bounded) (hp : Paid env m cost base p.evm.callGasTemp.toNat p)

include hbounded hp

variable (hafter : next.machine.contract.gas = p'.contract.gas)
include hafter

end Called

end Operations

/-! ## Running a contract -/

theorem useGas_eq_some (h : c.useGas gas = some c') :
    gas ≤ c.gas ∧ c' = { c with gas := c.gas - gas } := by
  rw [Contract.useGas] at h
  split at h
  · cases h
  · next hlt =>
    cases h
    exact ⟨UInt64.not_lt.mp hlt, rfl⟩

/-- The runner leaves the contract at most the gas that it had. -/
def Runner.Bounded (runner : Runner S) : Prop :=
  ∀ contract input evm ret contract' evm',
    runner contract input evm = .ok (ret, contract', evm') → contract'.gas ≤ contract.gas

theorem useGas_le (h : c.useGas gas = some c') : c'.gas ≤ c.gas := by
  obtain ⟨hle, rfl⟩ := useGas_eq_some h
  rw [UInt64.le_iff_toNat_le, UInt64.toNat_sub_of_le _ _ hle]
  omega

theorem leftOver_le (c : Contract) (err : VmErr) : c.leftOver err ≤ c.gas := by
  rw [Contract.leftOver]
  split
  · exact UInt64.le_refl _
  · cases huse : c.useGas c.gas with
    | none => exact UInt64.le_refl _
    | some c' => exact useGas_le huse

theorem runPrecompiledContract_le {crypto : Crypto} {p : Precompile} {ret : Ret}
    (h : runPrecompiledContract crypto p input c = .ok (ret, c')) :
    c'.gas ≤ c.gas := by
  simp only [runPrecompiledContract] at h
  split at h
  · cases h
  · split at h
    · cases h
      exact UInt64.le_refl _
    · next huse =>
      split at h
      · cases h
      · cases h
        exact useGas_le huse

theorem Runner.Bounded.run {interpreter : Runner S} (h : interpreter.Bounded) :
    (run env interpreter).Bounded := by
  intro contract input evm ret contract' evm' hrun
  simp only [Vm.run] at hrun
  split at hrun
  · split at hrun
    · cases hrun
    · next hp =>
      cases hrun
      exact runPrecompiledContract_le hp
  · exact h _ _ _ _ _ _ hrun

theorem dispatch_contract (operation : Operation S) (res : Bytes) (err : Option VmErr)
    (m : Machine S) : (operation.dispatch res err m).machine.contract = m.contract := by
  simp only [Operation.dispatch]
  cases operation.returns <;> cases err <;> cases operation.reverts <;> cases operation.halts <;>
    cases operation.jumps <;> rfl

variable [StateDB S] {res : CallResult}

/-- What a round of the loop does. -/
inductive Round (env : Env) (calls : Calls S) (m : Machine S) : Next S → Prop
  /-- There is no such operation, or it must not be run here. -/
  | rejected (err : VmErr) : Round env calls m (.stop ([], some err) m)
  /-- The operation cannot be paid for. -/
  | starved {operation : Operation S} {size : UInt64} {cost : Option UInt64} {m₁ : Machine S}
      (hop : env.jumpTable (m.contract.getOp m.pc) = some operation)
      (hallowed : enforceRestrictions env m.evm.readOnly (m.contract.getOp m.pc) operation
        m.stack = .ok none)
      (hgas : operation.gasCost env m size = .ok (cost, m₁)) :
      Round env calls m (.stop ([], some .outOfGas) m₁)
  /-- The operation is paid for and run. -/
  | performed {operation : Operation S} {size cost : UInt64} {m₁ m₂ : Machine S} {res : Bytes}
      {err : Option VmErr}
      (hop : env.jumpTable (m.contract.getOp m.pc) = some operation)
      (hstack : operation.validateStack m.stack = none)
      (hallowed : enforceRestrictions env m.evm.readOnly (m.contract.getOp m.pc) operation
        m.stack = .ok none)
      (hmem : operation.memoryBytes m.stack = .ok (some size))
      (hgas : operation.gasCost env m size = .ok (some cost, m₁))
      (hpaid : cost ≤ m₁.contract.gas)
      (hexec : operation.execute env calls (m₁.prepare (m.contract.getOp m.pc)
        { m₁.contract with gas := m₁.contract.gas - cost } size) = .ok ((res, err), m₂)) :
      Round env calls m (operation.dispatch res err m₂)

theorem round_of_step {calls : Calls S} {m : Machine S} {next : Next S}
    (h : step env calls m = .ok next) : Round env calls m next := by
  simp only [step] at h
  split at h
  · cases h
    exact .rejected _
  · next operation hop =>
    split at h
    · cases h
      exact .rejected _
    · next hstack =>
      split at h
      · cases h
      · cases h
        exact .rejected _
      · next hallowed =>
        split at h
        · cases h
        · cases h
          exact .rejected _
        · next size hmem =>
          split at h
          · cases h
          · next cost m₁ hgas =>
            split at h
            · cases h
              exact .starved hop hallowed hgas
            · next contract huse =>
              obtain ⟨cost, rfl, huse⟩ := bind_eq_some_iff.mp huse
              obtain ⟨hpaid, rfl⟩ := useGas_eq_some huse
              split at h
              · cases h
              · next res err m₂ hexec =>
                cases h
                exact .performed hop hstack hallowed hmem hgas hpaid hexec

theorem Settled.le {snapshot : Nat} {runner : Runner S} (hbounded : runner.Bounded)
    {contract : Contract} {evm evm' : Evm S}
    (h : Settled snapshot (runner contract input evm) res evm') :
    res.leftOverGas ≤ contract.gas := by
  cases h with
  | returned hrun => exact hbounded _ _ _ _ _ _ hrun
  | reverted hrun hrevert =>
    exact UInt64.le_trans (leftOver_le _ _) (hbounded _ _ _ _ _ _ hrun)

theorem Stored.le {snapshot : Nat} {addr : Address} {runner : Runner S}
    (hbounded : runner.Bounded) {contract : Contract} {evm evm' : Evm S}
    (h : Stored env snapshot addr (runner contract input evm) res evm') :
    res.leftOverGas ≤ contract.gas := by
  cases h with
  | stored hrun hgas => exact UInt64.le_trans (useGas_le hgas) (hbounded _ _ _ _ _ _ hrun)
  | kept hrun hfrontier => exact hbounded _ _ _ _ _ _ hrun
  | reverted hrun hrevert =>
    exact UInt64.le_trans (leftOver_le _ _) (hbounded _ _ _ _ _ _ hrun)

theorem Called.le {evm evm' : Evm S} {caller : Address} {value : Option Int}
    {Ran : S → CallResult → Evm S → Prop} (h : Called env evm caller value gas Ran res evm')
    (hran : ∀ db, Ran db res evm' → res.leftOverGas ≤ gas) : res.leftOverGas ≤ gas := by
  cases h with
  | ran _ _ h => exact hran _ h
  | _ => exact UInt64.le_refl _

theorem Runner.Bounded.calls {interpreter : Runner S} (h : interpreter.Bounded) :
    (Vm.calls env interpreter).Bounded := by
  intro op value evm gas left hnested
  cases hnested with
  | call _ hcall =>
    refine (called_of_call hcall).le fun db hentered => ?_
    cases hentered with
    | vacant => exact UInt64.le_refl _
    | ran _ _ hsettled => exact hsettled.le h.run
  | callCode _ hcall => exact (called_of_callCode hcall).le fun _ hsettled => hsettled.le h.run
  | delegateCall _ hcall =>
    exact (called_of_delegateCall hcall).le fun _ hsettled => hsettled.le h.run
  | staticCall _ hcall =>
    exact (called_of_staticCall hcall).le fun _ ⟨_, _, hsettled⟩ => hsettled.le h.run
  | create _ hcreate =>
    refine (called_of_create hcreate).le fun db hmade => ?_
    cases hmade with
    | collision => exact UInt64.zero_le
    | skipped => exact UInt64.le_refl _
    | ran _ _ hstored => exact hstored.le h.run

/-! ## The loop -/

namespace Sample

open State

/-- Primitives that compute nothing. -/
def crypto : Crypto where
  keccak := State.Memory.keccak
  ecrecover _ := []
  sha256 _ := []
  ripemd160 _ := []
  bn256Add _ := none
  bn256ScalarMul _ := none
  bn256Pairing _ := none

/-- A block of a chain with these forks. -/
def block (chainConfig : ChainConfig) : Env where
  crypto := crypto
  chainConfig := chainConfig
  noRecursion := false
  enablePreimageRecording := false
  abort _ := false
  getHash _ := Hash.zero
  origin := bytesToAddress []
  gasPrice := 1
  coinbase := bytesToAddress []
  gasLimit := 0
  blockNumber := 1
  time := 0
  difficulty := 0

/-- A block after the Byzantium fork. -/
def byzantium : Env := block ⟨some 0, some 0, some 0, some 0, none⟩

/-- A machine before its first call. -/
def fresh {S : Type} (db : S) : Evm S where
  db := db
  depth := 0
  callGasTemp := 0
  readOnly := false
  returnData := []
  jumpdests _ := none
  loads := 0
  trace := []

end Sample

end Geth.Vm
