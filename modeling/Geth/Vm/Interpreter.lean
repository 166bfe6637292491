import Geth.Vm.JumpTable
import Geth.Vm.Precompiles

/-!
# The interpreter and the calls (`core/vm/interpreter.go`, `core/vm/evm.go`)

`step` is one round of the loop of `Run`; the operations that call are given the five calls. `loop`
ties the knot: with `n + 1` rounds to go it runs an operation over the calls that have `n` rounds to
go. A run that has no rounds left stops with `outOfFuel`.
-/

namespace Geth.Vm

open State

variable {S : Type} [StateDB S]

/-! ## One round of the loop -/

def enforceRestrictions (env : Env) (readOnly : Bool) (op : UInt8) (operation : Operation S)
    (stack : List Int) : Except Fault (Option VmErr) :=
  if env.isByzantium ∧ readOnly then
    if operation.writes then .ok (some .writeProtection)
    else if op = 0xf1 then
      match stack[2]? with
      | none => .error .stack
      | some value => .ok (if bitLen value > 0 then some .writeProtection else none)
    else .ok none
  else .ok none

/-- The memory that the operation needs, in bytes of whole words; `none` is an overflow. -/
def Operation.memoryBytes (operation : Operation S) (stack : List Int) :
    Except Fault (Option UInt64) :=
  match operation.memorySize with
  | none => .ok (some 0)
  | some memorySize =>
    match memorySize stack with
    | none => .error .stack
    | some size => .ok ((bigUint64 size).bind fun size => safeMul (toWordSize size) 32)

/-- How a round of the loop ends. -/
inductive Next (S : Type) where
  /-- The loop goes on. -/
  | next (m : Machine S)
  /-- `Run` returns. -/
  | stop (ret : Ret) (m : Machine S)

/-- The machine after the round. -/
def Next.machine : Next S → Machine S
  | next m => m
  | stop _ m => m

/-- What becomes of the result of an operation. -/
def Operation.dispatch (operation : Operation S) (res : Bytes) (err : Option VmErr)
    (m : Machine S) : Next S :=
  let m := if operation.returns then { m with evm := { m.evm with returnData := res } } else m
  match err with
  | some err => .stop ([], some err) m
  | none =>
    if operation.reverts then .stop (res, some .executionReverted) m
    else if operation.halts then .stop (res, none) m
    else if operation.jumps then .next m
    else .next { m with pc := m.pc + 1 }

/-- The machine with the gas of the operation paid and the memory that it needs, after the tracer
has been shown the operation. -/
def Machine.prepare (m : Machine S) (op : UInt8) (contract : Contract) (memorySize : UInt64) :
    Machine S :=
  { m with
    contract := contract
    mem := if memorySize > 0 then m.mem.resize memorySize else m.mem
    evm := { m.evm with trace := op :: m.evm.trace } }

/-- A round of the loop of `Run`. -/
def step (env : Env) (calls : Calls S) (m : Machine S) : Except Fault (Next S) :=
  let op := m.contract.getOp m.pc
  match env.jumpTable op with
  | none => .ok (.stop ([], some (.invalidOpcode op)) m)
  | some operation =>
    match operation.validateStack m.stack with
    | some err => .ok (.stop ([], some err) m)
    | none =>
      match enforceRestrictions env m.evm.readOnly op operation m.stack with
      | .error fault => .error fault
      | .ok (some err) => .ok (.stop ([], some err) m)
      | .ok none =>
        match operation.memoryBytes m.stack with
        | .error fault => .error fault
        | .ok none => .ok (.stop ([], some .gasUintOverflow) m)
        | .ok (some memorySize) =>
          match operation.gasCost env m memorySize with
          | .error fault => .error fault
          | .ok (cost, m) =>
            match cost.bind m.contract.useGas with
            | none => .ok (.stop ([], some .outOfGas) m)
            | some contract =>
              match operation.execute env calls (m.prepare op contract memorySize) with
              | .error fault => .error fault
              | .ok ((res, err), m) => .ok (operation.dispatch res err m)

/-! ## Calls -/

/-- A way to run a contract on an input. -/
abbrev Runner (S : Type) := Contract → Bytes → Evm S → Except Fault (Ret × Contract × Evm S)

/-- `run`: precompiled contracts and the rest. -/
def run (env : Env) (interpreter : Runner S) : Runner S := fun contract input evm =>
  match precompiles env.isByzantium contract.codeAddr with
  | some p =>
    match runPrecompiledContract env.crypto p input contract with
    | .error fault => .error fault
    | .ok (ret, contract) => .ok (ret, contract, evm)
  | none => interpreter contract input evm

def canTransfer (db : S) (addr : Address) (amount : Int) : Bool × S :=
  let (balance, db) := StateDB.getBalance db addr
  (decide (balance ≥ amount), db)

def transfer (db : S) (sender recipient : Address) (amount : Int) : S :=
  StateDB.addBalance (StateDB.subBalance db sender amount) recipient amount

/-- The map of jump destinations in `NewContract`: that of the calling contract, else a new one. -/
def Evm.enter (evm : Evm S) : ContractRef → Evm S
  | .account _ => { evm with jumpdests := fun _ => none }
  | .contract _ => evm

/-- The gas that an error leaves: all of it after a revert, else none. -/
def Contract.leftOver (contract : Contract) (err : VmErr) : UInt64 :=
  if err = .executionReverted then contract.gas
  else ((contract.useGas contract.gas).getD contract).gas

/-- The end of the calls: after an error the state is reverted and the gas is gone, unless the code
has reverted. -/
def settle (snapshot : Nat) :
    Except Fault (Ret × Contract × Evm S) → Except Fault (CallResult × Evm S)
  | .error fault => .error fault
  | .ok ((ret, none), contract, evm) => .ok (⟨ret, contract.gas, none⟩, evm)
  | .ok ((ret, some err), contract, evm) =>
    match StateDB.revertToSnapshot evm.db snapshot with
    | none => .error (.revision snapshot)
    | some db => .ok (⟨ret, contract.leftOver err, some err⟩, { evm with db := db })

/-- The contract that a call runs: `NewContract` and `SetCallCode`, with the code that the state has
at the address. -/
def load (db : S) (callerAddress self codeAddr : Address) (gas : UInt64) (value : Int) :
    Contract × S :=
  let (codeHash, db) := StateDB.getCodeHash db codeAddr
  let (code, db) := StateDB.getCode db codeAddr
  (⟨callerAddress, self, code, codeHash, codeAddr, [], gas, value⟩, db)

section Kinds

variable (env : Env) (interpreter : Runner S)

def call (caller : ContractRef) (addr : Address) (input : Bytes) (gas : UInt64) (value : Int)
    (evm : Evm S) : Except Fault (CallResult × Evm S) :=
  if env.noRecursion ∧ evm.depth > 0 then .ok (⟨[], gas, none⟩, evm)
  else if evm.depth > callCreateDepth then .ok (⟨[], gas, some .depth⟩, evm)
  else
    let (funded, db) := canTransfer evm.db caller.address value
    if funded = false then .ok (⟨[], gas, some .insufficientBalance⟩, { evm with db := db })
    else
      let (snapshot, db) := StateDB.snapshot db
      let (exists?, db) := StateDB.exist db addr
      if exists? = false ∧ (precompiles env.isByzantium addr).isNone ∧ env.isEIP158 ∧ value = 0 then
        .ok (⟨[], gas, none⟩, { evm with db := db })
      else
        let db := if exists? then db else StateDB.createAccount db addr
        let db := transfer db caller.address addr value
        let (contract, db) := load db caller.address addr addr gas value
        settle snapshot (run env interpreter contract input ({ evm with db := db }.enter caller))

def callCode (caller : ContractRef) (addr : Address) (input : Bytes) (gas : UInt64) (value : Int)
    (evm : Evm S) : Except Fault (CallResult × Evm S) :=
  if env.noRecursion ∧ evm.depth > 0 then .ok (⟨[], gas, none⟩, evm)
  else if evm.depth > callCreateDepth then .ok (⟨[], gas, some .depth⟩, evm)
  else
    let (funded, db) := canTransfer evm.db caller.address value
    if funded = false then .ok (⟨[], gas, some .insufficientBalance⟩, { evm with db := db })
    else
      let (snapshot, db) := StateDB.snapshot db
      let (contract, db) := load db caller.address caller.address addr gas value
      settle snapshot (run env interpreter contract input ({ evm with db := db }.enter caller))

/-- `DelegateCall`, which only a contract may use: the callee has its caller and its value. -/
def delegateCall (parent : Contract) (addr : Address) (input : Bytes) (gas : UInt64)
    (evm : Evm S) : Except Fault (CallResult × Evm S) :=
  if env.noRecursion ∧ evm.depth > 0 then .ok (⟨[], gas, none⟩, evm)
  else if evm.depth > callCreateDepth then .ok (⟨[], gas, some .depth⟩, evm)
  else
    let (snapshot, db) := StateDB.snapshot evm.db
    let (contract, db) := load db parent.callerAddress parent.self addr gas parent.value
    settle snapshot (run env interpreter contract input { evm with db := db })

/-- The deferred function of `StaticCall`. -/
def restoreReadOnly (readOnly : Bool) :
    Except Fault (CallResult × Evm S) → Except Fault (CallResult × Evm S)
  | .error fault => .error fault
  | .ok (res, evm) => .ok (res, if readOnly then evm else { evm with readOnly := false })

def staticCall (caller : ContractRef) (addr : Address) (input : Bytes) (gas : UInt64)
    (evm : Evm S) : Except Fault (CallResult × Evm S) :=
  if env.noRecursion ∧ evm.depth > 0 then .ok (⟨[], gas, none⟩, evm)
  else if evm.depth > callCreateDepth then .ok (⟨[], gas, some .depth⟩, evm)
  else
    let (snapshot, db) := StateDB.snapshot evm.db
    let (contract, db) := load db caller.address addr addr gas 0
    restoreReadOnly evm.readOnly (settle snapshot
      (run env interpreter contract input ({ evm with db := db, readOnly := true }.enter caller)))

/-- The end of `Create`: the code is stored if its price can be paid. -/
def storeCode (snapshot : Nat) (contractAddr : Address) :
    Except Fault (Ret × Contract × Evm S) → Except Fault (CallResult × Address × Evm S)
  | .error fault => .error fault
  | .ok ((ret, err), contract, evm) =>
    let maxCodeSizeExceeded := env.isEIP158 && decide (ret.length > maxCodeSize)
    let (err, contract, evm) :=
      if err = none ∧ maxCodeSizeExceeded = false then
        match contract.useGas (UInt64.ofNat ret.length * createDataGas) with
        | some contract =>
          (none, contract, { evm with db := StateDB.setCode evm.db contractAddr ret })
        | none => (some VmErr.codeStoreOutOfGas, contract, evm)
      else (err, contract, evm)
    if maxCodeSizeExceeded ∨
        (err ≠ none ∧ (env.isHomestead ∨ err ≠ some .codeStoreOutOfGas)) then
      match StateDB.revertToSnapshot evm.db snapshot with
      | none => .error (.revision snapshot)
      | some db =>
        let gas := contract.leftOver (err.getD .maxCodeSizeExceeded)
        .ok (⟨ret, gas, some (err.getD .maxCodeSizeExceeded)⟩, contractAddr, { evm with db := db })
    else .ok (⟨ret, contract.gas, err⟩, contractAddr, evm)

/-- The address check of `Create`: there must be neither a nonce nor code. -/
def collides (db : S) (addr : Address) : Bool × S :=
  let (codeHash, db) := StateDB.getCodeHash db addr
  let (nonce, db) := StateDB.getNonce db addr
  (decide (nonce ≠ 0 ∨ (codeHash ≠ Hash.zero ∧ codeHash ≠ env.crypto.keccak [])), db)

/-- The caller's nonce counted up by `Create`. -/
def numbered (db : S) (caller : Address) : S :=
  let (nonce, db) := StateDB.getNonce db caller
  StateDB.setNonce db caller (nonce + 1)

/-- The new account of `Create`, with the value transferred. -/
def created (db : S) (caller contractAddr : Address) (value : Int) : S :=
  let db := StateDB.createAccount db contractAddr
  let db := if env.isEIP158 then StateDB.setNonce db contractAddr 1 else db
  transfer db caller contractAddr value

def create (caller : ContractRef) (code : Bytes) (gas : UInt64) (value : Int) (evm : Evm S) :
    Except Fault (CallResult × Address × Evm S) :=
  let zero : Address := bytesToAddress []
  if evm.depth > callCreateDepth then .ok (⟨[], gas, some .depth⟩, zero, evm)
  else
    let (funded, db) := canTransfer evm.db caller.address value
    if funded = false then .ok (⟨[], gas, some .insufficientBalance⟩, zero, { evm with db := db })
    else
      let nonce := (StateDB.getNonce db caller.address).1
      let contractAddr := createAddress env.crypto.keccak caller.address nonce
      let (collision, db) := collides env (numbered db caller.address) contractAddr
      if collision then
        .ok (⟨[], 0, some .contractAddressCollision⟩, zero, { evm with db := db })
      else
        let (snapshot, db) := StateDB.snapshot db
        let db := created env db caller.address contractAddr value
        let evm := { evm with db := db }.enter caller
        let contract : Contract :=
          ⟨caller.address, contractAddr, code, env.crypto.keccak code, contractAddr, [], gas, value⟩
        if env.noRecursion ∧ evm.depth > 0 then .ok (⟨[], gas, none⟩, contractAddr, evm)
        else storeCode env snapshot contractAddr (run env interpreter contract [] evm)

/-- The five calls over an interpreter. -/
def calls : Calls S where
  call := call env interpreter
  callCode := callCode env interpreter
  delegateCall := delegateCall env interpreter
  staticCall := staticCall env interpreter
  create := create env interpreter

end Kinds

/-! ## The loop -/

/-- `Run` of the interpreter around its loop. -/
def interpret (loop : Machine S → Except Fault (Ret × Machine S)) : Runner S :=
  fun contract input evm =>
    let evm := { evm with depth := evm.depth + 1, returnData := [] }
    if contract.code.length = 0 then
      .ok (([], none), contract, { evm with depth := evm.depth - 1 })
    else
      match loop ⟨0, [], .new, { contract with input := input }, evm⟩ with
      | .error fault => .error fault
      | .ok (ret, m) => .ok (ret, m.contract, { m.evm with depth := m.evm.depth - 1 })

/-- A look at the abort flag. -/
def Machine.look (m : Machine S) : Machine S :=
  { m with evm := { m.evm with loads := m.evm.loads + 1 } }

/-- The loop of `Run`, with `n` rounds to go. -/
def loop (env : Env) : Nat → Machine S → Except Fault (Ret × Machine S)
  | 0, _ => .error .outOfFuel
  | n + 1, m =>
    if env.abort m.evm.loads then .ok (([], none), m.look)
    else
      match step env (calls env (interpret (loop env n))) m.look with
      | .error fault => .error fault
      | .ok (.next m) => loop env n m
      | .ok (.stop ret m) => .ok (ret, m)

/-- `Interpreter.Run`, in which no frame has more than `n` rounds. -/
def Interpreter.run (env : Env) (n : Nat) : Runner S := interpret (loop env n)

/-- The methods of the `EVM`, in which no frame has more than `n` rounds. -/
def Evm.calls (env : Env) (n : Nat) : Calls S := Vm.calls env (Interpreter.run env n)

end Geth.Vm
