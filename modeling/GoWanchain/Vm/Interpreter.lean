import GoWanchain.Vm.GasTable

/-!
# The interpreter

`core/vm/jump_table.go` and the loop of `core/vm/interpreter.go`. `step` is one round of the loop. It does not
recur: a round that calls hands out the call and says how the frame goes on. `loop` runs a frame to its end, and
the frames it calls; its first argument bounds the rounds. Tracing, the switch that turns the gas metering off
and the abort from outside are left out.
-/

namespace GoWanchain.Vm

open State

/-- The instructions, without the prefix `op` of the code. -/
inductive OpCode where
  | stop | add | mul | sub | div | sdiv | mod | smod | addmod | mulmod | exp | signExtend
  | lt | gt | slt | sgt | eq | iszero | and | or | xor | not | byte
  | sha3
  | address | balance | origin | caller | callValue | callDataLoad | callDataSize | callDataCopy
  | codeSize | codeCopy | gasprice | extCodeSize | extCodeCopy | returnDataSize | returnDataCopy
  | blockhash | coinbase | timestamp | number | difficulty | gasLimit
  | pop | mload | mstore | mstore8 | sload | sstore | jump | jumpi | pc | msize | gas | jumpdest
  | push (n : ℕ) | dup (n : ℕ) | swap (n : ℕ) | log (n : ℕ)
  | create | call | callCode | returns | delegateCall | staticCall | revert | selfdestruct
deriving DecidableEq

/-- The valid operations of the jump table. -/
def OpCode.ofByte (b : UInt8) : Option OpCode :=
  match b.toNat with
  | 0x00 => some stop
  | 0x01 => some add
  | 0x02 => some mul
  | 0x03 => some sub
  | 0x04 => some div
  | 0x05 => some sdiv
  | 0x06 => some mod
  | 0x07 => some smod
  | 0x08 => some addmod
  | 0x09 => some mulmod
  | 0x0a => some exp
  | 0x0b => some signExtend
  | 0x10 => some lt
  | 0x11 => some gt
  | 0x12 => some slt
  | 0x13 => some sgt
  | 0x14 => some eq
  | 0x15 => some iszero
  | 0x16 => some and
  | 0x17 => some or
  | 0x18 => some xor
  | 0x19 => some not
  | 0x1a => some byte
  | 0x20 => some sha3
  | 0x30 => some address
  | 0x31 => some balance
  | 0x32 => some origin
  | 0x33 => some caller
  | 0x34 => some callValue
  | 0x35 => some callDataLoad
  | 0x36 => some callDataSize
  | 0x37 => some callDataCopy
  | 0x38 => some codeSize
  | 0x39 => some codeCopy
  | 0x3a => some gasprice
  | 0x3b => some extCodeSize
  | 0x3c => some extCodeCopy
  | 0x3d => some returnDataSize
  | 0x3e => some returnDataCopy
  | 0x40 => some blockhash
  | 0x41 => some coinbase
  | 0x42 => some timestamp
  | 0x43 => some number
  | 0x44 => some difficulty
  | 0x45 => some gasLimit
  | 0x50 => some pop
  | 0x51 => some mload
  | 0x52 => some mstore
  | 0x53 => some mstore8
  | 0x54 => some sload
  | 0x55 => some sstore
  | 0x56 => some jump
  | 0x57 => some jumpi
  | 0x58 => some pc
  | 0x59 => some msize
  | 0x5a => some gas
  | 0x5b => some jumpdest
  | 0xf0 => some create
  | 0xf1 => some call
  | 0xf2 => some callCode
  | 0xf3 => some returns
  | 0xf4 => some delegateCall
  | 0xfa => some staticCall
  | 0xfd => some revert
  | 0xff => some selfdestruct
  | n =>
    if 0x60 ≤ n ∧ n ≤ 0x7f then some (push (n - 0x5f))
    else if 0x80 ≤ n ∧ n ≤ 0x8f then some (dup (n - 0x7f))
    else if 0x90 ≤ n ∧ n ≤ 0x9f then some (swap (n - 0x8f))
    else if 0xa0 ≤ n ∧ n ≤ 0xa4 then some (log (n - 0xa0))
    else none

/-- `operation`; `pops` and `pushes` are what `validateStack` checks. -/
structure Operation where
  execute : Frame → Executed
  gasCost : GasFunc
  pops : ℕ
  pushes : ℕ
  memorySize : Option (Frame → ℕ) := none
  halts : Bool := false
  jumps : Bool := false
  writes : Bool := false
  reverts : Bool := false
  returns : Bool := false

/-- An operation of constant cost. -/
def Operation.const (execute : Frame → Executed) (gas pops pushes : ℕ) : Operation where
  execute := execute
  gasCost := constGasFunc gas
  pops := pops
  pushes := pushes

variable [Keccak] [Crypto] (evm : Evm)

/-- `NewByzantiumInstructionSet`. -/
def operation : OpCode → Operation
  | .stop => { Operation.const opStop 0 0 0 with halts := true }
  | .add => .const opAdd 3 2 1
  | .mul => .const opMul 5 2 1
  | .sub => .const opSub 3 2 1
  | .div => .const opDiv 5 2 1
  | .sdiv => .const opSdiv 5 2 1
  | .mod => .const opMod 5 2 1
  | .smod => .const opSmod 5 2 1
  | .addmod => .const opAddmod 8 3 1
  | .mulmod => .const opMulmod 8 3 1
  | .exp => { execute := opExp, gasCost := gasExp, pops := 2, pushes := 1 }
  | .signExtend => .const opSignExtend 5 2 1
  | .lt => .const opLt 3 2 1
  | .gt => .const opGt 3 2 1
  | .slt => .const opSlt 3 2 1
  | .sgt => .const opSgt 3 2 1
  | .eq => .const opEq 3 2 1
  | .iszero => .const opIszero 3 1 1
  | .and => .const opAnd 3 2 1
  | .or => .const opOr 3 2 1
  | .xor => .const opXor 3 2 1
  | .not => .const opNot 3 1 1
  | .byte => .const opByte 3 2 1
  | .sha3 => { execute := opSha3 evm, gasCost := gasSha3, pops := 2, pushes := 1,
               memorySize := some (memoryPiece 0 1) }
  | .address => .const opAddress 2 0 1
  | .balance => .const opBalance 400 1 1
  | .origin => .const (opOrigin evm) 2 0 1
  | .caller => .const opCaller 2 0 1
  | .callValue => .const opCallValue 2 0 1
  | .callDataLoad => .const opCallDataLoad 3 1 1
  | .callDataSize => .const opCallDataSize 2 0 1
  | .callDataCopy => { execute := opCallDataCopy, gasCost := gasCallDataCopy, pops := 3, pushes := 0,
                       memorySize := some (memoryPiece 0 2) }
  | .codeSize => .const opCodeSize 2 0 1
  | .codeCopy => { execute := opCodeCopy, gasCost := gasCodeCopy, pops := 3, pushes := 0,
                   memorySize := some (memoryPiece 0 2) }
  | .gasprice => .const (opGasprice evm) 2 0 1
  | .extCodeSize => .const opExtCodeSize 700 1 1
  | .extCodeCopy => { execute := opExtCodeCopy, gasCost := gasExtCodeCopy, pops := 4, pushes := 0,
                      memorySize := some (memoryPiece 1 3) }
  | .returnDataSize => .const opReturnDataSize 2 0 1
  | .returnDataCopy => { execute := opReturnDataCopy, gasCost := gasReturnDataCopy, pops := 3, pushes := 0,
                         memorySize := some (memoryPiece 0 2) }
  | .blockhash => .const (opBlockhash evm) 20 1 1
  | .coinbase => .const (opCoinbase evm) 2 0 1
  | .timestamp => .const (opTimestamp evm) 2 0 1
  | .number => .const (opNumber evm) 2 0 1
  | .difficulty => .const (opDifficulty evm) 2 0 1
  | .gasLimit => .const (opGasLimit evm) 2 0 1
  | .pop => .const opPop 2 1 0
  | .mload => { execute := opMload, gasCost := gasMLoad, pops := 1, pushes := 1,
                memorySize := some (memoryCell 32) }
  | .mstore => { execute := opMstore, gasCost := gasMLoad, pops := 2, pushes := 0,
                 memorySize := some (memoryCell 32) }
  | .mstore8 => { execute := opMstore8, gasCost := gasMLoad, pops := 2, pushes := 0,
                  memorySize := some (memoryCell 1) }
  | .sload => .const opSload 200 1 1
  | .sstore => { execute := opSstore, gasCost := gasSStore, pops := 2, pushes := 0, writes := true }
  | .jump => { Operation.const opJump 8 1 0 with jumps := true }
  | .jumpi => { Operation.const opJumpi 10 2 0 with jumps := true }
  | .pc => .const opPc 2 0 1
  | .msize => .const opMsize 2 0 1
  | .gas => .const opGas 2 0 1
  | .jumpdest => .const opJumpdest 1 0 0
  | .push n => .const (makePush n) 3 0 1
  | .dup n => .const (makeDup n) 3 n (n + 1)
  | .swap n => .const (makeSwap n) 3 (n + 1) (n + 1)
  | .log n => { execute := makeLog evm n, gasCost := makeGasLog n, pops := n + 2, pushes := 0,
                memorySize := some (memoryPiece 0 1), writes := true }
  | .create => { execute := opCreate evm, gasCost := gasCreate, pops := 3, pushes := 1,
                 memorySize := some (memoryPiece 1 2), writes := true, returns := true }
  | .call => { execute := opCall evm, gasCost := gasCall, pops := 7, pushes := 1,
               memorySize := some memoryCall, returns := true }
  | .callCode => { execute := opCallCode evm, gasCost := gasCallCode, pops := 7, pushes := 1,
                   memorySize := some memoryCall, returns := true }
  | .returns => { execute := opReturn, gasCost := gasReturn, pops := 2, pushes := 0,
                  memorySize := some (memoryPiece 0 1), halts := true }
  | .delegateCall => { execute := opDelegateCall evm, gasCost := gasDelegateCall, pops := 6, pushes := 1,
                       memorySize := some memoryDelegateCall, returns := true }
  | .staticCall => { execute := opStaticCall evm, gasCost := gasDelegateCall, pops := 6, pushes := 1,
                     memorySize := some memoryDelegateCall, returns := true }
  | .revert => { execute := opReturn, gasCost := gasReturn, pops := 2, pushes := 0,
                 memorySize := some (memoryPiece 0 1), reverts := true, returns := true }
  | .selfdestruct => { execute := opSuicide, gasCost := gasSuicide, pops := 1, pushes := 0,
                       halts := true, writes := true }

/-- What one round of the loop ends with. -/
inductive Outcome where
  | next (f : Frame)
  | halt (r : Result)
  | spawn (entry : Entry) (resume : Result → Frame)

def stackLimit : ℕ := 1024

omit [Keccak] [Crypto] in
def Frame.fail (f : Frame) (err : VmError) : Outcome := .halt ⟨[], f.gas, some err, f.world⟩

namespace Operation

omit [Keccak] [Crypto]

/-- The size of the memory in bytes of whole words, unless it overflows. -/
def memoryNeeded (o : Operation) (f : Frame) : Option ℕ :=
  match o.memorySize with
  | none => some 0
  | some size => (bigUint64 (size f)).bind fun memSize => safeMul (toWordSize memSize) 32

/-- The frame after an operation that goes on. -/
def advance (o : Operation) (f : Frame) (res : Bytes) : Frame :=
  { f with
    returnData := if o.returns then res else f.returnData
    pc := if o.jumps then f.pc else f.pc + 1 }

/-- The end of a round. -/
def finish (o : Operation) (f : Frame) : Executed → Outcome
  | .error err => f.fail err
  | .spawn entry resume => .spawn entry fun r => o.advance (resume r).1 (resume r).2
  | .done f res =>
    if o.reverts then .halt ⟨res, f.gas, some .errExecutionReverted, f.world⟩
    else if o.halts then .halt ⟨res, f.gas, none, f.world⟩
    else .next (o.advance f res)

end Operation

namespace Evm

/-- The check of the static mode. -/
def enforceRestrictions (op : OpCode) (f : Frame) : Bool :=
  f.scope.readOnly && ((operation evm op).writes || (op == .call && f.back 2 != 0))

/-- One round of the loop for an instruction. -/
def stepOp (op : OpCode) (f : Frame) : Outcome :=
  let o := operation evm op
  if f.stack.length < o.pops then f.fail .stackUnderflow
  else if f.stack.length + o.pushes - o.pops > stackLimit then f.fail .stackLimitReached
  else if evm.enforceRestrictions op f then f.fail .errWriteProtection
  else
    match o.memoryNeeded f with
    | none => f.fail .errGasUintOverflow
    | some memorySize =>
      match o.gasCost f memorySize with
      | none => f.fail .errOutOfGas
      | some (cost, f') =>
        if cost ≤ f.gas then
          let memory := if memorySize > 0 then f'.memory.resize memorySize else f'.memory
          let charged := { f' with gas := f.gas - cost, memory }
          o.finish charged (o.execute charged)
        else f'.fail .errOutOfGas

def step (f : Frame) : Outcome :=
  let op := f.scope.contract.getByte f.pc
  match OpCode.ofByte op with
  | none => f.fail (.invalidOpcode op)
  | some op => evm.stepOp op f

/-- The loop of `Run`, for at most so many rounds of each frame. -/
def loop : ℕ → Frame → Option Result
  | 0, _ => none
  | n + 1, f =>
    match evm.step f with
    | .next f' => loop n f'
    | .halt r => some r
    | .spawn (.done r) resume => loop n (resume r)
    | .spawn (.run child settle) resume => (loop n child).bind fun r => loop n (resume (settle r))

/-- The result of a call. -/
def finish (n : ℕ) : Entry → Option Result
  | .done r => some r
  | .run child settle => (evm.loop n child).map settle

end Evm

end GoWanchain.Vm
