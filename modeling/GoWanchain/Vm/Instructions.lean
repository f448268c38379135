import GoWanchain.Vm.Evm

/-!
# The instructions

`core/vm/instructions.go`. The stack is a list of numbers with its top first; an instruction finds the numbers it
needs, since the interpreter has checked the height before. Like the code, it does not cut numbers to
256 bits unless the instruction does so. A negative balance, which no account has, is read as 0.

Most instructions take some numbers off the stack and put one there that they compute from the frame:
they are `compute` with the number of those taken.
-/

namespace GoWanchain.Vm

open State

def u256 (z : ℤ) : ℕ := (z % 2 ^ 256).toNat

def s256 (x : ℕ) : ℤ := if x < 2 ^ 255 then x else x - 2 ^ 256

def uint64 (x : ℕ) : ℕ := x % 2 ^ 64

/-- `math.Exp`. -/
def bigExp (base exponent : ℕ) : ℕ :=
  (exponent.bits.foldl (fun (x : ℕ × ℕ) bit =>
    (if bit then x.1 * x.2 % 2 ^ 256 else x.1, x.2 * x.2 % 2 ^ 256)) (1, base)).1

def paddedBigBytes (x n : ℕ) : Bytes := if x < 256 ^ n then bePadded n x else beBytes x

def bigToAddress (x : ℕ) : Address := BitVec.ofNat 160 x

def bigToHash (x : ℕ) : Hash := BitVec.ofNat 256 x

def getDataBig (data : Bytes) (start size : ℕ) : Bytes :=
  rightPadBytes ((data.drop start).take size) size

/-- Whether the analysis of the code finds a `JUMPDEST` at a distance; so many bytes are data of a `PUSH`. -/
def jumpdestAt : Bytes → ℕ → ℕ → Bool
  | [], _, _ => false
  | _ :: _, _ + 1, 0 => false
  | _ :: code, data + 1, dest + 1 => jumpdestAt code data dest
  | op :: _, 0, 0 => op == 0x5b
  | op :: code, 0, dest + 1 =>
    jumpdestAt code (if 0x60 ≤ op ∧ op ≤ 0x7f then op.toNat - 0x5f else 0) dest

/-- `destinations.has`, without the cache of the analysis. -/
def hasJumpdest (code : Bytes) (dest : ℕ) : Bool := dest < 2 ^ 62 && jumpdestAt code 0 dest

namespace Frame

def back (f : Frame) (n : ℕ) : ℕ := f.stack.getD n 0

def drop (f : Frame) (n : ℕ) : Frame := { f with stack := f.stack.drop n }

/-- Take `n` numbers off the stack and put one there. -/
def replace (f : Frame) (n value : ℕ) : Frame := { f with stack := value :: f.stack.drop n }

abbrev self (f : Frame) : Address := f.scope.contract.self

end Frame

/-- What an instruction does: the frame goes on with a result, or it fails, or a call is made and the frame goes
on with its result. -/
inductive Executed where
  | done (f : Frame) (res : Bytes)
  | error (err : VmError)
  | spawn (entry : Entry) (resume : Result → Frame × Bytes)

def compute (n : ℕ) (g : Frame → ℕ) (f : Frame) : Executed := .done (f.replace n (g f)) []

/-! ### Arithmetic -/

def opAdd := compute 2 fun f => u256 (f.back 0 + f.back 1)

def opSub := compute 2 fun f => u256 (f.back 0 - f.back 1)

def opMul := compute 2 fun f => u256 (f.back 0 * f.back 1)

def opDiv := compute 2 fun f => if f.back 1 ≠ 0 then u256 (f.back 0 / f.back 1) else 0

def opSdiv := compute 2 fun f =>
  let x := s256 (f.back 0)
  let y := s256 (f.back 1)
  if y = 0 then 0 else u256 (|x| / |y| * if x * y < 0 then -1 else 1)

def opMod := compute 2 fun f => if f.back 1 = 0 then 0 else u256 (f.back 0 % f.back 1)

def opSmod := compute 2 fun f =>
  let x := s256 (f.back 0)
  let y := s256 (f.back 1)
  if y = 0 then 0 else u256 (|x| % |y| * if x < 0 then -1 else 1)

def opExp := compute 2 fun f => bigExp (f.back 0) (f.back 1)

/-- `opSignExtend`; a large first number is only taken off. -/
def opSignExtend (f : Frame) : Executed :=
  if f.back 0 < 31 then
    let bit := f.back 0 * 8 + 7
    let num := f.back 1
    let mask := 2 ^ bit - 1
    .done (f.replace 2 (if num.testBit bit then (num % 2 ^ 256) ||| (2 ^ 256 - 1 - mask) else num &&& mask)) []
  else .done (f.drop 1) []

def opNot := compute 1 fun f => u256 (-(f.back 0 : ℤ) - 1)

def opLt := compute 2 fun f => if f.back 0 < f.back 1 then 1 else 0

def opGt := compute 2 fun f => if f.back 0 > f.back 1 then 1 else 0

def opSlt := compute 2 fun f => if s256 (f.back 0) < s256 (f.back 1) then 1 else 0

def opSgt := compute 2 fun f => if s256 (f.back 0) > s256 (f.back 1) then 1 else 0

def opEq := compute 2 fun f => if f.back 0 = f.back 1 then 1 else 0

def opIszero := compute 1 fun f => if f.back 0 > 0 then 0 else 1

def opAnd := compute 2 fun f => f.back 0 &&& f.back 1

def opOr := compute 2 fun f => f.back 0 ||| f.back 1

def opXor := compute 2 fun f => f.back 0 ^^^ f.back 1

def opByte := compute 2 fun f =>
  if f.back 0 < 32 then f.back 1 / 256 ^ (31 - f.back 0) % 256 else 0

def opAddmod := compute 3 fun f =>
  if f.back 2 > 0 then u256 ((f.back 0 + f.back 1) % f.back 2) else 0

def opMulmod := compute 3 fun f =>
  if f.back 2 > 0 then u256 (f.back 0 * f.back 1 % f.back 2) else 0

/-! ### The stack, the memory and the code -/

def opPop (f : Frame) : Executed := .done (f.drop 1) []

def makePush (size : ℕ) (f : Frame) : Executed :=
  let integer := rightPadBytes ((f.scope.contract.code.drop (f.pc + 1)).take size) size
  .done { f.replace 0 (beNat integer) with pc := f.pc + size } []

def makeDup (size : ℕ) := compute 0 fun f => f.back (size - 1)

def makeSwap (size : ℕ) (f : Frame) : Executed :=
  .done { f with stack := (f.stack.set 0 (f.back size)).set size (f.back 0) } []

/-- A number of bytes is copied to the memory; `n` numbers come off the stack. -/
def copyToMemory (n : ℕ) (offset size : ℕ) (value : Bytes) (f : Frame) : Executed :=
  .done { f.drop n with memory := f.memory.set offset size value } []

def opCallDataCopy (f : Frame) : Executed :=
  copyToMemory 3 (f.back 0) (f.back 2) (getDataBig f.scope.input (f.back 1) (f.back 2)) f

def opCodeCopy (f : Frame) : Executed :=
  copyToMemory 3 (f.back 0) (f.back 2) (getDataBig f.scope.contract.code (f.back 1) (f.back 2)) f

def opReturnDataCopy (f : Frame) : Executed :=
  let last := f.back 1 + f.back 2
  if last ≥ 2 ^ 64 ∨ f.returnData.length < last then .error .errReturnDataOutOfBounds
  else copyToMemory 3 (f.back 0) (f.back 2) ((f.returnData.drop (f.back 1)).take (f.back 2)) f

def opMload := compute 1 fun f => beNat (f.memory.get (f.back 0) 32)

def opMstore (f : Frame) : Executed :=
  copyToMemory 2 (f.back 0) 32 (paddedBigBytes (f.back 1) 32) f

def opMstore8 (f : Frame) : Executed :=
  copyToMemory 2 (f.back 0) 1 [UInt8.ofNat (f.back 1)] f

def jumpTo (n pos : ℕ) (f : Frame) : Executed :=
  if hasJumpdest f.scope.contract.code pos then .done { f.drop n with pc := pos } []
  else .error (.invalidJumpDestination pos)

def opJump (f : Frame) : Executed := jumpTo 1 (f.back 0) f

def opJumpi (f : Frame) : Executed :=
  if f.back 1 ≠ 0 then jumpTo 2 (f.back 0) f else .done { f.drop 2 with pc := f.pc + 1 } []

def opJumpdest (f : Frame) : Executed := .done f []

def opPc := compute 0 Frame.pc

def opMsize := compute 0 fun f => f.memory.store.length

def opGas := compute 0 Frame.gas

/-- `opReturn` and `opRevert`. -/
def opReturn (f : Frame) : Executed := .done (f.drop 2) (f.memory.get (f.back 0) (f.back 1))

def opStop (f : Frame) : Executed := .done f []

/-! ### The surroundings and the state -/

def opAddress := compute 0 fun f => f.self.toNat

def opCaller := compute 0 fun f => f.scope.contract.callerAddress.toNat

def opCallValue := compute 0 fun f => f.scope.contract.value

def opCallDataLoad := compute 1 fun f => beNat (getDataBig f.scope.input (f.back 0) 32)

def opCallDataSize := compute 0 fun f => f.scope.input.length

def opCodeSize := compute 0 fun f => f.scope.contract.code.length

def opReturnDataSize := compute 0 fun f => f.returnData.length

def opBalance := compute 1 fun f => (f.world.db.getBalance (bigToAddress (f.back 0))).toNat

def opSload := compute 1 fun f => (f.world.db.getState f.self (bigToHash (f.back 0))).toNat

section Context

variable (evm : Evm)

def opOrigin := compute 0 fun _ => evm.context.origin.toNat

def opGasprice := compute 0 fun _ => evm.context.gasPrice

def opBlockhash := compute 1 fun f =>
  if (f.back 0 : ℤ) > evm.context.blockNumber - 257 ∧ f.back 0 < evm.context.blockNumber then
    (evm.context.getHash (f.back 0)).toNat
  else 0

def opCoinbase := compute 0 fun _ => evm.context.coinbase.toNat

def opTimestamp := compute 0 fun _ => u256 evm.context.time

def opNumber := compute 0 fun _ => u256 evm.context.blockNumber

def opDifficulty := compute 0 fun _ => u256 evm.context.difficulty

def opGasLimit := compute 0 fun _ => u256 evm.context.gasLimit

end Context

variable [Keccak]

def opExtCodeSize := compute 1 fun f => f.world.db.getCodeSize (bigToAddress (f.back 0))

def opExtCodeCopy (f : Frame) : Executed :=
  let code := f.world.db.getCode (bigToAddress (f.back 0))
  copyToMemory 4 (f.back 1) (f.back 3) (getDataBig code (f.back 2) (f.back 3)) f

def opSha3 (evm : Evm) (f : Frame) : Executed :=
  let data := f.memory.get (f.back 0) (f.back 1)
  let hash := keccak256 data
  let world := if evm.vmConfig.enablePreimageRecording then f.world.onDB (·.addPreimage hash data) else f.world
  .done { f.replace 2 hash.toNat with world } []

def opSstore (f : Frame) : Executed :=
  let loc := bigToHash (f.back 0)
  let val := bigToHash (f.back 1)
  .done { f.drop 2 with world := f.world.onDB (·.setState f.self loc val) } []

def makeLog (evm : Evm) (size : ℕ) (f : Frame) : Executed :=
  let topics := ((f.stack.drop 2).take size).map bigToHash
  let data := f.memory.get (f.back 0) (f.back 1)
  let log : Log := { address := f.self, topics, data, blockNumber := uint64 evm.context.blockNumber }
  .done { f.drop (2 + size) with world := f.world.onDB (·.addLog log) } []

def opSuicide (f : Frame) : Executed :=
  let balance := f.world.db.getBalance f.self
  let beneficiary := bigToAddress (f.back 0)
  .done { f.drop 1 with
    world := f.world.onDB fun db => ((db.addBalance beneficiary balance).suicide f.self).1 } []

/-! ### Calls -/

def callStipend : ℕ := 2300

omit [Keccak] in
/-- How an instruction that calls ends. -/
def Frame.resume (f : Frame) (n retOffset retSize : ℕ) (r : Result) : Frame × Bytes :=
  ({ f.replace n (if r.err = none then 1 else 0) with
     memory := if r.err = none ∨ r.err = some .errExecutionReverted then
       f.memory.set retOffset retSize r.ret else f.memory
     gas := f.gas + r.gas
     world := r.world }, r.ret)

variable [Crypto] (evm : Evm)

omit [Keccak] [Crypto] in
/-- The gas that `opCall` and `opCallCode` give to the call. -/
def Frame.gasWithStipend (f : Frame) (value : ℕ) : ℕ :=
  uint64 (f.back 0) + if value ≠ 0 then callStipend else 0

def opCall (f : Frame) : Executed :=
  let value := u256 (f.back 2)
  let args := f.memory.get (f.back 3) (f.back 4)
  .spawn (evm.call f.scope.depth f.scope.readOnly f.self (bigToAddress (f.back 1)) args
    (f.gasWithStipend value) value f.world) (f.resume 7 (f.back 5) (f.back 6))

def opCallCode (f : Frame) : Executed :=
  let value := u256 (f.back 2)
  let args := f.memory.get (f.back 3) (f.back 4)
  .spawn (evm.callCode f.scope.depth f.scope.readOnly f.self (bigToAddress (f.back 1)) args
    (f.gasWithStipend value) value f.world) (f.resume 7 (f.back 5) (f.back 6))

def opDelegateCall (f : Frame) : Executed :=
  let args := f.memory.get (f.back 2) (f.back 3)
  .spawn (evm.delegateCall f.scope.depth f.scope.readOnly f.scope.contract (bigToAddress (f.back 1))
    args (uint64 (f.back 0)) f.world) (f.resume 6 (f.back 4) (f.back 5))

def opStaticCall (f : Frame) : Executed :=
  let args := f.memory.get (f.back 2) (f.back 3)
  .spawn (evm.staticCall f.scope.depth f.self (bigToAddress (f.back 1)) args (uint64 (f.back 0))
    f.world) (f.resume 6 (f.back 4) (f.back 5))

def opCreate (f : Frame) : Executed :=
  let input := f.memory.get (f.back 1) (f.back 2)
  let gas := f.gas - f.gas / 64
  let addr := createAddress f.self (f.world.db.getNonce f.self)
  .spawn (evm.create f.scope.depth f.scope.readOnly f.self input gas (f.back 0) f.world) fun r =>
    ({ f.replace 3 (if r.err = none then addr.toNat else 0) with
       gas := f.gas - gas + r.gas
       world := r.world }, if r.err = some .errExecutionReverted then r.ret else [])

end GoWanchain.Vm
