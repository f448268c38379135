import GoWanchain.Vm.Instructions

/-!
# What the instructions cost

`core/vm/gas_table.go`, `core/vm/gas.go` and `core/vm/memory_table.go`. A gas function returns the cost and the
frame: it may add to the refund counter, note the cost of the memory, and put the gas for a call on top of
the stack. It returns nothing where the code reports an overflow of 64 bits, which the interpreter
takes for lack of gas.
-/

namespace GoWanchain.Vm

open State

/-! ### The size of the memory -/

def calcMemSize (off l : ℕ) : ℕ := if l = 0 then 0 else off + l

/-- `toWordSize`, for a size below `2 ^ 64`. -/
def toWordSize (size : ℕ) : ℕ := if size > 2 ^ 64 - 1 - 31 then (2 ^ 64 - 1) / 32 + 1 else (size + 31) / 32

/-- The size for a piece whose offset and length are on the stack. -/
def memoryPiece (off l : ℕ) (f : Frame) : ℕ := calcMemSize (f.back off) (f.back l)

/-- The size for a word, or a byte, whose offset is on top of the stack. -/
def memoryCell (l : ℕ) (f : Frame) : ℕ := calcMemSize (f.back 0) l

/-- `memoryCall` and `memoryCallCode`. -/
def memoryCall (f : Frame) : ℕ := max (memoryPiece 5 6 f) (memoryPiece 3 4 f)

/-- `memoryDelegateCall` and `memoryStaticCall`. -/
def memoryDelegateCall (f : Frame) : ℕ := max (memoryPiece 4 5 f) (memoryPiece 2 3 f)

/-! ### Costs -/

abbrev GasFunc := Frame → ℕ → Option (ℕ × Frame)

def safeAdd (x y : ℕ) : Option ℕ := if x + y < 2 ^ 64 then some (x + y) else none

def safeMul (x y : ℕ) : Option ℕ := if x * y < 2 ^ 64 then some (x * y) else none

def bigUint64 (x : ℕ) : Option ℕ := if x < 2 ^ 64 then some x else none

/-- `memoryGasCost`, in the arithmetic of `uint64`. -/
def memoryGasCost (mem : Memory) (newMemSize : ℕ) : Option (ℕ × Memory) :=
  if newMemSize = 0 then some (0, mem)
  else if newMemSize > 0xffffffffe0 then none
  else
    let newMemSizeWords := toWordSize newMemSize
    if newMemSizeWords * 32 % 2 ^ 64 > mem.store.length then
      let square := newMemSizeWords * newMemSizeWords % 2 ^ 64
      let linCoef := newMemSizeWords * 3 % 2 ^ 64
      let quadCoef := square / 512
      let newTotalFee := (linCoef + quadCoef) % 2 ^ 64
      some ((newTotalFee + 2 ^ 64 - mem.lastGasCost) % 2 ^ 64, { mem with lastGasCost := newTotalFee })
    else some (0, mem)

def constGasFunc (gas : ℕ) : GasFunc := fun f _ => some (gas, f)

/-- The cost of the memory and a constant. -/
def gasMemory (base : ℕ) : GasFunc := fun f memorySize => do
  let (gas, memory) ← memoryGasCost f.memory memorySize
  let gas ← safeAdd gas base
  return (gas, { f with memory })

/-- The cost of the memory, a constant, and a price for each word of which `n` is the place on the stack. -/
def gasWords (base price n : ℕ) : GasFunc := fun f memorySize => do
  let (gas, f') ← gasMemory base f memorySize
  let words ← bigUint64 (f.back n)
  let wordGas ← safeMul (toWordSize words) price
  let gas ← safeAdd gas wordGas
  return (gas, f')

def gasCallDataCopy : GasFunc := gasWords 3 3 2

def gasReturnDataCopy : GasFunc := gasWords 3 3 2

def gasCodeCopy : GasFunc := gasWords 3 3 2

def gasExtCodeCopy : GasFunc := gasWords 700 3 3

def gasSha3 : GasFunc := gasWords 30 6 1

/-- `gasMLoad`, `gasMStore` and `gasMStore8`. -/
def gasMLoad : GasFunc := gasMemory 3

def gasCreate : GasFunc := gasMemory 32000

/-- `gasReturn` and `gasRevert`. -/
def gasReturn : GasFunc := fun f memorySize => do
  let (gas, memory) ← memoryGasCost f.memory memorySize
  return (gas, { f with memory })

def makeGasLog (n : ℕ) : GasFunc := fun f memorySize => do
  let requestedSize ← bigUint64 (f.back 1)
  let (gas, f') ← gasMemory 375 f memorySize
  let gas ← safeAdd gas (n * 375)
  let memorySizeGas ← safeMul requestedSize 8
  let gas ← safeAdd gas memorySizeGas
  return (gas, f')

def gasExp : GasFunc := fun f _ => do
  let gas ← safeAdd ((Nat.size (f.back 1) + 7) / 8 * 50) 10
  return (gas, f)

def gasSStore : GasFunc := fun f _ =>
  let val := f.world.db.getState f.self (bigToHash (f.back 0))
  let new := bigToHash (f.back 1)
  if val = 0 ∧ new ≠ 0 then some (20000, f)
  else if val ≠ 0 ∧ new = 0 then some (5000, { f with world := f.world.onDB (·.addRefund 15000) })
  else some (5000, f)

/-- `callGas`: all but a 64th of what is left after `base`, or less. -/
def callGas (availableGas base callCost : ℕ) : ℕ :=
  let availableGas := (availableGas + 2 ^ 64 - base) % 2 ^ 64
  let gas := availableGas - availableGas / 64
  if callCost ≥ 2 ^ 64 ∨ gas < callCost then gas else callCost

/-- How the gas functions of calls end: the gas for the call is added, and replaces the one on the stack. -/
def gasForCall (base : ℕ) : GasFunc := fun f memorySize => do
  let (gas, f') ← gasMemory base f memorySize
  let cg := callGas f.gas gas (f.back 0)
  let gas ← safeAdd gas cg
  return (gas, f'.replace 1 cg)

/-- `gasDelegateCall` and `gasStaticCall`. -/
def gasDelegateCall : GasFunc := gasForCall 700

def gasCallCode : GasFunc := fun f => gasForCall (700 + if f.back 2 ≠ 0 then 9000 else 0) f

variable [Keccak]

def gasCall : GasFunc := fun f =>
  let newAccount := f.back 2 ≠ 0 ∧ f.world.db.empty (bigToAddress (f.back 1)) = true
  gasForCall (700 + (if newAccount then 25000 else 0) + if f.back 2 ≠ 0 then 9000 else 0) f

def gasSuicide : GasFunc := fun f _ =>
  let createBySuicide := f.world.db.empty (bigToAddress (f.back 0)) = true ∧ f.world.db.getBalance f.self ≠ 0
  let gas := 5000 + if createBySuicide then 25000 else 0
  if f.world.db.hasSuicided f.self then some (gas, f)
  else some (gas, { f with world := f.world.onDB (·.addRefund 24000) })

end GoWanchain.Vm
