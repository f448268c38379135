import GoWanchain.Vm.MemoryGas
import GoWanchain.Vm.Static

/-!
# Where the gas goes

`step_spends` keeps the accounts of a round: the fee for the memory is charged, the frame that goes on has
written within its memory, and a call is given what its frame pays for it and, if it has a value, the
stipend, which is less than what the frame pays for the transfer.
-/

namespace GoWanchain.Vm

open State Option

def callValueTransferGas : ℕ := 9000

/-- What a call with the value is given beside the gas that is paid. -/
def stipendOf (value : ℕ) : ℕ := if value ≠ 0 then callStipend else 0

/-- What is charged for the value of a call. -/
def transferGasOf (value : ℕ) : ℕ := if value ≠ 0 then callValueTransferGas else 0

theorem stipendOf_le (value : ℕ) : stipendOf value ≤ transferGasOf value := by
  rw [stipendOf, transferGasOf, callStipend, callValueTransferGas]
  split <;> omega

/-! ### Costs -/

variable {f f' : Frame} {m c : ℕ}

variable {base : ℕ} {mem : Memory}

/-! ### Writing to the memory -/

/-- The memory is written to, within its size. -/
structure Wrote (mem mem' : Memory) : Prop where
  length_eq : mem'.store.length = mem.store.length
  lastGasCost : mem'.lastGasCost = mem.lastGasCost

theorem Wrote.refl (mem : Memory) : Wrote mem mem := ⟨rfl, rfl⟩

theorem Wrote.trans {mem₁ mem₂ mem₃ : Memory} (h : Wrote mem₁ mem₂) (h' : Wrote mem₂ mem₃) : Wrote mem₁ mem₃ :=
  ⟨h'.length_eq.trans h.length_eq, h'.lastGasCost.trans h.lastGasCost⟩

theorem Wrote.memoryGasCost {mem' paid : Memory} {size fee : ℕ} (h : Wrote mem mem')
    (hcost : memoryGasCost mem' size = some (fee, paid)) :
    ∃ before, Vm.memoryGasCost mem size = some (fee, before) ∧ Wrote before paid := by
  unfold Vm.memoryGasCost at hcost ⊢
  simp only [h.length_eq, h.lastGasCost] at hcost
  simp only
  split_ifs at hcost ⊢
  · cases hcost
    exact ⟨mem, rfl, h⟩
  · cases hcost
    exact ⟨_, rfl, h.length_eq, rfl⟩
  · cases hcost
    exact ⟨mem, rfl, h⟩

theorem Wrote.expand {mem' after : Memory} {memSize fee : ℕ} (h : Wrote mem mem')
    (hexpand : mem'.expand memSize = some (fee, after)) :
    ∃ before, mem.expand memSize = some (fee, before) ∧ Wrote before after := by
  obtain ⟨⟨_, paid⟩, hcost, heq⟩ := map_eq_some_iff.mp hexpand
  cases heq
  obtain ⟨before, hbefore, hwrote⟩ := h.memoryGasCost hcost
  refine ⟨_, by rw [Memory.expand, hbefore]; rfl, ?_⟩
  simp only
  split_ifs
  · exact ⟨by rw [Memory.length_resize, Memory.length_resize, hwrote.length_eq], hwrote.lastGasCost⟩
  · exact hwrote

theorem wrote_set {offset size : ℕ} (h : calcMemSize offset size ≤ mem.store.length) (value : Bytes) :
    Wrote mem (mem.set offset size value) := by
  unfold Memory.set
  split_ifs with hpos
  · rw [calcMemSize, if_neg (by omega)] at h
    refine ⟨?_, rfl⟩
    simp only [List.length_append, List.length_take, List.length_drop]
    omega
  · exact .refl _

theorem memoryNeeded_le {o : Operation} {size : Frame → ℕ} (hsize : o.memorySize = some size)
    (h : o.memoryNeeded f = some m) : size f ≤ m ∧ m = toWordSize (size f) * 32 := by
  rw [Operation.memoryNeeded, hsize] at h
  obtain ⟨n, hn, hmul⟩ := bind_eq_some_iff.mp h
  rw [bigUint64] at hn
  split_ifs at hn with hlt
  cases hn
  rw [safeMul] at hmul
  split_ifs at hmul with hword
  cases hmul
  refine ⟨?_, rfl⟩
  rw [toWordSize] at hword ⊢
  split_ifs at hword ⊢ <;> omega

theorem le_length_charge (f f' : Frame) (m c : ℕ) : m ≤ (f.charge f' m c).memory.store.length := by
  show m ≤ (if m > 0 then f'.memory.resize m else f'.memory).store.length
  split_ifs with hpos
  · rw [Memory.length_resize]
    exact Nat.le_max_right _ _
  · omega

/-! ### Rounds -/

section

variable [Keccak] [Crypto] {evm : Evm}

/-- The calls that a frame makes. A call with a value has the stipend beside the gas that is paid for it. -/
inductive Nested (evm : Evm) (s : Scope) (w : World) : ℕ → ℕ → ℕ → Entry → Prop
  | call (addr : Address) (input : Bytes) (paid value : ℕ) : Nested evm s w paid (stipendOf value) (transferGasOf value)
    (evm.call s.depth s.readOnly s.contract.self addr input (paid + stipendOf value) value w)
  | callCode (addr : Address) (input : Bytes) (paid value : ℕ) :
    Nested evm s w paid (stipendOf value) (transferGasOf value)
      (evm.callCode s.depth s.readOnly s.contract.self addr input (paid + stipendOf value) value w)
  | delegateCall (addr : Address) (input : Bytes) (paid : ℕ) : Nested evm s w paid 0 0
    (evm.delegateCall s.depth s.readOnly s.contract addr input paid w)
  | staticCall (addr : Address) (input : Bytes) (paid : ℕ) : Nested evm s w paid 0 0
    (evm.staticCall s.depth s.contract.self addr input paid w)
  | create (code : Bytes) (paid value : ℕ) : Nested evm s w paid 0 0
    (evm.create s.depth s.readOnly s.contract.self code paid value w)

/-- The accounts of a round: the memory is expanded for a fee, and what goes on has paid. -/
inductive Spends (evm : Evm) (f : Frame) : Outcome → Prop
  | halt {r : Result} (hgas : r.gas ≤ f.gas) : Spends evm f (.halt r)
  | next {f' : Frame} {memSize fee : ℕ} {mem : Memory} (hexpand : f.memory.expand memSize = some (fee, mem))
    (hwrote : Wrote mem f'.memory) (hgas : f'.gas + fee ≤ f.gas) : Spends evm f (.next f')
  | spawn {entry : Entry} {resume : Result → Frame} {paid stipend transferGas memSize fee : ℕ} {mem : Memory}
    (hnested : Nested evm f.scope f.world paid stipend transferGas entry)
    (hexpand : f.memory.expand memSize = some (fee, mem)) (hwrote : ∀ r, Wrote mem (resume r).memory)
    (hgas : ∀ r, (resume r).gas + paid + transferGas + fee ≤ f.gas + r.gas) : Spends evm f (.spawn entry resume)

/-- What an instruction that does not call does to its memory and its gas. -/
def Keeps (g : Frame) : Executed → Prop
  | .done g' _ => Wrote g.memory g'.memory ∧ g'.gas = g.gas
  | .error _ => True
  | .spawn _ _ => False

variable {g : Frame} {n gas : ℕ} {o : Operation} {entry : Entry}

omit [Keccak] [Crypto] in
theorem keeps_copyToMemory {offset size : ℕ} (h : calcMemSize offset size ≤ g.memory.store.length)
    (value : Bytes) : Keeps g (copyToMemory n offset size value g) := ⟨wrote_set h value, rfl⟩

omit [Keccak] [Crypto] in
theorem keeps_jumpTo (g : Frame) (n pos : ℕ) : Keeps g (jumpTo n pos g) := by
  rw [jumpTo]
  split
  · exact ⟨.refl _, rfl⟩
  · trivial

theorem execute_keeps (evm : Evm) {op : OpCode} (hcalls : op.calls = false)
    (hsize : ∀ size, (operation evm op).memorySize = some size → size g ≤ g.memory.store.length) :
    Keeps g ((operation evm op).execute g) := by
  have hquiet (g' : Frame) (res : Bytes) (hmemory : g'.memory = g.memory) (hgas : g'.gas = g.gas) :
      Keeps g (.done g' res) := ⟨hmemory ▸ .refl _, hgas⟩
  cases op with
  | create | call | callCode | delegateCall | staticCall => cases hcalls
  | callDataCopy | codeCopy | extCodeCopy | mstore | mstore8 => exact keeps_copyToMemory (hsize _ rfl) _
  | returnDataCopy =>
    show Keeps g (opReturnDataCopy g)
    simp only [opReturnDataCopy]
    split
    · trivial
    · exact keeps_copyToMemory (hsize _ rfl) _
  | signExtend =>
    show Keeps g (opSignExtend g)
    rw [opSignExtend]
    split <;> exact hquiet _ _ rfl rfl
  | jump => exact keeps_jumpTo g 1 _
  | jumpi =>
    show Keeps g (opJumpi g)
    rw [opJumpi]
    split
    · exact keeps_jumpTo g 2 _
    · exact hquiet _ _ rfl rfl
  | _ => exact hquiet _ _ rfl rfl

omit [Keccak] [Crypto] in
theorem expand_charge {rest : ℕ} (hneeded : o.memoryNeeded f = some m) (hpays : PaysMemory f f' m rest c) :
    ∃ memSize fee, f.memory.expand memSize = some (fee, (f.charge f' m c).memory) ∧ fee + rest ≤ c := by
  obtain ⟨memSize, hm⟩ : ∃ memSize, m = toWordSize memSize * 32 := by
    cases hsize : o.memorySize with
    | none =>
      rw [Operation.memoryNeeded, hsize] at hneeded
      exact ⟨0, (some.inj hneeded).symm⟩
    | some size => exact ⟨size f, (memoryNeeded_le hsize hneeded).2⟩
  obtain ⟨fee, hcost, hfee⟩ := hpays
  refine ⟨memSize, fee, ?_, hfee⟩
  rw [Memory.expand, ← hm, hcost]
  rfl

theorem memorySize_congr (evm : Evm) (op : OpCode) {size : Frame → ℕ} (h : (operation evm op).memorySize = some size)
    (hstack : g.stack = f.stack) : size g = size f := by
  cases op <;> cases h <;> simp only [memoryPiece, memoryCell, memoryCall, memoryDelegateCall, Frame.back, hstack]

theorem Keeps.spends {ex : Executed} {memSize fee : ℕ}
    (hkeeps : Keeps (f.charge f' m c) ex) (hexpand : f.memory.expand memSize = some (fee, (f.charge f' m c).memory))
    (hfee : fee ≤ c) (hle : c ≤ f.gas) : Spends evm f (o.finish (f.charge f' m c) ex) := by
  have hgas : (f.charge f' m c).gas = f.gas - c := rfl
  cases ex with
  | error => exact .halt (by simp [hgas])
  | spawn => exact hkeeps.elim
  | done =>
    obtain ⟨hwrote, hsame⟩ := hkeeps
    simp only [Operation.finish]
    split_ifs
    · exact .halt (by simp; omega)
    · exact .halt (by simp; omega)
    · exact .next hexpand hwrote (by simp only [Operation.advance]; omega)

theorem gasForCall_spends {base paid stipend transferGas off size : ℕ}
    (hneeded : o.memoryNeeded f = some m) (hcost : gasForCall base f m = some (c, f')) (hle : c ≤ f.gas)
    (hnested : Nested evm (f.charge f' m c).scope (f.charge f' m c).world paid stipend transferGas entry)
    (hpaid : paid ≤ (f.charge f' m c).back 0) (htransfer : transferGas ≤ base) (hsize : calcMemSize off size ≤ m) :
    Spends evm f (o.finish (f.charge f' m c) (.spawn entry ((f.charge f' m c).resume n off size))) := by
  obtain ⟨hpays, -, hscope, hworld⟩ := gasForCall_charge hcost rfl
  obtain ⟨memSize, fee, hexpand, hfee⟩ := expand_charge hneeded hpays
  rw [hscope, hworld] at hnested
  refine .spawn hnested hexpand (fun r => ?_) fun r => ?_
  · show Wrote _ (if r.err = none ∨ r.err = some .errExecutionReverted then _ else _)
    split_ifs
    · exact wrote_set (hsize.trans (le_length_charge f f' m c)) _
    · exact .refl _
  · show f.gas - c + r.gas + paid + transferGas + fee ≤ f.gas + r.gas
    omega

omit [Keccak] [Crypto] in
/-- The transfer is charged for the value on the stack, of which the call has the low 256 bits. -/
theorem transferGasOf_u256_le (value : ℕ) : transferGasOf (u256 value) ≤ if value ≠ 0 then 9000 else 0 := by
  by_cases hvalue : value = 0
  · subst hvalue
    decide
  · rw [if_pos hvalue, transferGasOf, callValueTransferGas]
    split <;> omega

theorem stepOp_spends (evm : Evm) (op : OpCode) (f : Frame) : Spends evm f (evm.stepOp op f) := by
  rcases stepOp_charged evm op f with ⟨w, err, -, hstep⟩ | ⟨m, c, f', hneeded, hcost, hle, -, hstep⟩
  · rw [hstep]
    exact .halt le_rfl
  rw [hstep]
  have hpayment := gasCost_pays evm op hcost
  have hmod (n : ℕ) : uint64 n ≤ n := Nat.mod_le _ _
  cases hcalls : op.calls with
  | false =>
    obtain ⟨memSize, fee, hexpand, hfee⟩ := expand_charge hneeded (hpayment.memory hneeded)
    refine (execute_keeps evm hcalls fun size hsize => ?_).spends hexpand (by omega) hle
    have hstack : (f.charge f' m c).stack = f.stack := hpayment.stack hcalls
    rw [memorySize_congr evm op hsize hstack]
    exact (memoryNeeded_le hsize hneeded).1.trans (le_length_charge f f' m c)
  | true =>
    cases op with
    | call =>
      obtain ⟨-, hback, -⟩ := gasForCall_charge hcost rfl
      have htransfer := transferGasOf_u256_le (f.back 2)
      refine gasForCall_spends hneeded hcost hle (.call _ _ _ _) (hmod _) ?_ ?_
      · rw [hback 1]
        show transferGasOf (u256 (f.back 2)) ≤ _
        omega
      · rw [hback 4, hback 5]
        exact (Nat.le_max_left _ _).trans (memoryNeeded_le rfl hneeded).1
    | callCode =>
      obtain ⟨-, hback, -⟩ := gasForCall_charge hcost rfl
      have htransfer := transferGasOf_u256_le (f.back 2)
      refine gasForCall_spends hneeded hcost hle (.callCode _ _ _ _) (hmod _) ?_ ?_
      · rw [hback 1]
        show transferGasOf (u256 (f.back 2)) ≤ _
        omega
      · rw [hback 4, hback 5]
        exact (Nat.le_max_left _ _).trans (memoryNeeded_le rfl hneeded).1
    | delegateCall =>
      obtain ⟨-, hback, -⟩ := gasForCall_charge hcost rfl
      refine gasForCall_spends hneeded hcost hle (.delegateCall _ _ _) (hmod _) (Nat.zero_le _) ?_
      rw [hback 3, hback 4]
      exact (Nat.le_max_left _ _).trans (memoryNeeded_le rfl hneeded).1
    | staticCall =>
      obtain ⟨-, hback, -⟩ := gasForCall_charge hcost rfl
      refine gasForCall_spends hneeded hcost hle (.staticCall _ _ _) (hmod _) (Nat.zero_le _) ?_
      rw [hback 3, hback 4]
      exact (Nat.le_max_left _ _).trans (memoryNeeded_le rfl hneeded).1
    | create =>
      obtain ⟨hpays, memory, rfl⟩ := gasMemory_eq hcost
      obtain ⟨memSize, fee, hexpand, hfee⟩ := expand_charge hneeded hpays
      generalize hg : f.charge { f with memory } m c = g at hexpand ⊢
      have hscope : g.scope = f.scope := hg ▸ rfl
      have hworld : g.world = f.world := hg ▸ rfl
      have hgas : g.gas = f.gas - c := hg ▸ rfl
      have hnested (code : Bytes) (value : ℕ) : Nested evm f.scope f.world (g.gas - g.gas / 64) 0 0
          (evm.create g.scope.depth g.scope.readOnly g.self code (g.gas - g.gas / 64) value g.world) := by
        rw [← hscope, ← hworld]
        exact .create code _ value
      refine .spawn (hnested _ _) hexpand (fun r => .refl _) fun r => ?_
      show g.gas - (g.gas - g.gas / 64) + r.gas + (g.gas - g.gas / 64) + 0 + fee ≤ f.gas + r.gas
      omega
    | _ => cases hcalls

theorem step_spends (evm : Evm) (f : Frame) : Spends evm f (evm.step f) := by
  simp only [Evm.step]
  split
  · exact .halt le_rfl
  · exact stepOp_spends evm _ f

/-! ### Runs -/

/-- The frames that a frame becomes. -/
inductive Reaches (evm : Evm) : Frame → Frame → Prop
  | refl (f : Frame) : Reaches evm f f
  | next {f f₁ f₂ : Frame} (h : Reaches evm f f₁) (hstep : evm.step f₁ = .next f₂) : Reaches evm f f₂
  | resume {f f₁ : Frame} {entry : Entry} {resume : Result → Frame} {n : ℕ} {r : Result} (h : Reaches evm f f₁)
    (hstep : evm.step f₁ = .spawn entry resume) (hr : evm.finish n entry = some r) : Reaches evm f (resume r)

theorem Nested.within {s : Scope} {w : World} {paid stipend transferGas : ℕ}
    (h : Nested evm s w paid stipend transferGas entry) : entry.Within (paid + stipend) ∧ stipend ≤ transferGas := by
  cases h with
  | call _ _ _ value => exact ⟨within_call evm _ _ _ _ _ _ _ _, stipendOf_le value⟩
  | callCode _ _ _ value => exact ⟨within_callCode evm _ _ _ _ _ _ _ _, stipendOf_le value⟩
  | delegateCall => exact ⟨within_delegateCall evm _ _ _ _ _ _ _, le_rfl⟩
  | staticCall => exact ⟨within_staticCall evm _ _ _ _ _ _, le_rfl⟩
  | create => exact ⟨within_create evm _ _ _ _ _ _ _, le_rfl⟩

theorem finish_mono {k : ℕ} {r : Result} (h : evm.finish n entry = some r) (hle : n ≤ k) :
    evm.finish k entry = some r := by
  cases entry with
  | done => exact h
  | run =>
    obtain ⟨r₀, hloop, rfl⟩ := map_eq_some_iff.mp h
    rw [Evm.finish, loop_mono hloop hle, map_some]

theorem Entry.Within.finish_le {r : Result} (h : entry.Within gas)
    (hr : evm.finish n entry = some r) : r.gas ≤ gas := by
  obtain ⟨r', hr', hle⟩ := h.finish_isSome evm
  have hbefore := finish_mono hr (Nat.le_max_left n (gas + 1))
  have hafter := finish_mono hr' (Nat.le_max_right n (gas + 1))
  cases hbefore.symm.trans hafter
  exact hle

theorem Entry.Within.ends (h : entry.Within gas) : ∃ r, r.gas ≤ gas ∧ ∀ n > gas, evm.finish n entry = some r := by
  obtain ⟨r, hr, hle⟩ := h.finish_isSome evm
  exact ⟨r, hle, fun n hn => finish_mono hr hn⟩

/-- The fees of the memory of a frame add up along its run, and it has paid them. -/
theorem reaches_expandAll {scope : Scope} {w : World} (h : Reaches evm (.start scope gas w) f) :
    ∃ sizes total mem, Memory.expandAll ⟨[], 0⟩ sizes = some (total, mem) ∧ Wrote mem f.memory ∧
      f.gas + total ≤ gas := by
  generalize hstart : Frame.start scope gas w = f₀ at h
  -- one round more, of which the memory was expanded and the fee paid
  have hround {f₁ f₂ : Frame} {memSize fee : ℕ} {mem' : Memory} (hexpand : f₁.memory.expand memSize = some (fee, mem'))
      (hwrote : Wrote mem' f₂.memory) (hgas : f₂.gas + fee ≤ f₁.gas)
      (hbefore : ∃ sizes total mem, Memory.expandAll ⟨[], 0⟩ sizes = some (total, mem) ∧ Wrote mem f₁.memory ∧
        f₁.gas + total ≤ gas) : ∃ sizes total mem, Memory.expandAll ⟨[], 0⟩ sizes = some (total, mem) ∧
          Wrote mem f₂.memory ∧ f₂.gas + total ≤ gas := by
    obtain ⟨sizes, total, mem, hall, hsame, hle⟩ := hbefore
    obtain ⟨mem₁, hexpand, hwrote₁⟩ := hsame.expand hexpand
    refine ⟨sizes ++ [memSize], total + fee, mem₁, ?_, hwrote₁.trans hwrote, by omega⟩
    rw [Memory.expandAll_append hall, hexpand]
    rfl
  induction h with
  | refl =>
    subst hstart
    exact ⟨[], 0, ⟨[], 0⟩, rfl, .refl _, le_rfl⟩
  | @next f₁ f₂ h hstep ih =>
    have hspends := step_spends evm f₁
    rw [hstep] at hspends
    cases hspends with
    | next hexpand hwrote hgas => exact hround hexpand hwrote hgas ih
  | @resume f₁ entry resume n r h hstep hr ih =>
    have hspends := step_spends evm f₁
    rw [hstep] at hspends
    cases hspends with
    | spawn hnested hexpand hwrote hgas =>
      obtain ⟨hwithin, hstipend⟩ := hnested.within
      have hback := hwithin.finish_le hr
      have hpaid := hgas r
      exact hround hexpand (hwrote r) (by omega) ih

/-- **Gas is never created.** Every call ends and returns no more gas than it was given. A call that a frame makes is
given what the frame pays for it and, if it has a value, the stipend, which is no more than what the frame pays for the
value. -/
theorem gas_never_created (evm : Evm) : (∀ depth readOnly caller addr input gas value w, ∃ r, r.gas ≤ gas ∧ ∀ n > gas,
      evm.finish n (evm.call depth readOnly caller addr input gas value w) = some r) ∧
    (∀ depth readOnly caller addr input gas value w, ∃ r, r.gas ≤ gas ∧ ∀ n > gas,
      evm.finish n (evm.callCode depth readOnly caller addr input gas value w) = some r) ∧
    (∀ depth readOnly parent addr input gas w, ∃ r, r.gas ≤ gas ∧ ∀ n > gas,
      evm.finish n (evm.delegateCall depth readOnly parent addr input gas w) = some r) ∧
    (∀ depth caller addr input gas w, ∃ r, r.gas ≤ gas ∧ ∀ n > gas,
      evm.finish n (evm.staticCall depth caller addr input gas w) = some r) ∧
    (∀ depth readOnly caller code gas value w, ∃ r, r.gas ≤ gas ∧ ∀ n > gas,
      evm.finish n (evm.create depth readOnly caller code gas value w) = some r) ∧
    ∀ f entry resume, evm.step f = .spawn entry resume → ∃ paid stipend transferGas,
      Nested evm f.scope f.world paid stipend transferGas entry ∧ stipend ≤ transferGas ∧
      ∀ r, (resume r).gas + paid + transferGas ≤ f.gas + r.gas := by
  refine ⟨fun _ _ _ _ _ _ _ _ => (within_call evm _ _ _ _ _ _ _ _).ends,
    fun _ _ _ _ _ _ _ _ => (within_callCode evm _ _ _ _ _ _ _ _).ends,
    fun _ _ _ _ _ _ _ => (within_delegateCall evm _ _ _ _ _ _ _).ends,
    fun _ _ _ _ _ _ => (within_staticCall evm _ _ _ _ _ _).ends,
    fun _ _ _ _ _ _ _ => (within_create evm _ _ _ _ _ _ _).ends, fun f entry resume hstep => ?_⟩
  have hspends := step_spends evm f
  rw [hstep] at hspends
  cases hspends with
  | @spawn _ _ paid stipend transferGas memSize fee mem hnested hexpand hwrote hgas =>
    refine ⟨paid, stipend, transferGas, hnested, hnested.within.2, fun r => ?_⟩
    have hpaid := hgas r
    omega

end

namespace Sample

attribute [local instance] State.Sample.keccak Sample.crypto

def caller : Frame where
  scope := ⟨⟨0x11, 0x22, [0xf1], 0x22, 0⟩, [], false, 1⟩
  pc := 0
  stack := [1000, 7, 1, 0, 0, 0, 0]
  memory := ⟨[], 0⟩
  gas := 100000
  returnData := []
  world := ⟨.new (fun _ => none) fun _ => none, []⟩

theorem caller_pays : ∃ entry resume paid stipend transferGas, evm.step caller = .spawn entry resume ∧
    Nested evm caller.scope caller.world paid stipend transferGas entry ∧ stipend ≤ transferGas ∧
      ∀ r, (resume r).gas + paid + transferGas ≤ caller.gas + r.gas := by
  obtain ⟨entry, resume, hstep⟩ : ∃ entry resume, evm.step caller = .spawn entry resume := ⟨_, _, rfl⟩
  obtain ⟨paid, stipend, transferGas, hnested, hle, hgas⟩ := (gas_never_created evm).2.2.2.2.2 caller entry resume hstep
  exact ⟨entry, resume, paid, stipend, transferGas, hstep, hnested, hle, hgas⟩

end Sample

end GoWanchain.Vm
