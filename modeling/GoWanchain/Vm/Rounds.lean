import GoWanchain.State.Moves
import GoWanchain.Vm.Interpreter

/-!
# What a round of the interpreter can do

`step_round` says for every frame what the next round does: it ends the frame, it goes on with less gas and
a state in which at most the refund counter, the logs and the preimages differ, it writes a storage word or
destroys its own account, which no frame in static mode does, or it makes one of the five calls.
-/

namespace GoWanchain.Vm

open State

variable {f : Frame}

/-! ### Costs -/

theorem safeAdd_eq_some {x y z : ℕ} : safeAdd x y = some z ↔ x + y < 2 ^ 64 ∧ x + y = z := by
  unfold safeAdd
  split <;> simp_all

variable {base m c n : ℕ} {f' g : Frame}

/-- The memory is paid for, and `rest` beside it. -/
def PaysMemory (f f' : Frame) (m rest c : ℕ) : Prop :=
  ∃ fee, memoryGasCost f.memory m = some (fee, f'.memory) ∧ fee + rest ≤ c

theorem PaysMemory.mono {rest rest' : ℕ} (h : PaysMemory f f' m rest c) (hle : rest' ≤ rest) :
    PaysMemory f f' m rest' c := by
  obtain ⟨fee, hcost, hfee⟩ := h
  exact ⟨fee, hcost, by omega⟩

theorem PaysMemory.le {rest : ℕ} (h : PaysMemory f f' m rest c) : rest ≤ c := by
  obtain ⟨fee, -, hfee⟩ := h
  omega

theorem gasMemory_eq (h : gasMemory base f m = some (c, f')) :
    PaysMemory f f' m base c ∧ ∃ memory, f' = { f with memory } := by
  simp only [gasMemory, bind, Option.bind_eq_some_iff, safeAdd_eq_some] at h
  obtain ⟨⟨fee, memory⟩, hcost, gas, ⟨-, hadd⟩, hf⟩ := h
  cases hf
  exact ⟨⟨fee, hcost, by omega⟩, memory, rfl⟩

theorem gasWords_eq {price : ℕ} (h : gasWords base price n f m = some (c, f')) :
    PaysMemory f f' m base c ∧ ∃ memory, f' = { f with memory } := by
  simp only [gasWords, bind, Option.bind_eq_some_iff, safeAdd_eq_some] at h
  obtain ⟨⟨gas, f₁⟩, hmemory, words, -, wordGas, -, gas', ⟨-, hadd⟩, hf⟩ := h
  cases hf
  obtain ⟨⟨fee, hcost, hfee⟩, hf'⟩ := gasMemory_eq hmemory
  exact ⟨⟨fee, hcost, by omega⟩, hf'⟩

theorem makeGasLog_eq (h : makeGasLog n f m = some (c, f')) :
    PaysMemory f f' m 375 c ∧ ∃ memory, f' = { f with memory } := by
  simp only [makeGasLog, bind, Option.bind_eq_some_iff, safeAdd_eq_some] at h
  obtain ⟨size, -, ⟨gas, f₁⟩, hmemory, gas₁, ⟨-, h₁⟩, sizeGas, -, gas₂, ⟨-, h₂⟩, hf⟩ := h
  cases hf
  obtain ⟨⟨fee, hcost, hfee⟩, hf'⟩ := gasMemory_eq hmemory
  exact ⟨⟨fee, hcost, by omega⟩, hf'⟩

theorem gasReturn_eq (h : gasReturn f m = some (c, f')) : PaysMemory f f' m 0 c ∧ ∃ memory, f' = { f with memory } := by
  simp only [gasReturn, bind, Option.bind_eq_some_iff] at h
  obtain ⟨⟨fee, memory⟩, hcost, hf⟩ := h
  cases hf
  exact ⟨⟨fee, hcost, le_rfl⟩, memory, rfl⟩

theorem gasForCall_eq (h : gasForCall base f m = some (c, f')) :
    ∃ memory cg, f' = ({ f with memory } : Frame).replace 1 cg ∧ PaysMemory f f' m (base + cg) c := by
  simp only [gasForCall, bind, Option.bind_eq_some_iff, safeAdd_eq_some] at h
  obtain ⟨⟨gas, f₁⟩, hmemory, gas', ⟨-, hadd⟩, hf⟩ := h
  cases hf
  obtain ⟨⟨fee, hcost, hfee⟩, memory, rfl⟩ := gasMemory_eq hmemory
  refine ⟨memory, _, rfl, fee, hcost, ?_⟩
  simp only at hadd ⊢
  omega

variable [Keccak]

/-- Only the refund counter, the logs and the preimages differ. -/
structure Quiet (w w' : World) : Prop where
  accepted : w'.accepted = w.accepted
  moves : StateDB.Moves none none w.db w'.db

theorem Quiet.refl (w : World) : Quiet w w := ⟨rfl, .refl⟩

theorem Quiet.trans {w₁ w₂ w₃ : World} (h : Quiet w₁ w₂) (h' : Quiet w₂ w₃) : Quiet w₁ w₃ :=
  ⟨h'.accepted.trans h.accepted, h.moves.trans h'.moves⟩

/-- What paying for an instruction changes of a frame. -/
structure Paid (f f' : Frame) : Prop where
  scope : f'.scope = f.scope
  gas : f'.gas = f.gas
  world : Quiet f.world f'.world

theorem quiet_addRefund (w : World) (gas : ℕ) : Quiet w (w.onDB (·.addRefund gas)) :=
  ⟨rfl, StateDB.addRefund_moves w.db gas⟩

variable [Crypto] {evm : Evm}

/-- The calls that a frame can make, with the gas they are given. -/
inductive Call (evm : Evm) (s : Scope) (w : World) : ℕ → Entry → Prop
  | call (addr : Address) (input : Bytes) (gas value : ℕ) (hro : s.readOnly = true → value = 0) :
    Call evm s w gas (evm.call s.depth s.readOnly s.contract.self addr input gas value w)
  | callCode (addr : Address) (input : Bytes) (gas value : ℕ) :
    Call evm s w gas (evm.callCode s.depth s.readOnly s.contract.self addr input gas value w)
  | delegateCall (addr : Address) (input : Bytes) (gas : ℕ) :
    Call evm s w gas (evm.delegateCall s.depth s.readOnly s.contract addr input gas w)
  | staticCall (addr : Address) (input : Bytes) (gas : ℕ) :
    Call evm s w gas (evm.staticCall s.depth s.contract.self addr input gas w)
  | create (code : Bytes) (gas value : ℕ) (hro : s.readOnly = false) :
    Call evm s w gas (evm.create s.depth s.readOnly s.contract.self code gas value w)

/-- `SELFDESTRUCT` of the account `a`. -/
def World.destruct (w : World) (a beneficiary : Address) : World :=
  w.onDB fun db => ((db.addBalance beneficiary (db.getBalance a)).suicide a).1

inductive Round (evm : Evm) (f : Frame) : Outcome → Prop
  | halt {r : Result} (hgas : r.gas ≤ f.gas) (hworld : Quiet f.world r.world) : Round evm f (.halt r)
  | destruct {r : Result} {w : World} (hro : f.scope.readOnly = false) (hgas : r.gas ≤ f.gas)
    (hworld : Quiet f.world w) (beneficiary : Address) (hr : r.world = w.destruct f.self beneficiary) :
    Round evm f (.halt r)
  | next {f' : Frame} (hscope : f'.scope = f.scope) (hgas : f'.gas < f.gas)
    (hworld : Quiet f.world f'.world) : Round evm f (.next f')
  | sstore {f' : Frame} {w : World} (hro : f.scope.readOnly = false) (hscope : f'.scope = f.scope)
    (hgas : f'.gas < f.gas) (hworld : Quiet f.world w) (loc val : Hash)
    (hf : f'.world = w.onDB (·.setState f.self loc val)) : Round evm f (.next f')
  | spawn {entry : Entry} {resume : Result → Frame} {gas : ℕ}
    (hcall : Call evm f.scope f.world gas entry) (hgas : gas < f.gas)
    (hscope : ∀ r, (resume r).scope = f.scope) (hworld : ∀ r, (resume r).world = r.world)
    (hresume : ∀ r, r.gas ≤ gas → (resume r).gas < f.gas) : Round evm f (.spawn entry resume)

/-! ### Instructions -/

/-- The instructions that make a call. -/
def OpCode.calls : OpCode → Bool
  | .create | .call | .callCode | .delegateCall | .staticCall => true
  | _ => false

/-- What paying for an instruction comes to. -/
structure Payment (evm : Evm) (op : OpCode) (f f' : Frame) (m c : ℕ) : Prop extends Paid f f' where
  pc : f'.pc = f.pc
  stack : op.calls = false → f'.stack = f.stack
  memory : (operation evm op).memoryNeeded f = some m → PaysMemory f f' m 0 c
  cost : 1 ≤ c ∨ (operation evm op).halts = true ∨ (operation evm op).reverts = true

variable {op : OpCode}

theorem Payment.of_memory (h : PaysMemory f f' m base c ∧ ∃ memory, f' = { f with memory })
    (hcost : 1 ≤ base ∨ (operation evm op).halts = true ∨ (operation evm op).reverts = true) :
    Payment evm op f f' m c := by
  obtain ⟨hpays, memory, rfl⟩ := h
  exact ⟨⟨rfl, rfl, .refl _⟩, rfl, fun _ => rfl, fun _ => hpays.mono (Nat.zero_le _), hcost.imp_left hpays.le.trans'⟩

theorem Payment.of_call (h : gasForCall base f m = some (c, f')) (hbase : 1 ≤ base) (hcalls : op.calls = true) :
    Payment evm op f f' m c := by
  obtain ⟨memory, cg, rfl, hpays⟩ := gasForCall_eq h
  have hle := hpays.le
  refine ⟨⟨rfl, rfl, .refl _⟩, rfl, fun h => ?_, fun _ => hpays.mono (Nat.zero_le _), .inl (by omega)⟩
  simp [h] at hcalls

/-- The instructions that need no memory. -/
theorem Payment.of_none {w : World} (hsize : (operation evm op).memorySize = none) (hw : Quiet f.world w)
    (hcost : 1 ≤ c ∨ (operation evm op).halts = true ∨ (operation evm op).reverts = true) :
    Payment evm op f { f with world := w } m c := by
  refine ⟨⟨rfl, rfl, hw⟩, rfl, fun _ => rfl, fun hneeded => ?_, hcost⟩
  rw [Operation.memoryNeeded, hsize] at hneeded
  cases hneeded
  exact ⟨0, rfl, Nat.zero_le _⟩

theorem gasCost_pays (evm : Evm) (op : OpCode) (h : (operation evm op).gasCost f m = some (c, f')) :
    Payment evm op f f' m c := by
  cases op with
  | exp =>
    obtain ⟨gas, hgas, hf⟩ := Option.bind_eq_some_iff.mp h
    cases hf
    exact .of_none rfl (.refl _) (.inl (by have := (safeAdd_eq_some.mp hgas).2; omega))
  | sstore =>
    change gasSStore f m = some (c, f') at h
    simp only [gasSStore] at h
    split_ifs at h
    · cases h
      exact .of_none rfl (.refl _) (.inl (by norm_num))
    · cases h
      exact .of_none rfl (quiet_addRefund _ _) (.inl (by norm_num))
    · cases h
      exact .of_none rfl (.refl _) (.inl (by norm_num))
  | selfdestruct =>
    change gasSuicide f m = some (c, f') at h
    unfold gasSuicide at h
    by_cases hs : f.world.db.hasSuicided f.self = true
    · rw [if_pos hs] at h
      cases h
      exact .of_none rfl (.refl _) (.inr (.inl rfl))
    · rw [if_neg hs] at h
      cases h
      exact .of_none rfl (quiet_addRefund _ _) (.inr (.inl rfl))
  | sha3 | callDataCopy | codeCopy | extCodeCopy | returnDataCopy =>
    exact .of_memory (gasWords_eq h) (.inl (by norm_num))
  | mload | mstore | mstore8 | create => exact .of_memory (gasMemory_eq h) (.inl (by norm_num))
  | log => exact .of_memory (makeGasLog_eq h) (.inl (by norm_num))
  | call | callCode => exact .of_call h (by omega) rfl
  | delegateCall | staticCall => exact .of_call h (by norm_num) rfl
  | returns => exact .of_memory (gasReturn_eq h) (.inr (.inl rfl))
  | revert => exact .of_memory (gasReturn_eq h) (.inr (.inr rfl))
  | stop =>
    cases h
    exact .of_none rfl (.refl _) (.inr (.inl rfl))
  | _ =>
    cases h
    exact .of_none rfl (.refl _) (.inl (by norm_num))

/-- What an instruction that does not call does to its frame. -/
inductive Does (o : Operation) (f : Frame) : Executed → Prop
  | error (err : VmError) : Does o f (.error err)
  | quiet {f' : Frame} {res : Bytes} (hscope : f'.scope = f.scope) (hgas : f'.gas = f.gas)
    (hworld : Quiet f.world f'.world) : Does o f (.done f' res)
  | sstore {f' : Frame} {res : Bytes} (hro : f.scope.readOnly = false) (hreverts : o.reverts = false)
    (hhalts : o.halts = false) (hscope : f'.scope = f.scope) (hgas : f'.gas = f.gas) (loc val : Hash)
    (hworld : f'.world = f.world.onDB (·.setState f.self loc val)) : Does o f (.done f' res)
  | destruct {f' : Frame} {res : Bytes} (hro : f.scope.readOnly = false) (hreverts : o.reverts = false)
    (hhalts : o.halts = true) (hgas : f'.gas = f.gas) (beneficiary : Address)
    (hworld : f'.world = f.world.destruct f.self beneficiary) : Does o f (.done f' res)

omit [Crypto] in
theorem jumpTo_does (o : Operation) (f : Frame) (n pos : ℕ) : Does o f (jumpTo n pos f) := by
  rw [jumpTo]
  split
  · exact .quiet rfl rfl (.refl _)
  · exact .error _

theorem execute_does (evm : Evm) {op : OpCode} (hcalls : op.calls = false)
    (hro : f.scope.readOnly = true → (operation evm op).writes = false) :
    Does (operation evm op) f ((operation evm op).execute f) := by
  have hwrites (h : (operation evm op).writes = true) : f.scope.readOnly = false := by
    cases hr : f.scope.readOnly with
    | false => rfl
    | true => exact absurd (hro hr) (by simp [h])
  cases op with
  | create | call | callCode | delegateCall | staticCall => cases hcalls
  | sstore => exact .sstore (hwrites rfl) rfl rfl rfl rfl _ _ rfl
  | selfdestruct => exact .destruct (hwrites rfl) rfl rfl rfl _ rfl
  | log => exact .quiet rfl rfl ⟨rfl, StateDB.addLog_moves f.world.db _⟩
  | sha3 =>
    refine .quiet rfl rfl ?_
    show Quiet f.world (if _ then _ else _)
    split
    · exact ⟨rfl, StateDB.addPreimage_moves f.world.db _ _⟩
    · exact .refl _
  | signExtend =>
    show Does _ f (opSignExtend f)
    rw [opSignExtend]
    split <;> exact .quiet rfl rfl (.refl _)
  | returnDataCopy =>
    show Does _ f (opReturnDataCopy f)
    simp only [opReturnDataCopy]
    split
    · exact .error _
    · exact .quiet rfl rfl (.refl _)
  | jump => exact jumpTo_does _ f 1 (f.back 0)
  | jumpi =>
    show Does _ f (opJumpi f)
    rw [opJumpi]
    split
    · exact jumpTo_does _ f 2 (f.back 0)
    · exact .quiet rfl rfl (.refl _)
  | _ => exact .quiet rfl rfl (.refl _)

/-! ### Rounds -/

/-- The frame in which an instruction is executed, after `c` was paid and the memory has `m` bytes. -/
def Frame.charge (f f' : Frame) (m c : ℕ) : Frame :=
  { f' with gas := f.gas - c, memory := if m > 0 then f'.memory.resize m else f'.memory }

/-- A round fails, or the instruction is paid for and executed. -/
theorem stepOp_charged (evm : Evm) (op : OpCode) (f : Frame) :
    (∃ w err, Quiet f.world w ∧ evm.stepOp op f = .halt ⟨[], f.gas, some err, w⟩) ∨
      ∃ m c f', (operation evm op).memoryNeeded f = some m ∧ (operation evm op).gasCost f m = some (c, f') ∧
        c ≤ f.gas ∧ (f.scope.readOnly = true → (operation evm op).writes = false ∧ (op = .call → f.back 2 = 0)) ∧
        evm.stepOp op f =
          (operation evm op).finish (f.charge f' m c) ((operation evm op).execute (f.charge f' m c)) := by
  have hstop (err : VmError) : ∃ w err', Quiet f.world w ∧ f.fail err = .halt ⟨[], f.gas, some err', w⟩ :=
    ⟨_, _, .refl _, rfl⟩
  simp only [Evm.stepOp]
  split_ifs with hunder hlimit hrestricted
  · exact .inl (hstop _)
  · exact .inl (hstop _)
  · exact .inl (hstop _)
  split
  · exact .inl (hstop _)
  split
  · exact .inl (hstop _)
  rename_i m hneeded _ c f' hcost
  split
  · rename_i hle
    refine .inr ⟨m, c, f', hneeded, hcost, hle, fun hro => ?_, rfl⟩
    simp only [Evm.enforceRestrictions, hro, Bool.true_and, Bool.or_eq_true, Bool.and_eq_true, beq_iff_eq,
      bne_iff_ne, not_or, not_and, Bool.not_eq_true, Decidable.not_not] at hrestricted
    exact hrestricted
  · have hpays := gasCost_pays evm op hcost
    exact .inl ⟨_, _, hpays.world, by rw [Frame.fail, hpays.gas]⟩

theorem Does.round {o : Operation} {f : Frame} {ex : Executed} (hdoes : Does o g ex)
    (hscope : g.scope = f.scope) (hworld : Quiet f.world g.world) (hgas : g.gas + c = f.gas)
    (hcost : 1 ≤ c ∨ o.halts = true ∨ o.reverts = true) : Round evm f (o.finish g ex) := by
  cases hdoes with
  | error => exact .halt (by simp; omega) hworld
  | @quiet f' res hs hg hw =>
    simp only [Operation.finish]
    split_ifs with hreverts hhalts
    · exact .halt (by simp; omega) (hworld.trans hw)
    · exact .halt (by simp; omega) (hworld.trans hw)
    · have hpos : 1 ≤ c := by simpa [hreverts, hhalts] using hcost
      exact .next (hs.trans hscope) (by simp [Operation.advance]; omega) (hworld.trans hw)
  | @sstore f' res hro hreverts hhalts hs hg loc val hw =>
    have hpos : 1 ≤ c := by simpa [hreverts, hhalts] using hcost
    simp only [Operation.finish, hreverts, hhalts, Bool.false_eq_true, if_false]
    refine .sstore (hscope ▸ hro) (hs.trans hscope) (by simp [Operation.advance]; omega) hworld loc val ?_
    rw [Frame.self, ← hscope]
    exact hw
  | @destruct f' res hro hreverts hhalts hg beneficiary hw =>
    simp only [Operation.finish, hreverts, hhalts, Bool.false_eq_true, if_false, if_true]
    refine .destruct (hscope ▸ hro) (by simp; omega) hworld beneficiary ?_
    rw [Frame.self, ← hscope]
    exact hw

omit [Keccak] [Crypto] in
theorem Frame.gasWithStipend_lt {value : ℕ} (hbase : 700 ≤ base)
    (hvalue : value ≠ 0 → 9000 ≤ base) (hle : base + g.back 0 ≤ c) : g.gasWithStipend value < c := by
  have hcg : uint64 (g.back 0) ≤ g.back 0 := Nat.mod_le _ _
  rw [Frame.gasWithStipend, callStipend]
  split
  · have := hvalue ‹_›
    omega
  · omega

omit [Keccak] [Crypto] in
/-- What a call finds after the payment: its gas is on the stack, and all else as it was. -/
theorem gasForCall_charge (h : gasForCall base f m = some (c, f')) (hg : f.charge f' m c = g) :
    PaysMemory f f' m (base + g.back 0) c ∧ (∀ n, g.back (n + 1) = f.back (n + 1)) ∧ g.scope = f.scope ∧
      g.world = f.world := by
  obtain ⟨memory, cg, rfl, hpays⟩ := gasForCall_eq h
  subst hg
  exact ⟨hpays, fun n => by simp [Frame.back, Frame.charge, Frame.replace], rfl, rfl⟩

theorem resume_round {o : Operation} {gas off size : ℕ} {entry : Entry}
    (hcall : Call evm f.scope f.world gas entry) (hlt : gas < c) (hc : g.gas + c = f.gas)
    (hscope : g.scope = f.scope) : Round evm f (o.finish g (.spawn entry (g.resume n off size))) := by
  refine .spawn hcall (by omega) (fun _ => hscope) (fun _ => rfl) fun r hr => ?_
  show g.gas + r.gas < f.gas
  omega

theorem stepOp_round (evm : Evm) (op : OpCode) (f : Frame) : Round evm f (evm.stepOp op f) := by
  rcases stepOp_charged evm op f with ⟨w, err, hw, hstep⟩ | ⟨m, c, f', -, hcost, hle, hro, hstep⟩
  · rw [hstep]
    exact .halt le_rfl hw
  have hpays := gasCost_pays evm op hcost
  obtain ⟨g, hg⟩ : ∃ g, f.charge f' m c = g := ⟨_, rfl⟩
  have hgf : g.scope = f.scope := hg ▸ hpays.scope
  have hgas : g.gas + c = f.gas := hg ▸ Nat.sub_add_cancel hle
  rw [hstep, hg]
  cases hcalls : op.calls with
  | false =>
    refine (execute_does evm hcalls fun hr => ?_).round hgf (hg ▸ hpays.world) hgas hpays.cost
    exact (hro (hgf ▸ hr)).1
  | true =>
    have hnonzero : u256 (f.back 2) ≠ 0 → f.back 2 ≠ 0 := fun hv h0 => hv (by rw [h0]; rfl)
    cases op with
    | call =>
      obtain ⟨hcall, hback, -, hworld⟩ := gasForCall_charge hcost hg
      have hlt : g.gasWithStipend (u256 (g.back 2)) < c := by
        refine Frame.gasWithStipend_lt (by omega) (fun hv => ?_) hcall.le
        rw [if_pos (hnonzero (hback 1 ▸ hv))]
        omega
      refine resume_round (hgf ▸ hworld ▸ .call _ _ _ _ fun hr => ?_) hlt hgas hgf
      rw [hback 1, (hro (hgf ▸ hr)).2 rfl]
      rfl
    | callCode =>
      obtain ⟨hcall, hback, -, hworld⟩ := gasForCall_charge hcost hg
      have hlt : g.gasWithStipend (u256 (g.back 2)) < c := by
        refine Frame.gasWithStipend_lt (by omega) (fun hv => ?_) hcall.le
        rw [if_pos (hnonzero (hback 1 ▸ hv))]
        omega
      exact resume_round (hgf ▸ hworld ▸ .callCode _ _ _ _) hlt hgas hgf
    | delegateCall =>
      obtain ⟨hcall, -, -, hworld⟩ := gasForCall_charge hcost hg
      have hlt : uint64 (g.back 0) < c := (Nat.mod_le _ _).trans_lt (by have := hcall.le; omega)
      exact resume_round (hgf ▸ hworld ▸ .delegateCall _ _ _) hlt hgas hgf
    | staticCall =>
      obtain ⟨hcall, -, -, hworld⟩ := gasForCall_charge hcost hg
      have hlt : uint64 (g.back 0) < c := (Nat.mod_le _ _).trans_lt (by have := hcall.le; omega)
      exact resume_round (hgf ▸ hworld ▸ .staticCall _ _ _) hlt hgas hgf
    | create =>
      obtain ⟨hmem, memory, rfl⟩ := gasMemory_eq hcost
      have hle' := hmem.le
      have hworld : g.world = f.world := hg ▸ rfl
      have hwrites : g.scope.readOnly = false := by
        cases hr : g.scope.readOnly with
        | false => rfl
        | true => exact Bool.noConfusion ((hro (hgf ▸ hr)).1 : true = false)
      have hcall : ∀ code value, Call evm f.scope f.world (g.gas - g.gas / 64)
          (evm.create g.scope.depth g.scope.readOnly g.self code (g.gas - g.gas / 64) value g.world) :=
        fun code value => hgf ▸ hworld ▸ .create code _ value hwrites
      refine .spawn (hcall _ _) (by omega) (fun _ => hgf) (fun _ => rfl) fun r hr => ?_
      show g.gas - (g.gas - g.gas / 64) + r.gas < f.gas
      omega
    | _ => cases hcalls

theorem step_round (evm : Evm) (f : Frame) : Round evm f (evm.step f) := by
  simp only [Evm.step]
  split
  · exact .halt le_rfl (.refl _)
  · exact stepOp_round evm _ f

end GoWanchain.Vm
