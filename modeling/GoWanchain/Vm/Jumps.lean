import GoWanchain.Vm.GasFlow
import Mathlib.Data.Nat.Bitwise

/-!
# Jumps

`core/vm/analysis.go`: a jump may go to a `JUMPDEST`, but not to a byte of that value in the data of a `PUSH`. The
analysis goes through the code once and notes the `JUMPDEST`s in a bitmap, which is kept under the hash of the code;
the interpreter finds its way from instruction to instruction by itself (`jumps_match_decoding`).
-/

namespace GoWanchain.Vm

open State List

/-! ### The analysis -/

/-- The loop of `jumpdests`, for at most so many rounds. The bytes of the bitmap are numbers. -/
def jumpdestsLoop (code : Bytes) : ℕ → ℕ → List ℕ → List ℕ
  | 0, _, m => m
  | n + 1, pc, m =>
    match code[pc]? with
    | none => m
    | some op =>
      if op = 0x5b then
        jumpdestsLoop code n (pc + 1) (m.set (pc / 8) (m.getD (pc / 8) 0 ||| 1 <<< (pc % 8)))
      else if 0x60 ≤ op ∧ op ≤ 0x7f then jumpdestsLoop code n (pc + (op.toNat - 0x60 + 1) + 1) m
      else jumpdestsLoop code n (pc + 1) m

def jumpdests (code : Bytes) : List ℕ :=
  jumpdestsLoop code code.length 0 (replicate (code.length / 8 + 1) 0)

abbrev Destinations := Hash → Option (List ℕ)

/-- `destinations.has`: the answer, and the analyses with that of the code. -/
def Destinations.has (d : Destinations) (codehash : Hash) (code : Bytes) (dest : ℕ) : Bool × Destinations :=
  let udest := uint64 dest
  if 2 ^ 62 ≤ dest ∨ code.length ≤ udest then (false, d)
  else
    let m := (d codehash).getD (jumpdests code)
    (m.getD (udest / 8) 0 &&& 1 <<< (udest % 8) != 0, Function.update d codehash (some m))

/-- How many bytes of data there are behind an opcode. -/
def pushSize (op : UInt8) : ℕ := if 0x60 ≤ op ∧ op ≤ 0x7f then op.toNat - 0x5f else 0

/-- The boundaries of the linear decoding, in which `PUSHn` has `n` bytes of data. Behind the code there is `STOP`. -/
inductive Boundary (code : Bytes) : ℕ → Prop
  | zero : Boundary code 0
  | next {p : ℕ} (h : Boundary code p) : Boundary code (p + 1 + pushSize (code.getD p 0))

/-- A `JUMPDEST` at a boundary. -/
def Target (code : Bytes) (dest : ℕ) : Prop := Boundary code dest ∧ code[dest]? = some 0x5b

variable {code : Bytes} {p q n i dest : ℕ} {op b : UInt8}

theorem Boundary.le (hp : Boundary code p) (hq : Boundary code q) (hlt : p < q) :
    p + 1 + pushSize (code.getD p 0) ≤ q := by
  induction q using Nat.strong_induction_on generalizing p with
  | _ _ ih =>
    cases hq with
    | zero => omega
    | @next q' hq' =>
      rcases Nat.lt_trichotomy p q' with h | rfl | h
      · have := ih q' (by omega) hp hq' h
        omega
      · exact le_rfl
      · -- `p` would be in the data behind `q'`
        have := ih p hlt hq' hp h
        omega

theorem jumpdestAt_data (code : Bytes) (data dest : ℕ) : jumpdestAt code data dest = true ↔
    data ≤ dest ∧ jumpdestAt (code.drop data) 0 (dest - data) = true := by
  induction code generalizing data dest with
  | nil => simp [jumpdestAt]
  | cons _ _ ih =>
    cases data with
    | zero => simp
    | succ data =>
      cases dest with
      | zero => simp [jumpdestAt]
      | succ dest => simp [jumpdestAt, ih data dest]

/-- The analysis finds a `JUMPDEST` at `i`, if it starts at `p`. -/
def Finds (code : Bytes) (p i : ℕ) : Prop := p ≤ i ∧ jumpdestAt (code.drop p) 0 (i - p) = true

theorem not_finds_of_none (h : code[p]? = none) : ¬ Finds code p i := by
  rw [Finds, drop_eq_nil_of_le (getElem?_eq_none_iff.mp h)]
  simp [jumpdestAt]

theorem finds_iff_of_some (h : code[p]? = some op) :
    Finds code p i ↔ i = p ∧ op = 0x5b ∨ Finds code (p + 1 + pushSize op) i := by
  obtain ⟨hlt, rfl⟩ := List.getElem?_eq_some_iff.mp h
  rw [Finds, Finds, drop_eq_getElem_cons hlt]
  rcases Nat.lt_trichotomy i p with hi | rfl | hi
  · exact iff_of_false (by omega) (by omega)
  · rw [Nat.sub_self, jumpdestAt, beq_iff_eq]
    exact ⟨fun h => .inl ⟨rfl, h.2⟩, fun h => ⟨le_rfl, (h.resolve_right (by omega)).2⟩⟩
  · obtain ⟨k, rfl⟩ := Nat.exists_eq_add_of_lt hi
    rw [Nat.add_assoc p k, Nat.add_sub_cancel_left, jumpdestAt, jumpdestAt_data, drop_drop, ← pushSize,
      show p + (k + 1) - (p + 1 + pushSize code[p]) = k - pushSize code[p] by omega]
    exact ⟨fun h => .inr ⟨by omega, h.2.2⟩, fun h => ⟨by omega, by omega, (h.resolve_left (by omega)).2⟩⟩

theorem finds_iff_of_none (h : code[p]? = none) : Finds code p i ↔ p ≤ i ∧ Target code i := by
  refine iff_of_false (not_finds_of_none h) fun ⟨hle, _, hi⟩ => ?_
  rw [getElem?_eq_none_iff.mpr ((getElem?_eq_none_iff.mp h).trans hle)] at hi
  cases hi

/-- From a boundary on, the analysis finds the targets. -/
theorem finds_iff (hp : Boundary code p) (hn : code.length ≤ p + n) : Finds code p i ↔ p ≤ i ∧ Target code i := by
  induction n generalizing p with
  | zero => exact finds_iff_of_none (getElem?_eq_none_iff.mpr hn)
  | succ _ ih =>
    cases hop : code[p]? with
    | none => exact finds_iff_of_none hop
    | some =>
      have hnext := hp.next
      rw [getD_eq_getElem?_getD, hop, Option.getD_some] at hnext
      rw [finds_iff_of_some hop, ih hnext (by omega)]
      constructor
      · rintro (⟨rfl, rfl⟩ | ⟨hle, htarget⟩)
        · exact ⟨le_rfl, hp, hop⟩
        · exact ⟨by omega, htarget⟩
      · rintro ⟨hle, htarget⟩
        rcases hle.eq_or_lt with rfl | hlt
        · exact .inl ⟨rfl, Option.some.inj (hop.symm.trans htarget.2)⟩
        · have hbehind := hp.le htarget.1 hlt
          rw [getD_eq_getElem?_getD, hop, Option.getD_some] at hbehind
          exact .inr ⟨hbehind, htarget⟩

theorem hasJumpdest_iff (hlen : code.length ≤ 2 ^ 62) : hasJumpdest code dest = true ↔ Target code dest := by
  have hfinds := finds_iff (i := dest) .zero (Nat.le_add_left code.length 0)
  rw [Finds, drop_zero] at hfinds
  rw [hasJumpdest, Bool.and_eq_true, decide_eq_true_eq]
  refine ⟨fun h => (hfinds.mp ⟨Nat.zero_le _, h.2⟩).2, fun h => ⟨?_, (hfinds.mpr ⟨Nat.zero_le _, h⟩).2⟩⟩
  exact (List.getElem?_eq_some_iff.mp h.2).1.trans_le hlen

/-! ### The bitmap -/

/-- The bit of a bitmap for a position. -/
def bit (m : List ℕ) (i : ℕ) : Bool := (m.getD (i / 8) 0).testBit (i % 8)

theorem and_one_shiftLeft (x k : ℕ) : (x &&& 1 <<< k != 0) = x.testBit k := by
  rw [Nat.one_shiftLeft, Nat.and_two_pow]
  cases x.testBit k <;> simp

theorem bit_set {m : List ℕ} (h : p / 8 < m.length) :
    bit (m.set (p / 8) (m.getD (p / 8) 0 ||| 1 <<< (p % 8))) i = true ↔ bit m i = true ∨ i = p := by
  unfold bit
  by_cases hi : i / 8 = p / 8
  · rw [hi, getD_eq_getElem?_getD, getElem?_set_self h, Option.getD_some, Nat.testBit_or, Nat.one_shiftLeft,
      Nat.testBit_two_pow, Bool.or_eq_true, decide_eq_true_eq]
    exact or_congr_right (by omega)
  · rw [getD_eq_getElem?_getD, getElem?_set_ne (Ne.symm hi), ← getD_eq_getElem?_getD]
    exact (or_iff_left (by rintro rfl; exact hi rfl)).symm

theorem bit_jumpdestsLoop {m : List ℕ} (hn : code.length ≤ p + n) (hm : code.length / 8 < m.length) :
    bit (jumpdestsLoop code n p m) i = true ↔ bit m i = true ∨ Finds code p i := by
  induction n generalizing p m with
  | zero => exact (or_iff_left (not_finds_of_none (getElem?_eq_none_iff.mpr hn))).symm
  | succ _ ih =>
    rw [jumpdestsLoop]
    cases hop : code[p]? with
    | none => exact (or_iff_left (not_finds_of_none hop)).symm
    | some op =>
      have hp : p < code.length := (List.getElem?_eq_some_iff.mp hop).1
      rw [finds_iff_of_some hop]
      simp only
      split_ifs with hdest hpush
      · subst hdest
        rw [ih (by omega) (by rwa [length_set]), bit_set (by omega)]
        simp [pushSize, or_assoc]
      · rw [ih (by omega) hm, pushSize, if_pos hpush]
        have hsize : op.toNat - 0x60 + 1 + 1 = 1 + (op.toNat - 0x5f) := by
          have hle : 0x60 ≤ op.toNat := by simpa using UInt8.le_iff_toNat_le.mp hpush.1
          omega
        rw [Nat.add_assoc, hsize, ← Nat.add_assoc]
        simp [hdest]
      · rw [ih (by omega) hm, pushSize, if_neg hpush]
        simp [hdest]

theorem bit_jumpdests : bit (jumpdests code) i = true ↔ Finds code 0 i := by
  rw [jumpdests, bit_jumpdestsLoop (by omega) (by simp)]
  refine or_iff_right ?_
  rw [bit, getD_eq_getElem?_getD, getElem?_replicate]
  split <;> simp

/-- The analyses that are kept, of the codes in `S`, are right. -/
def Destinations.Sound [Keccak] (S : Set Bytes) (d : Destinations) : Prop :=
  ∀ code ∈ S, ∀ m, d (keccak256 code) = some m → m = jumpdests code

namespace Destinations

variable [Keccak] {S : Set Bytes} {d : Destinations}

theorem Sound.getD (h : d.Sound S) (hcode : code ∈ S) :
    (d (keccak256 code)).getD (jumpdests code) = jumpdests code := by
  cases hd : d (keccak256 code) with
  | none => rfl
  | some m => exact h code hcode m hd

theorem Sound.has_iff (h : d.Sound S) (hcode : code ∈ S) :
    (d.has (keccak256 code) code dest).1 = true ↔ hasJumpdest code dest = true := by
  have hfinds : bit (jumpdests code) dest = true ↔ Finds code 0 dest := bit_jumpdests
  rw [Finds, drop_zero, Nat.sub_zero] at hfinds
  simp only [Destinations.has, hasJumpdest, h.getD hcode, Bool.and_eq_true, decide_eq_true_eq]
  split_ifs with hfar
  · refine iff_of_false (by simp) fun ⟨hsmall, hdest⟩ => ?_
    obtain ⟨-, -, htarget⟩ := (finds_iff (n := code.length) .zero (by omega)).mp ⟨Nat.zero_le dest, hdest⟩
    have hlt := (List.getElem?_eq_some_iff.mp htarget).1
    rw [uint64, Nat.mod_eq_of_lt (by omega)] at hfar
    omega
  · have hsmall : dest < 2 ^ 62 := by omega
    rw [uint64, Nat.mod_eq_of_lt (by omega), and_one_shiftLeft]
    exact hfinds.trans (and_congr_left fun _ => iff_of_true (Nat.zero_le _) hsmall)

theorem Sound.has (h : d.Sound S) (hS : S.InjOn keccak256) (hcode : code ∈ S) :
    (d.has (keccak256 code) code dest).2.Sound S := by
  simp only [Destinations.has, h.getD hcode]
  split_ifs
  · exact h
  · intro code' hcode' m hm
    by_cases heq : keccak256 code' = keccak256 code
    · obtain rfl := hS hcode' hcode heq
      simpa using hm.symm
    · exact h code' hcode' m (by simpa [heq] using hm)

end Destinations

/-! ### The interpreter -/

/-- The data behind an instruction. -/
def OpCode.data : OpCode → ℕ
  | .push n => n
  | _ => 0

theorem data_ofByte {op : OpCode} (h : OpCode.ofByte b = some op) : op.data = pushSize b := by
  have hall : ∀ n < 256, ((OpCode.ofByte (UInt8.ofNat n)).elim 0 OpCode.data) = pushSize (UInt8.ofNat n) := by
    decide +kernel
  have := hall b.toNat b.toNat_lt
  rw [UInt8.ofNat_toNat, h] at this
  exact this

/-- A frame goes on behind the instruction and its data, or at a `JUMPDEST`. -/
def Lands (g : Frame) (size : ℕ) (f : Frame) : Prop :=
  f.scope = g.scope ∧ (f.pc = g.pc + 1 + size ∨ hasJumpdest g.scope.contract.code f.pc = true)

/-- The frames with which an operation goes on land. -/
def Places (o : Operation) (g : Frame) (size : ℕ) : Executed → Prop
  | .done g' res => Lands g size (o.advance g' res)
  | .spawn _ resume => ∀ r, Lands g size (o.advance (resume r).1 (resume r).2)
  | .error _ => True

variable {f g : Frame} {scope : Scope}

theorem places_jumpTo {o : Operation} (h : o.jumps = true) (g : Frame) (n pos size : ℕ) :
    Places o g size (jumpTo n pos g) := by
  rw [jumpTo]
  split_ifs with hdest
  · refine ⟨rfl, .inr ?_⟩
    simpa [Operation.advance, h] using hdest
  · trivial

theorem Lands.boundary (h : Lands g (pushSize (g.scope.contract.getByte g.pc)) f)
    (hlen : scope.contract.code.length ≤ 2 ^ 62) (hg : g.scope = scope ∧ Boundary scope.contract.code g.pc) :
    f.scope = scope ∧ Boundary scope.contract.code f.pc := by
  obtain ⟨rfl, hboundary⟩ := hg
  obtain ⟨hscope, hpc | hdest⟩ := h
  · exact ⟨hscope, hpc ▸ hboundary.next⟩
  · exact ⟨hscope, ((hasJumpdest_iff hlen).mp hdest).1⟩

section

variable [Keccak] [Crypto] {evm : Evm}

theorem execute_places (evm : Evm) (op : OpCode) (g : Frame) :
    Places (operation evm op) g op.data ((operation evm op).execute g) := by
  cases op with
  | create | call | callCode | delegateCall | staticCall => exact fun _ => ⟨rfl, .inl rfl⟩
  | signExtend =>
    show Places _ g _ (opSignExtend g)
    rw [opSignExtend]
    split <;> exact ⟨rfl, .inl rfl⟩
  | returnDataCopy =>
    show Places _ g _ (opReturnDataCopy g)
    simp only [opReturnDataCopy]
    split
    · trivial
    · exact ⟨rfl, .inl rfl⟩
  | jump => exact places_jumpTo rfl g 1 _ 0
  | jumpi =>
    show Places _ g _ (opJumpi g)
    rw [opJumpi]
    split
    · exact places_jumpTo rfl g 2 _ 0
    · exact ⟨rfl, .inl rfl⟩
  | push => exact ⟨rfl, .inl (Nat.add_right_comm _ _ _)⟩
  | _ => exact ⟨rfl, .inl rfl⟩

/-- The frames with which a round goes on land. -/
def Goes (f : Frame) : Outcome → Prop
  | .next f' => Lands f (pushSize (f.scope.contract.getByte f.pc)) f'
  | .spawn _ resume => ∀ r, Lands f (pushSize (f.scope.contract.getByte f.pc)) (resume r)
  | .halt _ => True

theorem step_goes (evm : Evm) (f : Frame) : Goes f (evm.step f) := by
  rw [Evm.step]
  cases hop : OpCode.ofByte (f.scope.contract.getByte f.pc) with
  | none => trivial
  | some op =>
    simp only
    rcases stepOp_charged evm op f with ⟨w, err, -, hstep⟩ | ⟨m, c, f', -, hcost, -, -, hstep⟩
    · rw [hstep]
      trivial
    rw [hstep]
    have hplaces := execute_places evm op (f.charge f' m c)
    have hlands {f₁ : Frame} (h : Lands (f.charge f' m c) op.data f₁) :
        Lands f (pushSize (f.scope.contract.getByte f.pc)) f₁ := by
      have hpc : (f.charge f' m c).pc = f.pc := (gasCost_pays evm op hcost).pc
      have hscope : (f.charge f' m c).scope = f.scope := (gasCost_pays evm op hcost).scope
      rwa [Lands, hpc, hscope, data_ofByte hop] at h
    cases hex : (operation evm op).execute (f.charge f' m c) with
    | error => trivial
    | spawn =>
      rw [hex] at hplaces
      exact fun r => hlands (hplaces r)
    | done =>
      rw [hex] at hplaces
      simp only [Operation.finish]
      split_ifs
      · trivial
      · trivial
      · exact hlands hplaces

theorem reaches_boundary {gas : ℕ} {w : World} (hlen : scope.contract.code.length ≤ 2 ^ 62)
    (h : Reaches evm (.start scope gas w) f) : f.scope = scope ∧ Boundary scope.contract.code f.pc := by
  generalize hstart : Frame.start scope gas w = f₀ at h
  induction h with
  | refl => exact hstart ▸ ⟨rfl, .zero⟩
  | @next f₁ f₂ h hstep ih =>
    have hgoes := step_goes evm f₁
    rw [hstep] at hgoes
    exact hgoes.boundary hlen ih
  | @resume f₁ entry resume n r h hstep hr ih =>
    have hgoes := step_goes evm f₁
    rw [hstep] at hgoes
    exact (hgoes r).boundary hlen ih

/-- A jump to the number on top of the stack succeeds if that is a target, and fails otherwise. -/
def JumpsExactly (g : Frame) (ex : Executed) : Prop :=
  ((∃ g' res, ex = .done g' res ∧ g'.pc = g.back 0) ↔ Target g.scope.contract.code (g.back 0)) ∧
  ((∃ err, ex = .error err) ↔ ¬ Target g.scope.contract.code (g.back 0))

omit [Keccak] [Crypto] in
theorem jumpsExactly_jumpTo (hlen : g.scope.contract.code.length ≤ 2 ^ 62) (n : ℕ) :
    JumpsExactly g (jumpTo n (g.back 0) g) := by
  rw [JumpsExactly, ← hasJumpdest_iff hlen, jumpTo]
  split_ifs with hdest
  · exact ⟨iff_of_true ⟨_, _, rfl, rfl⟩ hdest, iff_of_false (by rintro ⟨_, h⟩; cases h) (not_not.mpr hdest)⟩
  · exact ⟨iff_of_false (by rintro ⟨_, _, h, _⟩; cases h) hdest, iff_of_true ⟨_, rfl⟩ hdest⟩

/-- **Jump analysis matches execution.** The interpreter is at a boundary of the linear decoding in every round. The
analysis, if no two of the codes have the same hash, has the `JUMPDEST`s at boundaries; and these are what a `JUMP` and
a `JUMPI` that is taken can go to. -/
theorem jumps_match_decoding (evm : Evm) (scope : Scope) (gas : ℕ) (w : World) (f : Frame)
    (hlen : scope.contract.code.length ≤ 2 ^ 62) (h : Reaches evm (.start scope gas w) f) :
    Boundary scope.contract.code f.pc ∧
    (∀ S (d : Destinations), S.InjOn keccak256 → scope.contract.code ∈ S → d.Sound S → ∀ dest,
      ((d.has (keccak256 scope.contract.code) scope.contract.code dest).1 = true ↔ Target scope.contract.code dest) ∧
      (d.has (keccak256 scope.contract.code) scope.contract.code dest).2.Sound S) ∧
    ∀ g : Frame, g.scope = scope → JumpsExactly g (opJump g) ∧ (g.back 1 ≠ 0 → JumpsExactly g (opJumpi g)) := by
  refine ⟨(reaches_boundary hlen h).2, fun S d hS hcode hd dest => ⟨?_, hd.has hS hcode⟩, ?_⟩
  · rw [hd.has_iff hcode, hasJumpdest_iff hlen]
  · rintro g rfl
    refine ⟨jumpsExactly_jumpTo hlen 1, fun htaken => ?_⟩
    rw [opJumpi, if_pos htaken]
    exact jumpsExactly_jumpTo hlen 2

end

namespace Sample

attribute [local instance] State.Sample.keccak Sample.crypto

/-- `PUSH1 0x5b`, `JUMPDEST`: the data is no target. -/
def pushed : Scope := ⟨⟨0x11, 0x22, [0x60, 0x5b, 0x5b], 0x22, 0⟩, [], false, 1⟩

theorem jumps_match_decoding_pushed : pushed.contract.code.length ≤ 2 ^ 62 ∧
    ∀ g : Frame, g.scope = pushed → JumpsExactly g (opJump g) ∧ (g.back 1 ≠ 0 → JumpsExactly g (opJumpi g)) :=
  ⟨by decide, (jumps_match_decoding evm pushed 0 ⟨.new (fun _ => none) fun _ => none, []⟩ _ (by decide) (.refl _)).2.2⟩

end Sample

end GoWanchain.Vm
