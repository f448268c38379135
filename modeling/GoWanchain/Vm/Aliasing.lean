import GoWanchain.Lib.Slice
import GoWanchain.Vm.Privacy

/-!
# The input of a precompiled contract

A precompiled contract is given its input as a slice. What it does with the bytes is modelled in
`Vm.Privacy`; here it is what it does to the arrays. All of them read only, but one: `ecrecover` appends a
byte to a window of its input (`core/vm/contracts.go`), and there is capacity behind the window unless the
input ends there, so that the byte behind the first 128 is written over (`Clobbers`).
-/

namespace GoWanchain.Vm

/-- `common.RightPadBytes`: a slice that is long enough is returned as it is. -/
def rightPadSlice (h : Heap UInt8) (s : Slice) (l : ℕ) : Heap UInt8 × Slice :=
  if l ≤ s.len then (h, s) else Slice.make h (rightPadBytes (s.elems h) l)

def secp256k1N : ℕ := 0xfffffffffffffffffffffffffffffffebaaedce6af48a03bbfd25e8cd0364141

def validateSignatureValues (v : UInt8) (r s : ℕ) (homestead : Bool) : Bool :=
  if r < 1 ∨ s < 1 then false
  else if homestead ∧ s > secp256k1N / 2 then false
  else r < secp256k1N && s < secp256k1N && (v == 0 || v == 1)

def ecRecoverInputLength : ℕ := 128

/-- The `v` of `ecrecover.Run`. -/
def recoveryId (input : Bytes) : UInt8 := input.getD 63 0 - 27

/-- The checks of `ecrecover.Run`. -/
def recoverable (input : Bytes) : Bool :=
  ((input.drop 32).take 31).all (· == 0) && validateSignatureValues (recoveryId input)
    (beNat ((input.drop 64).take 32)) (beNat ((input.drop 96).take 32)) false

/-- `ecrecover.Run`: the arrays afterwards, and the hash and the signature that `crypto.Ecrecover` is given. -/
def ecrecoverRun (h : Heap UInt8) (input : Slice) : Heap UInt8 × Option (Bytes × Bytes) :=
  let (h, input) := rightPadSlice h input ecRecoverInputLength
  let v := recoveryId (input.elems h)
  if recoverable (input.elems h) then
    let (h, sig) := (input.sub 64 128).append h v
    (h, some ((input.sub 0 32).elems h, sig.elems h))
  else (h, none)

/-- The arrays after `Run`. New arrays that no other slice is a window into are left out. -/
def PrecompiledContract.runOn (h : Heap UInt8) (input : Slice) : PrecompiledContract → Heap UInt8
  | .native .ecrecover => (ecrecoverRun h input).1
  | _ => h

/-! ### One contract -/

/-- `ecrecover` writes over a byte of the array of its input. -/
structure Clobbers (h : Heap UInt8) (input : Slice) : Prop where
  length : ecRecoverInputLength ≤ input.len
  recoverable : recoverable (input.elems h) = true
  overwrites : (input.sub 64 128).Overwrites h (recoveryId (input.elems h))

variable {h h' : Heap UInt8} {input t : Slice}

theorem prefix_ecrecoverRun_of_short (hlen : ¬ ecRecoverInputLength ≤ input.len) : h <+: (ecrecoverRun h input).1 := by
  have hmake := Slice.prefix_make h (rightPadBytes (input.elems h) ecRecoverInputLength)
  unfold ecrecoverRun rightPadSlice
  rw [if_neg hlen]
  simp only
  split
  · exact Slice.prefix_append hmake (le_of_eq rfl)
  · exact hmake

theorem ecrecoverRun_of_long (hlen : ecRecoverInputLength ≤ input.len) : (ecrecoverRun h input).1 =
    if recoverable (input.elems h) then ((input.sub 64 128).append h (recoveryId (input.elems h))).1 else h := by
  unfold ecrecoverRun rightPadSlice
  rw [if_pos hlen]
  simp only
  split <;> rfl

theorem Clobbers.window (hclobbers : Clobbers h input) (hvalid : input.Valid h) : (input.sub 64 128).Valid h :=
  hvalid.sub (by decide) hclobbers.length

theorem prefix_ecrecoverRun {h₀ : Heap UInt8} (hp : h₀ <+: h) (hnew : h₀.length ≤ input.array) :
    h₀ <+: (ecrecoverRun h input).1 := by
  by_cases hlen : ecRecoverInputLength ≤ input.len
  · rw [ecrecoverRun_of_long hlen]
    split
    · exact Slice.prefix_append hp hnew
    · exact hp
  · exact hp.trans (prefix_ecrecoverRun_of_short hlen)

theorem runOn_of_ne {p : PrecompiledContract} (hp : p ≠ .native .ecrecover) : p.runOn h input = h := by
  unfold PrecompiledContract.runOn
  split
  · exact absurd rfl hp
  · rfl

/-- What `ecrecover` does to the arrays: a byte is written over, or they are kept. -/
theorem ecrecoverRun_cases (hvalid : input.Valid h) :
    (Clobbers h input ∧ (ecrecoverRun h input).1 = ((input.sub 64 128).append h (recoveryId (input.elems h))).1) ∨
    (¬ Clobbers h input ∧ h <+: (ecrecoverRun h input).1) := by
  by_cases hlen : ecRecoverInputLength ≤ input.len
  · have hwindow : (input.sub 64 128).Valid h := hvalid.sub (by decide) hlen
    rw [ecrecoverRun_of_long hlen]
    by_cases hrecoverable : recoverable (input.elems h) = true
    · rw [if_pos hrecoverable]
      by_cases hover : (input.sub 64 128).Overwrites h (recoveryId (input.elems h))
      · exact .inl ⟨⟨hlen, hrecoverable, hover⟩, rfl⟩
      · exact .inr ⟨fun hclobbers => hover hclobbers.overwrites, (Slice.prefix_append_iff hwindow).mpr hover⟩
    · rw [if_neg hrecoverable]
      exact .inr ⟨fun hclobbers => hrecoverable hclobbers.recoverable, List.prefix_refl h⟩
  · exact .inr ⟨fun hclobbers => hlen hclobbers.length, prefix_ecrecoverRun_of_short hlen⟩

theorem prefix_runOn_iff (p : PrecompiledContract) (hvalid : input.Valid h) :
    h <+: p.runOn h input ↔ ¬ (p = .native .ecrecover ∧ Clobbers h input) := by
  by_cases hp : p = .native .ecrecover
  · subst hp
    show h <+: (ecrecoverRun h input).1 ↔ _
    rcases ecrecoverRun_cases hvalid with ⟨hclobbers, hrun⟩ | ⟨hnot, hkeeps⟩
    · rw [hrun, Slice.prefix_append_iff (hclobbers.window hvalid)]
      exact iff_of_false (fun hnot => hnot hclobbers.overwrites) fun hnot => hnot ⟨rfl, hclobbers⟩
    · exact iff_of_true hkeeps fun hclobbers => hnot hclobbers.2
  · rw [runOn_of_ne hp]
    exact iff_of_true (List.prefix_refl h) fun hclobbers => hp hclobbers.1

/-- The bytes of another slice change if and only if the byte that is written over is one of them. -/
theorem elems_runOn_iff (p : PrecompiledContract) (hvalid : input.Valid h) (ht : t.Valid h) :
    t.elems (p.runOn h input) = t.elems h ↔ ¬ (p = .native .ecrecover ∧ Clobbers h input ∧ t.array = input.array ∧
      t.offset ≤ input.offset + 128 ∧ input.offset + 128 < t.offset + t.len) := by
  by_cases hclobbers : p = .native .ecrecover ∧ Clobbers h input
  · obtain ⟨rfl, hclobbers⟩ := hclobbers
    show t.elems (ecrecoverRun h input).1 = _ ↔ _
    have hend : (input.sub 64 128).offset + (input.sub 64 128).len = input.offset + 128 := by
      show input.offset + 64 + (128 - 64) = _
      omega
    rcases ecrecoverRun_cases hvalid with ⟨-, hrun⟩ | ⟨hnot, -⟩
    · rw [hrun, Slice.elems_append_iff (hclobbers.window hvalid) ht, hend]
      exact not_congr ⟨fun h => ⟨rfl, hclobbers, h.2⟩, fun h => ⟨hclobbers.overwrites, h.2.2⟩⟩
    · exact absurd hclobbers hnot
  · exact iff_of_true (Slice.elems_kept ((prefix_runOn_iff p hvalid).mpr hclobbers) ht.array_lt)
      fun h => hclobbers ⟨h.1, h.2.1⟩

/-! ### The interpreter -/

/-- What the interpreter does to the arrays: it makes new ones, and runs precompiled contracts on them. -/
inductive Interprets : Heap UInt8 → Heap UInt8 → Prop
  | refl (h : Heap UInt8) : Interprets h h
  | copy {h h' : Heap UInt8} (run : Interprets h h') (b : Bytes) : Interprets h (Slice.make h' b).1
  | call {h h' : Heap UInt8} (run : Interprets h h') (p : PrecompiledContract) (args : Bytes) :
    Interprets h (p.runOn (Slice.make h' args).1 (Slice.make h' args).2)

theorem Interprets.keeps (hrun : Interprets h h') : h <+: h' := by
  induction hrun with
  | refl => exact List.prefix_refl _
  | copy _ _ ih => exact ih.trans (Slice.prefix_make _ _)
  | call _ p _ ih =>
    refine ih.trans ?_
    by_cases hp : p = .native .ecrecover
    · subst hp
      exact prefix_ecrecoverRun (Slice.prefix_make _ _) (le_of_eq rfl)
    · rw [runOn_of_ne hp]
      exact Slice.prefix_make _ _

end GoWanchain.Vm
