import GoWanchain.Backend.Checkpoint

/-!
# Signer snapshots

`consensus/ethash/snapshot.go`: which of the permitted signers have signed so far, and a window of recent
signers, none of whom may sign the next block. With `n` signers used the window has `(n - 1) / 2` places:
it grows while signers join, and slides with every other header.

A header is signed by its coinbase: `apply` compares the two. Where they differ it returns neither a
snapshot nor an error, since the error that it returns is that of the recovery, which went well.
-/

namespace GoWanchain.Ethash

open Types List
open State (Keccak keccak256)
open Backend (addressHex addressHex_injective)

/-- The errors of the engine; `panic` is a runtime error. -/
inductive Err
  | missingSignature
  | recover
  | unauthorized
  | authorTooOften
  | invalidAppliedHeaders
  | invalidAppliedHeader
  | unknownAncestor
  | extraTooLong (size : ℕ)
  | extraSize (size : ℕ)
  | largeBlockTime
  | zeroBlockTime
  | futureBlock
  | difficulty (found expected : ℤ)
  | gasLimitCap (found : ℤ)
  | gasUsed (used limit : ℤ)
  | gasLimit (found parent : ℤ) (bound : ℕ)
  | invalidNumber
  | nonceOutOfRange
  | invalidDifficulty
  | invalidMixDigest
  | invalidPoW
  | panic
deriving DecidableEq

/-- What the engine calls and does not compute: `recover` is `crypto.Ecrecover` with the address of the
key, and `hashimotoLight` works on the cache of the epoch of a block, or on the small one of test mode,
and gives the digest and the result. -/
structure Primitives where
  recover : Hash → Bytes → Option Address
  hashimotoLight : ℕ → Bool → Hash → BitVec 64 → Hash × ℕ

/-! ### The signature of a header -/

def extraVanity : ℕ := 32

def extraSeal : ℕ := 65

/-- The fields of a header but its mix digest and nonce. -/
def noNonceCodec : Rlp.Codec (Hash × Hash × Address × Hash × Hash × Hash × BitVec 2048 × ℕ × ℕ × ℕ × ℕ × ℕ × Bytes) :=
  (hashCodec.prod <| hashCodec.prod <| addressCodec.prod <| hashCodec.prod <| hashCodec.prod <|
    hashCodec.prod <| bloomCodec.prod <| Rlp.bigInt.prod <| Rlp.bigInt.prod <| Rlp.bigInt.prod <|
    Rlp.bigInt.prod <| Rlp.bigInt.prod Rlp.string).whole.list

section Signature

variable [Keccak] (P : Primitives)

/-- `HashNoNonce`; the error of `rlp.Encode` is dropped. -/
def hashNoNonce (h : Header) : Hash :=
  keccak256 <| if h.Encodable then
      noNonceCodec.enc (h.parentHash, h.uncleHash, h.coinbase, h.root, h.txHash, h.receiptHash, h.bloom,
        h.difficulty.toNat, h.number.toNat, h.gasLimit.toNat, h.gasUsed.toNat, h.time.toNat, h.extra)
    else []

/-- `sigHash`: the same, with the signature cut off. -/
def sigHash (header : Header) : Hash :=
  hashNoNonce { header with extra := header.extra.take (header.extra.length - extraSeal) }

def ecrecover (header : Header) : Except Err Address :=
  if header.extra.length < extraSeal then .error .missingSignature
  else
    match P.recover (sigHash header) (header.extra.drop (header.extra.length - extraSeal)) with
    | none => .error .recover
    | some signer => .ok signer

end Signature

/-! ### Snapshots -/

def windowRatio : ℕ := 2

structure Snapshot where
  permissionSigners : Finset Address
  number : ℕ
  hash : Hash
  usedSigners : Finset Address
  recentSignersWindow : List Address
deriving DecidableEq

def newSnapshot (number : ℕ) (hash : Hash) (signers : List Address) : Snapshot :=
  ⟨signers.toFinset, number, hash, ∅, []⟩

namespace Snapshot

def updateSignerStatus (s : Snapshot) (signer : Address) (isExist : Bool) : Snapshot :=
  let slid := (signer :: s.recentSignersWindow).dropLast
  if isExist then
    if 0 < s.recentSignersWindow.length then { s with recentSignersWindow := slid } else s
  else
    let usedSigners := insert signer s.usedSigners
    let newWindowLen := (usedSigners.card - 1) / windowRatio
    if s.recentSignersWindow.length < newWindowLen then
      { s with usedSigners, recentSignersWindow := signer :: s.recentSignersWindow }
    else if 0 < newWindowLen then { s with usedSigners, recentSignersWindow := slid }
    else { s with usedSigners }

theorem updateSignerStatus_permissionSigners (s : Snapshot) (signer : Address) (isExist : Bool) :
    (s.updateSignerStatus signer isExist).permissionSigners = s.permissionSigners := by
  simp only [updateSignerStatus]
  split_ifs <;> rfl

theorem updateSignerStatus_usedSigners (s : Snapshot) (signer : Address) :
    (s.updateSignerStatus signer (decide (signer ∈ s.usedSigners))).usedSigners = insert signer s.usedSigners := by
  simp only [updateSignerStatus, decide_eq_true_eq]
  split_ifs with hmem
  · exact (Finset.insert_eq_of_mem hmem).symm
  · exact (Finset.insert_eq_of_mem hmem).symm
  all_goals rfl

def isLegal4Sign (s : Snapshot) (signer : Address) : Except Err Unit :=
  if signer ∉ s.permissionSigners then .error .unauthorized
  else if signer ∈ s.recentSignersWindow then .error .authorTooOften
  else .ok ()

theorem isLegal4Sign_eq_ok {s : Snapshot} {signer : Address} :
    s.isLegal4Sign signer = .ok () ↔ signer ∈ s.permissionSigners ∧ signer ∉ s.recentSignersWindow := by
  rw [isLegal4Sign]
  by_cases hperm : signer ∈ s.permissionSigners
  · by_cases hrecent : signer ∈ s.recentSignersWindow <;> simp [hperm, hrecent]
  · simp [hperm]

section Apply

variable [Keccak] (P : Primitives)

/-- The body of the loop of `apply`; `none` is the nil that it returns with a nil error. -/
def applyHeader (s : Snapshot) (header : Header) : Except Err (Option Snapshot) :=
  match ecrecover P header with
  | .error err => .error err
  | .ok signer =>
    if addressHex signer ≠ addressHex header.coinbase then .ok none
    else
      match s.isLegal4Sign signer with
      | .error err => .error err
      | .ok () => .ok (some (s.updateSignerStatus signer (decide (signer ∈ s.usedSigners))))

def applyHeaders (s : Snapshot) : List Header → Except Err (Option Snapshot)
  | [] => .ok (some s)
  | header :: rest =>
    match applyHeader P s header with
    | .error err => .error err
    | .ok none => .ok none
    | .ok (some s) => applyHeaders s rest

def apply (s : Snapshot) (headers : List Header) : Except Err (Option Snapshot) :=
  match headers with
  | [] => .ok (some s)
  | first :: rest =>
    if ¬ (first :: rest).IsChain Backend.Snapshot.Follows then .error .invalidAppliedHeaders
    else if uint64 first.number ≠ (s.number + 1) % 2 ^ 64 then .error .invalidAppliedHeader
    else
      match applyHeaders P s (first :: rest) with
      | .error err => .error err
      | .ok none => .ok none
      | .ok (some snap) =>
        let last := (first :: rest).getLast (cons_ne_nil first rest)
        .ok (some { snap with hash := last.hash, number := uint64 last.number })

/-! ### What accepting a header says -/

variable {P} {s t : Snapshot} {header : Header} {headers : List Header}

theorem applyHeader_eq_some (h : s.applyHeader P header = .ok (some t)) :
    ecrecover P header = .ok header.coinbase ∧ s.isLegal4Sign header.coinbase = .ok () ∧
      t = s.updateSignerStatus header.coinbase (decide (header.coinbase ∈ s.usedSigners)) := by
  rw [applyHeader] at h
  cases hsigner : ecrecover P header with
  | error =>
    rw [hsigner] at h
    cases h
  | ok signer =>
    rw [hsigner] at h
    simp only at h
    by_cases hne : addressHex signer ≠ addressHex header.coinbase
    · rw [if_pos hne] at h
      cases h
    rw [if_neg hne] at h
    obtain rfl : signer = header.coinbase := addressHex_injective (not_not.mp hne)
    cases hlegal : s.isLegal4Sign header.coinbase with
    | error =>
      rw [hlegal] at h
      cases h
    | ok =>
      rw [hlegal, Except.ok.injEq, Option.some.injEq] at h
      exact ⟨rfl, rfl, h.symm⟩

theorem applyHeaders_cons_eq_some {rest : List Header} (h : s.applyHeaders P (header :: rest) = .ok (some t)) :
    ∃ u, s.applyHeader P header = .ok (some u) ∧ u.applyHeaders P rest = .ok (some t) := by
  rw [applyHeaders] at h
  rcases hstep : s.applyHeader P header with err | _ | u
  · rw [hstep] at h
    cases h
  · rw [hstep] at h
    cases h
  · rw [hstep] at h
    exact ⟨u, rfl, h⟩

theorem apply_eq_some (h : s.apply P headers = .ok (some t)) :
    ∃ u, s.applyHeaders P headers = .ok (some u) ∧ t.permissionSigners = u.permissionSigners ∧
      t.usedSigners = u.usedSigners ∧ t.recentSignersWindow = u.recentSignersWindow := by
  cases headers with
  | nil => exact ⟨t, h, rfl, rfl, rfl⟩
  | cons first rest =>
    rw [apply] at h
    split_ifs at h
    rcases hloop : s.applyHeaders P (first :: rest) with err | _ | u
    · rw [hloop] at h
      cases h
    · rw [hloop] at h
      cases h
    · rw [hloop] at h
      cases (Except.ok.inj h)
      exact ⟨u, rfl, rfl, rfl, rfl⟩

end Apply

/-! ### The window -/

/-- The places of the window when `n` signers have been used. -/
def windowLen (n : ℕ) : ℕ := (n - 1) / windowRatio

/-- The snapshot after the headers of the signers, the latest first; `A` are the permitted ones. -/
structure Tracks (A : Finset Address) (signers : List Address) (s : Snapshot) : Prop where
  permitted : s.permissionSigners = A
  used : s.usedSigners = signers.toFinset
  window : s.recentSignersWindow = signers.take (windowLen signers.toFinset.card)
  nodup : s.recentSignersWindow.Nodup
  subset : ∀ a ∈ signers, a ∈ A

theorem dropLast_cons_take {α : Type} (a : α) {l : List α} {n : ℕ} (hn : 0 < n) (hle : n ≤ l.length) :
    (a :: l.take n).dropLast = (a :: l).take n := by
  obtain ⟨m, rfl⟩ : ∃ m, n = m + 1 := ⟨n - 1, by omega⟩
  rw [dropLast_eq_take, length_cons, length_take, Nat.min_eq_left hle, Nat.add_sub_cancel,
    take_succ_cons, take_succ_cons, take_take, Nat.min_eq_left (Nat.le_succ m)]

namespace Tracks

variable {A : Finset Address} {signers : List Address} {s : Snapshot}

theorem newSnapshot (number : ℕ) (hash : Hash) (permitted : List Address) :
    Tracks permitted.toFinset [] (Ethash.newSnapshot number hash permitted) where
  permitted := rfl
  used := rfl
  window := rfl
  nodup := nodup_nil
  subset := by simp

theorem windowLen_le (signers : List Address) : windowLen signers.toFinset.card ≤ signers.length := by
  have hcard := toFinset_card_le signers
  rw [windowLen, windowRatio]
  omega

theorem length_window (h : Tracks A signers s) : s.recentSignersWindow.length = windowLen signers.toFinset.card := by
  rw [h.window, length_take, Nat.min_eq_left (windowLen_le signers)]

theorem windowLen_cons (signer : Address) (signers : List Address) :
    windowLen (signer :: signers).toFinset.card = windowLen signers.toFinset.card ∨
      windowLen (signer :: signers).toFinset.card = windowLen signers.toFinset.card + 1 := by
  rw [toFinset_cons]
  rcases Finset.card_insert_eq_ite (a := signer) (s := signers.toFinset) ▸ ite_eq_or_eq .. with hcard | hcard
  · exact .inl (congrArg windowLen hcard)
  · rw [hcard]
    simp only [windowLen, windowRatio]
    omega

section

variable (h : Tracks A signers s)

include h

theorem slide (signer : Address) :
    (if 0 < windowLen signers.toFinset.card then (signer :: s.recentSignersWindow).dropLast
      else s.recentSignersWindow) = (signer :: signers).take (windowLen signers.toFinset.card) := by
  split_ifs with hpos
  · rw [h.window, dropLast_cons_take signer hpos (windowLen_le signers)]
  · rw [h.window, Nat.eq_zero_of_not_pos hpos, take_zero, take_zero]

theorem window_update (signer : Address) :
    (s.updateSignerStatus signer (decide (signer ∈ s.usedSigners))).recentSignersWindow
      = (signer :: signers).take (windowLen (signer :: signers).toFinset.card) := by
  have hslide := h.slide signer
  have hstep := windowLen_cons signer signers
  rw [toFinset_cons] at hstep
  rw [updateSignerStatus, h.used, h.length_window, toFinset_cons]
  by_cases hmem : signer ∈ signers.toFinset
  · rw [Finset.insert_eq_of_mem hmem, ← hslide]
    simp only [hmem, decide_true, if_true]
    split_ifs <;> rfl
  · simp only [hmem, decide_false, Bool.false_eq_true, if_false, ← windowLen.eq_def]
    rcases hstep with hsame | hgrown
    · rw [hsame, ← hslide, if_neg (Nat.lt_irrefl _)]
      split_ifs <;> rfl
    · rw [hgrown, if_pos (Nat.lt_succ_self _), take_succ_cons, h.window]

theorem cons {signer : Address} (hlegal : s.isLegal4Sign signer = .ok ()) :
    Tracks A (signer :: signers) (s.updateSignerStatus signer (decide (signer ∈ s.usedSigners))) := by
  obtain ⟨hperm, hrecent⟩ := isLegal4Sign_eq_ok.mp hlegal
  have hwindow := h.window_update signer
  refine ⟨(updateSignerStatus_permissionSigners ..).trans h.permitted, ?_, hwindow, ?_, ?_⟩
  · rw [updateSignerStatus_usedSigners, h.used, toFinset_cons]
  · -- The new window is a part of the signer and the old window.
    have hpush : (signer :: signers).take (windowLen signers.toFinset.card + 1) = signer :: s.recentSignersWindow := by
      rw [take_succ_cons, h.window]
    have hle : windowLen (signer :: signers).toFinset.card ≤ windowLen signers.toFinset.card + 1 := by
      have hstep := windowLen_cons signer signers
      omega
    rw [hwindow]
    refine Nodup.sublist ?_ (nodup_cons.mpr ⟨hrecent, h.nodup⟩)
    rw [← hpush]
    exact (take_prefix_take_left hle).sublist
  · intro a ha
    rcases mem_cons.mp ha with rfl | ha
    · rwa [← h.permitted]
    · exact h.subset a ha

theorem exists_legal (hne : A.Nonempty) : ∃ a ∈ A, s.isLegal4Sign a = .ok () := by
  have hused : signers.toFinset.card ≤ A.card :=
    Finset.card_le_card fun a ha => h.subset a (mem_toFinset.mp ha)
  have hpos := Finset.card_pos.mpr hne
  have hlt : s.recentSignersWindow.toFinset.card < A.card := by
    have hcard := toFinset_card_le s.recentSignersWindow
    rw [h.length_window, windowLen, windowRatio] at hcard
    omega
  obtain ⟨a, ha, hnot⟩ := Finset.exists_mem_notMem_of_card_lt_card hlt
  rw [mem_toFinset] at hnot
  exact ⟨a, ha, isLegal4Sign_eq_ok.mpr ⟨by rwa [h.permitted], hnot⟩⟩

end

section Run

variable [Keccak] {P : Primitives} {t : Snapshot} {headers : List Header}

theorem applyHeaders (h : Tracks A signers s) (hrun : s.applyHeaders P headers = .ok (some t)) :
    Tracks A ((headers.map (·.coinbase)).reverse ++ signers) t ∧
      ∀ header ∈ headers, ecrecover P header = .ok header.coinbase := by
  induction headers generalizing s signers with
  | nil =>
    cases (Except.ok.inj hrun)
    exact ⟨h, by simp⟩
  | cons _ _ ih =>
    obtain ⟨u, hstep, hrest⟩ := applyHeaders_cons_eq_some hrun
    obtain ⟨hsigner, hlegal, rfl⟩ := applyHeader_eq_some hstep
    obtain ⟨htracks, hsigners⟩ := ih (h.cons hlegal) hrest
    refine ⟨by simpa using htracks, fun g hg => ?_⟩
    rcases mem_cons.mp hg with rfl | hg
    · exact hsigner
    · exact hsigners g hg

theorem apply (h : Tracks A signers s) (hrun : s.apply P headers = .ok (some t)) :
    Tracks A ((headers.map (·.coinbase)).reverse ++ signers) t ∧
      ∀ header ∈ headers, ecrecover P header = .ok header.coinbase := by
  obtain ⟨u, hloop, hperm, hused, hwindow⟩ := apply_eq_some hrun
  obtain ⟨htracks, hsigners⟩ := h.applyHeaders hloop
  exact ⟨⟨hperm.trans htracks.permitted, hused.trans htracks.used, hwindow.trans htracks.window,
    hwindow ▸ htracks.nodup, htracks.subset⟩, hsigners⟩

end Run

end Tracks

/-! ### Runs -/

section Window

variable [Keccak] (P : Primitives)

/-- Successive `apply` calls that each return a snapshot; `headers` are all headers so far. -/
inductive Applied (s : Snapshot) : List Header → Snapshot → Prop
  | start : Applied s [] s
  | apply {headers batch : List Header} {t u : Snapshot} (h : Applied s headers t)
      (happly : t.apply P batch = .ok (some u)) : Applied s (headers ++ batch) u

variable {P}

theorem Applied.tracks {A : Finset Address} {s t : Snapshot} {headers : List Header} (hs : Tracks A [] s)
    (h : Applied P s headers t) : Tracks A (headers.map (·.coinbase)).reverse t ∧
      ∀ header ∈ headers, ecrecover P header = .ok header.coinbase := by
  induction h with
  | start => exact ⟨hs, by simp⟩
  | apply _ happly ih =>
    obtain ⟨htracks, hsigners⟩ := ih.1.apply happly
    refine ⟨by rwa [map_append, reverse_append], fun header hheader => ?_⟩
    rcases mem_append.mp hheader with hheader | hheader
    · exact ih.2 header hheader
    · exact hsigners header hheader

/-- **The window.** After any headers accepted on top of the genesis snapshot, the window holds the signers
of the last `(n - 1) / 2` headers, the latest first, where `n` counts the different signers so far; they are
distinct and permitted, and one of the permitted signers may sign the next header. -/
theorem window_eq_recent_signers {hash : Hash} {permitted : List Address} (hne : permitted ≠ [])
    {headers : List Header} {s : Snapshot} (h : Applied P (newSnapshot 0 hash permitted) headers s) :
    ∃ signers, Forall₂ (fun header signer => ecrecover P header = .ok signer) headers signers ∧
      s.recentSignersWindow = signers.reverse.take ((signers.toFinset.card - 1) / 2) ∧
      s.recentSignersWindow.length = (signers.toFinset.card - 1) / 2 ∧
      s.recentSignersWindow.Nodup ∧ (∀ a ∈ s.recentSignersWindow, a ∈ permitted) ∧
      ∃ a ∈ permitted, s.isLegal4Sign a = .ok () := by
  obtain ⟨htracks, hsigners⟩ := h.tracks (.newSnapshot 0 hash permitted)
  have hwindow := htracks.window
  have hlength := htracks.length_window
  rw [toFinset_reverse] at hwindow hlength
  refine ⟨headers.map Header.coinbase, ?_, hwindow, hlength, htracks.nodup, fun a ha => ?_, ?_⟩
  · rw [forall₂_map_right_iff, forall₂_same]
    exact hsigners
  · rw [htracks.window] at ha
    exact mem_toFinset.mp (htracks.subset a (mem_of_mem_take ha))
  · have hnonempty : permitted.toFinset.Nonempty := toFinset_nonempty_iff permitted |>.mpr hne
    obtain ⟨a, ha, hlegal⟩ := htracks.exists_legal hnonempty
    exact ⟨a, mem_toFinset.mp ha, hlegal⟩

end Window

end Snapshot

namespace Sample

attribute [local instance] Backend.Sample.keccak

/-- A signature begins with the address of its signer; every proof of work is good. -/
def primitives : Primitives where
  recover _ signature := some (bytesToAddress (signature.take 20))
  hashimotoLight _ _ _ _ := (0, 0)

def header (parentHash : Hash) (number : ℤ) (coinbase signer : Address) : Header where
  parentHash := parentHash
  uncleHash := 0
  coinbase := coinbase
  root := 0
  txHash := 0
  receiptHash := 0
  bloom := 0
  difficulty := 131072
  number := number
  gasLimit := 8000000
  gasUsed := 0
  time := 18 * number
  extra := replicate extraVanity 0 ++ addressBytes signer ++ replicate 45 0
  mixDigest := 0
  nonce := 0

def third : Snapshot := ⟨{1, 2, 3}, 3, (header 0 3 3 3).hash, {3, 2, 1}, [3]⟩

theorem applied_third :
    Snapshot.Applied primitives (newSnapshot 0 0 [1, 2, 3]) [header 0 1 1 1, header 0 2 2 2, header 0 3 3 3] third := by
  have hfirst : (newSnapshot 0 0 [1, 2, 3]).apply primitives [header 0 1 1 1]
      = .ok (some ⟨{1, 2, 3}, 1, (header 0 1 1 1).hash, {1}, []⟩) := by decide +kernel
  have hrest : Snapshot.apply primitives ⟨{1, 2, 3}, 1, (header 0 1 1 1).hash, {1}, []⟩
      [header 0 2 2 2, header 0 3 3 3] = .ok (some third) := by decide +kernel
  exact .apply (.apply .start hfirst) hrest

theorem window_eq_recent_signers_third : ∃ a ∈ [1, 2, 3], third.isLegal4Sign a = .ok () := by
  obtain ⟨-, -, -, -, -, -, hlegal⟩ := Snapshot.window_eq_recent_signers (by decide) applied_third
  exact hlegal

end Sample

end GoWanchain.Ethash
