import GoWanchain.Ethash.Snapshot
import GoWanchain.Backend.Retrieval

/-!
# Finding the snapshot of a block

`snapshot` and `verifySignerIdentity` of `consensus/ethash/consensus.go`. As its Istanbul counterpart,
`snapshot` walks back from a block to the nearest snapshot in memory or on disk, or to the genesis block,
and applies the headers on the way. If one of them is signed by another than its coinbase, `apply` returns
neither a snapshot nor an error, and `snapshot` dereferences nil when it puts the result into `recents`:
that is the one way in which it does not return (`total_iff`).
-/

namespace GoWanchain.Ethash

open Types List
open State (Keccak keccak256)
open Backend (Chain gather Linked Stored addressHex addressHex_injective addressText unmarshalAddress hashText
  unmarshalHash)
open Backend.Snapshot (Follows tip)

inductive Mode
  | normal
  | shared
  | test
  | fake
  | fullFake
deriving DecidableEq

/-- What `VerifySeal` reads of an `Ethash`. -/
structure Sealer where
  powMode : Mode
  fakeFail : ℕ

/-- `Ethash`, as far as it is read here; the shared verifier has none behind it. -/
structure Engine extends Sealer where
  shared : Option Sealer

/-- What the engine remembers: snapshots in memory, and the documents on disk that decode. -/
structure Caches where
  recents : Hash → Option Snapshot
  db : Hash → Option Snapshot

def checkpointInterval : ℕ := 8192

/-- `number - 1`, as a `uint64`. -/
def predecessor (number : ℕ) : ℕ := if number = 0 then 2 ^ 64 - 1 else number - 1

theorem predecessor_add_one {number : ℕ} (h : number < 2 ^ 64) : (predecessor number + 1) % 2 ^ 64 = number := by
  rw [predecessor]
  split_ifs <;> omega

def Snapshot.store (s : Snapshot) (db : Hash → Option Snapshot) : Hash → Option Snapshot :=
  Function.update db s.hash (some s)

/-- The signers in the extra-data of the genesis block; what is left over at its end is ignored. -/
def genesisSigners (extra : Bytes) : List Address :=
  (range (extra.length / 20)).map fun i => bytesToAddress ((extra.drop (20 * i)).take 20)

section Retrieval

variable [Keccak] (P : Primitives) (engine : Engine) (chain : Chain)

/-- `VerifyHeader` of the genesis block. `verifyHeader` accepts every header of number 0, so that the
block only has to be known, or to have a parent that is. -/
def verifyGenesis : Except Err Unit :=
  ensure (engine.powMode = .fullFake ∨ (chain.getHeader chain.genesis.hash 0).isSome
    ∨ (chain.getHeader chain.genesis.parentHash (2 ^ 64 - 1)).isSome) .unknownAncestor

/-- The snapshot that is made at block zero. -/
def genesisSnapshot : Except Err Snapshot := do
  verifyGenesis engine chain
  return newSnapshot 0 chain.genesis.hash (genesisSigners chain.genesis.extra)

/-- The loop of `snapshot`: where it starts from, the headers to apply, the latest first, and the database. -/
def locate (c : Caches) (number : ℕ) (hash : Hash) (parents headers : List Header) :
    Except Err (Snapshot × List Header × (Hash → Option Snapshot)) :=
  match c.recents hash with
  | some s => .ok (s, headers, c.db)
  | none =>
    match (if number % checkpointInterval = 0 then c.db hash else none) with
    | some s => .ok (s, headers, c.db)
    | none =>
      match number with
      | 0 =>
        match genesisSnapshot engine chain with
        | .error err => .error err
        | .ok s => .ok (s, headers, s.store c.db)
      | number + 1 =>
        match gather chain (number + 1) hash parents with
        | none => .error .unknownAncestor
        | some (header, parents) => locate c number header.parentHash parents (headers ++ [header])

/-- The part of `snapshot` behind the loop. -/
def settle (c : Caches) (base : Snapshot) (headers : List Header) (db : Hash → Option Snapshot) :
    Except Err Snapshot × Caches :=
  match base.apply P headers.reverse with
  | .error err => (.error err, { c with db })
  -- `recents.Add(snap.Hash, snap)` of the nil snapshot
  | .ok none => (.error .panic, { c with db })
  | .ok (some snap) =>
    (.ok snap, {
      recents := Function.update c.recents snap.hash (some snap)
      db := if snap.number % checkpointInterval = 0 ∧ headers ≠ [] then snap.store db else db })

def snapshot (c : Caches) (number : ℕ) (hash : Hash) (parents : List Header) : Except Err Snapshot × Caches :=
  match locate engine chain c number hash parents [] with
  | .error err => (.error err, c)
  | .ok (base, headers, db) => settle P c base headers db

def verifySignerIdentity (c : Caches) (header : Header) (parents : List Header) : Except Err Unit × Caches :=
  match snapshot P engine chain c (predecessor (uint64 header.number)) header.parentHash parents with
  | (.error err, c) => (.error err, c)
  | (.ok s, c) => (s.isLegal4Sign header.coinbase, c)

/-! ### Headers signed by another -/

/-- The signature of the header recovers to another address than its coinbase. -/
def Mismatched (header : Header) : Prop := ∃ signer, ecrecover P header = .ok signer ∧ signer ≠ header.coinbase

variable {P engine chain} {s t : Snapshot} {header : Header} {headers : List Header}

namespace Snapshot

theorem applyHeader_of_mismatched (h : Mismatched P header) (s : Snapshot) : s.applyHeader P header = .ok none := by
  obtain ⟨signer, hsigner, hne⟩ := h
  rw [applyHeader, hsigner]
  exact if_pos fun heq => hne (addressHex_injective heq)

theorem applyHeader_of_signed (hsigner : ecrecover P header = .ok header.coinbase) (s : Snapshot) :
    s.applyHeader P header = (s.isLegal4Sign header.coinbase).map fun _ =>
      some (s.updateSignerStatus header.coinbase (decide (header.coinbase ∈ s.usedSigners))) := by
  rw [applyHeader, hsigner]
  simp only [ne_eq, not_true_eq_false, if_false]
  cases s.isLegal4Sign header.coinbase <;> rfl

theorem applyHeader_eq_none_iff : s.applyHeader P header = .ok none ↔ Mismatched P header := by
  constructor
  · intro h
    cases hsigner : ecrecover P header with
    | error =>
      rw [applyHeader, hsigner] at h
      cases h
    | ok signer =>
      refine ⟨signer, hsigner, ?_⟩
      rintro rfl
      rw [applyHeader_of_signed hsigner] at h
      cases hlegal : s.isLegal4Sign header.coinbase <;> rw [hlegal] at h <;> cases h
  · exact fun h => applyHeader_of_mismatched h s

theorem applyHeader_ne_panic : s.applyHeader P header ≠ .error .panic := by
  intro h
  rw [applyHeader, ecrecover] at h
  split_ifs at h
  · cases h
  · cases hrecover : P.recover (sigHash header) (header.extra.drop (header.extra.length - extraSeal)) with
    | none =>
      rw [hrecover] at h
      cases h
    | some =>
      rw [hrecover] at h
      simp only [isLegal4Sign] at h
      split_ifs at h <;> cases h

theorem applyHeaders_ne_panic : s.applyHeaders P headers ≠ .error .panic := by
  induction headers generalizing s with
  | nil => simp [applyHeaders]
  | cons header _ ih =>
    have hstep : s.applyHeader P header ≠ .error .panic := applyHeader_ne_panic
    rw [applyHeaders]
    rcases hrun : s.applyHeader P header with err | _ | t
    · rw [hrun] at hstep
      simpa using hstep
    · simp
    · exact ih

theorem apply_ne_panic : s.apply P headers ≠ .error .panic := by
  cases headers with
  | nil => simp [apply]
  | cons first rest =>
    have hloop : s.applyHeaders P (first :: rest) ≠ .error .panic := applyHeaders_ne_panic
    rw [apply]
    by_cases hchain : (first :: rest).IsChain Follows
    · rw [if_neg (not_not.mpr hchain)]
      split_ifs
      · simp
      · rcases hrun : s.applyHeaders P (first :: rest) with err | _ | t
        · rw [hrun] at hloop
          simpa using hloop
        · simp
        · simp
    · rw [if_pos hchain]
      simp

theorem exists_mismatched_of_applyHeaders (h : s.applyHeaders P headers = .ok none) :
    ∃ pre header post, headers = pre ++ header :: post ∧ Mismatched P header ∧
      ∀ g ∈ pre, ∃ signer, ecrecover P g = .ok signer := by
  induction headers generalizing s with
  | nil => cases h
  | cons header rest ih =>
    rw [applyHeaders] at h
    rcases hstep : s.applyHeader P header with err | _ | t
    · rw [hstep] at h
      cases h
    · exact ⟨[], header, rest, rfl, applyHeader_eq_none_iff.mp hstep, by simp⟩
    · rw [hstep] at h
      obtain ⟨pre, g, post, rfl, hg, hpre⟩ := ih h
      refine ⟨header :: pre, g, post, rfl, hg, fun g' hg' => ?_⟩
      rcases mem_cons.mp hg' with rfl | hg'
      · exact ⟨_, (applyHeader_eq_some hstep).1⟩
      · exact hpre g' hg'

theorem exists_mismatched_of_apply (h : s.apply P headers = .ok none) :
    headers.IsChain Follows ∧ ∃ pre header post, headers = pre ++ header :: post ∧ Mismatched P header ∧
      ∀ g ∈ pre, ∃ signer, ecrecover P g = .ok signer := by
  cases headers with
  | nil => cases h
  | cons first rest =>
    rw [apply] at h
    by_cases hchain : (first :: rest).IsChain Follows
    · rw [if_neg (not_not.mpr hchain)] at h
      split_ifs at h
      rcases hloop : s.applyHeaders P (first :: rest) with err | _ | t
      · rw [hloop] at h
        cases h
      · exact ⟨hchain, exists_mismatched_of_applyHeaders hloop⟩
      · rw [hloop] at h
        cases h
    · rw [if_pos hchain] at h
      cases h

/-- A snapshot on which every header signed by its coinbase is accepted and changes nothing: all signers
are permitted and used, and the window is empty. -/
def permissive (number : ℕ) (headers : List Header) : Snapshot :=
  ⟨(headers.map (·.coinbase)).toFinset, number, 0, (headers.map (·.coinbase)).toFinset, []⟩

theorem applyHeader_permissive {number : ℕ} (hmem : header ∈ headers)
    (hsigner : ecrecover P header = .ok header.coinbase) :
    (permissive number headers).applyHeader P header = .ok (some (permissive number headers)) := by
  have hcoinbase : header.coinbase ∈ (headers.map (·.coinbase)).toFinset :=
    mem_toFinset.mpr (mem_map_of_mem hmem)
  have hlegal : (permissive number headers).isLegal4Sign header.coinbase = .ok () :=
    isLegal4Sign_eq_ok.mpr ⟨hcoinbase, not_mem_nil⟩
  rw [applyHeader_of_signed hsigner, hlegal]
  have hused : header.coinbase ∈ (permissive number headers).usedSigners := hcoinbase
  simp only [hused, decide_true]
  rfl

theorem applyHeaders_permissive {number : ℕ} {all pre post : List Header} (hmem : ∀ g ∈ pre, g ∈ all)
    (hbad : Mismatched P header) (hpre : ∀ g ∈ pre, ∃ signer, ecrecover P g = .ok signer) :
    (permissive number all).applyHeaders P (pre ++ header :: post) = .ok none := by
  induction pre with
  | nil => rw [nil_append, applyHeaders, applyHeader_of_mismatched hbad]
  | cons g _ ih =>
    have ih := ih (fun g' hg' => hmem g' (mem_cons_of_mem _ hg')) fun g' hg' => hpre g' (mem_cons_of_mem _ hg')
    obtain ⟨signer, hsigner⟩ := hpre g mem_cons_self
    rw [cons_append, applyHeaders]
    by_cases heq : signer = g.coinbase
    · rw [applyHeader_permissive (hmem g mem_cons_self) (heq ▸ hsigner)]
      exact ih
    · rw [applyHeader_of_mismatched ⟨signer, hsigner, heq⟩]

theorem apply_eq_none {first : Header} {rest : List Header} {s : Snapshot}
    (hchain : (first :: rest).IsChain Follows) (hnumber : s.number = predecessor (uint64 first.number))
    (hloop : s.applyHeaders P (first :: rest) = .ok none) : s.apply P (first :: rest) = .ok none := by
  have hfirst : uint64 first.number < 2 ^ 64 := Nat.mod_lt _ (by norm_num)
  rw [apply, if_neg (not_not.mpr hchain), hnumber, predecessor_add_one hfirst, if_neg (not_not.mpr rfl), hloop]

/-- `apply` returns something of every snapshot exactly if the headers do not follow one another, or every
mismatched one stands behind one whose signature does not recover. -/
theorem forall_apply_ne_none_iff : (∀ s : Snapshot, s.apply P headers ≠ .ok none) ↔
    (headers.IsChain Follows → ∀ pre header post, headers = pre ++ header :: post → Mismatched P header →
      ∃ g ∈ pre, ∃ err, ecrecover P g = .error err) := by
  constructor
  · intro hsome hchain pre header post heq hbad
    by_contra hnone
    have hpre : ∀ g ∈ pre, ∃ signer, ecrecover P g = .ok signer := by
      intro g hg
      cases hsigner : ecrecover P g with
      | error err => exact absurd ⟨g, hg, err, hsigner⟩ hnone
      | ok signer => exact ⟨signer, rfl⟩
    cases headers with
    | nil => simp at heq
    | cons first rest =>
      refine hsome (permissive (predecessor (uint64 first.number)) (first :: rest)) ?_
      refine apply_eq_none hchain rfl ?_
      rw [heq]
      exact applyHeaders_permissive (fun g hg => mem_append_left _ hg) hbad hpre
  · intro hall s hnone
    obtain ⟨hchain, pre, header, post, heq, hbad, hpre⟩ := exists_mismatched_of_apply hnone
    obtain ⟨g, hg, err, herr⟩ := hall hchain pre header post heq hbad
    obtain ⟨signer, hsigner⟩ := hpre g hg
    cases herr.symm.trans hsigner

end Snapshot

/-! ### The walk -/

/-- The headers from a block back to the genesis block, or to the first that is not found; the latest first. -/
def walk (chain : Chain) : ℕ → Hash → List Header → List Header
  | 0, _, _ => []
  | number + 1, hash, parents =>
    match gather chain (number + 1) hash parents with
    | none => []
    | some (header, parents) => header :: walk chain number header.parentHash parents

variable {c : Caches} {number : ℕ} {hash : Hash} {parents acc below : List Header} {base : Snapshot}
  {db : Hash → Option Snapshot}

theorem locate_headers (h : locate engine chain c number hash parents acc = .ok (base, headers, db)) :
    ∃ k, headers = acc ++ (walk chain number hash parents).take k := by
  induction number generalizing hash parents acc with
  | zero =>
    refine ⟨0, ?_⟩
    rw [take_zero, append_nil]
    rw [locate] at h
    split at h
    · exact (Prod.mk.inj (Prod.mk.inj (Except.ok.inj h)).2).1.symm
    · split at h
      · exact (Prod.mk.inj (Prod.mk.inj (Except.ok.inj h)).2).1.symm
      · split at h
        · cases h
        · exact (Prod.mk.inj (Prod.mk.inj (Except.ok.inj h)).2).1.symm
  | succ _ ih =>
    rw [locate] at h
    split at h
    · exact ⟨0, by rw [take_zero, append_nil, (Prod.mk.inj (Prod.mk.inj (Except.ok.inj h)).2).1]⟩
    · split at h
      · exact ⟨0, by rw [take_zero, append_nil, (Prod.mk.inj (Prod.mk.inj (Except.ok.inj h)).2).1]⟩
      · rw [walk]
        split at h
        · cases h
        · next header rest hgather =>
          obtain ⟨k, rfl⟩ := ih h
          exact ⟨k + 1, by rw [take_succ_cons, append_assoc, singleton_append]⟩

theorem locate_ne_panic : locate engine chain c number hash parents acc ≠ .error .panic := by
  induction number generalizing hash parents acc with
  | zero =>
    rw [locate]
    split
    · simp
    · split
      · simp
      · have hgenesis : genesisSnapshot engine chain ≠ .error .panic :=
          bind_ne_error (ensure_ne_error (by decide)) fun _ => pure_ne_error _ _
        cases hg : genesisSnapshot engine chain with
        | error =>
          rw [hg] at hgenesis
          simpa using hgenesis
        | ok => simp
  | succ _ ih =>
    rw [locate]
    split
    · simp
    · split
      · simp
      · split
        · simp
        · exact ih

/-- What comes of a snapshot or nil: the nil is dereferenced. -/
def dereference : Except Err (Option Snapshot) → Except Err Snapshot
  | .ok (some s) => .ok s
  | .ok none => .error .panic
  | .error err => .error err

theorem settle_eq : (settle P c base headers db).1 = dereference (base.apply P headers.reverse) := by
  rw [settle]
  rcases base.apply P headers.reverse with err | _ | t <;> rfl

theorem settle_eq_panic_iff :
    (settle P c base headers db).1 = .error .panic ↔ base.apply P headers.reverse = .ok none := by
  have happly : base.apply P headers.reverse ≠ .error .panic := Snapshot.apply_ne_panic
  rw [settle_eq]
  rcases hrun : base.apply P headers.reverse with err | _ | t
  · rw [hrun] at happly
    simpa [dereference] using happly
  · simp [dereference]
  · simp [dereference]

theorem snapshot_eq_panic_iff : (snapshot P engine chain c number hash parents).1 = .error .panic ↔
      ∃ base headers db, locate engine chain c number hash parents [] = .ok (base, headers, db) ∧
        base.apply P headers.reverse = .ok none := by
  have hlocate : locate engine chain c number hash parents [] ≠ .error .panic := locate_ne_panic
  rw [snapshot]
  rcases hrun : locate engine chain c number hash parents [] with err | ⟨base, headers, db⟩
  · rw [hrun] at hlocate
    simpa using hlocate
  · simp only [settle_eq_panic_iff]
    constructor
    · exact fun hnone => ⟨base, headers, db, rfl, hnone⟩
    · rintro ⟨_, _, _, heq, hnone⟩
      cases heq
      exact hnone

/-- No block is its own ancestor. -/
def Acyclic (chain : Chain) (number : ℕ) (hash : Hash) (parents : List Header) : Prop :=
  ∀ above header below, walk chain number hash parents = above ++ header :: below →
    ∀ g ∈ above ++ [header], g.hash ≠ header.parentHash

theorem locate_to {above : List Header} (hwalk : walk chain number hash parents = above ++ header :: below)
    (hnew : ∀ g ∈ above ++ [header], c.recents g.hash = none) (hdb : ∀ x, c.db x = none)
    (hbase : c.recents header.parentHash = some base) :
    locate engine chain c number hash parents acc = .ok (base, acc ++ above ++ [header], c.db) := by
  induction number generalizing hash parents above acc with
  | zero => simp [walk] at hwalk
  | succ number ih =>
    rw [walk] at hwalk
    cases hgather : gather chain (number + 1) hash parents with
    | none => simp [hgather] at hwalk
    | some p =>
      obtain ⟨g, rest⟩ := p
      rw [hgather] at hwalk
      have hstep : c.recents g.hash = none → locate engine chain c (number + 1) hash parents acc
          = locate engine chain c number g.parentHash rest (acc ++ [g]) := by
        intro hnone
        rw [(Backend.gather_eq_some hgather).1] at hnone
        rw [locate]
        simp only [hnone, hdb, ite_self, hgather]
      cases above with
      | nil =>
        obtain ⟨rfl, rfl⟩ := cons.inj hwalk
        rw [hstep (hnew _ (by simp)), locate.eq_def, hbase, append_nil]
      | cons =>
        obtain ⟨rfl, hrest⟩ := cons.inj hwalk
        rw [hstep (hnew _ (by simp)), ih hrest fun g' hg' => hnew g' (mem_cons_of_mem _ hg')]
        simp

/-- None of the ancestors, as far as their numbers count down, is signed by another than its coinbase. -/
def Matched (P : Primitives) (chain : Chain) (number : ℕ) (hash : Hash) (parents : List Header) : Prop :=
  ∀ above header below, walk chain number hash parents = above ++ header :: below →
    (header :: above.reverse).IsChain Follows → ¬ Mismatched P header

/-- With the right snapshot in memory, a mismatched header on the walk is the first to be applied. -/
theorem exists_panic {above : List Header} (hacyclic : Acyclic chain number hash parents)
    (hwalk : walk chain number hash parents = above ++ header :: below)
    (hchain : (header :: above.reverse).IsChain Follows) (hbad : Mismatched P header) :
    ∃ c, (snapshot P engine chain c number hash parents).1 = .error .panic := by
  let base := Snapshot.permissive (predecessor (uint64 header.number)) []
  let c : Caches := ⟨fun x => if x = header.parentHash then some base else none, fun _ => none⟩
  have hlocate : locate engine chain c number hash parents [] = .ok (base, [] ++ above ++ [header], c.db) := by
    refine locate_to hwalk (fun g hg => ?_) (fun _ => rfl) (if_pos rfl)
    exact if_neg (hacyclic above header below hwalk g hg)
  refine ⟨c, snapshot_eq_panic_iff.mpr ⟨base, [] ++ above ++ [header], c.db, hlocate, ?_⟩⟩
  rw [nil_append, reverse_append, reverse_singleton, singleton_append]
  refine Snapshot.apply_eq_none hchain rfl ?_
  rw [Snapshot.applyHeaders, Snapshot.applyHeader_of_mismatched hbad]

theorem snapshot_ne_panic (h : Matched P chain number hash parents) (c : Caches) :
    (snapshot P engine chain c number hash parents).1 ≠ .error .panic := by
  rw [ne_eq, snapshot_eq_panic_iff]
  rintro ⟨base, headers, db, hlocate, hnone⟩
  obtain ⟨k, rfl⟩ := locate_headers hlocate
  rw [nil_append] at hnone
  obtain ⟨hchain, pre, header, post, heq, hbad, -⟩ := Snapshot.exists_mismatched_of_apply hnone
  refine h post.reverse header (pre.reverse ++ (walk chain number hash parents).drop k) ?_ ?_ hbad
  · have hrev := congrArg reverse heq
    rw [reverse_reverse, reverse_append, reverse_cons] at hrev
    calc walk chain number hash parents
        = (walk chain number hash parents).take k ++ (walk chain number hash parents).drop k :=
          (take_append_drop k _).symm
      _ = post.reverse ++ header :: (pre.reverse ++ (walk chain number hash parents).drop k) := by
          rw [hrev]
          simp
  · rw [reverse_reverse]
    rw [heq] at hchain
    exact (isChain_append.mp hchain).2.1

theorem forall_snapshot_ne_panic_iff (hacyclic : Acyclic chain number hash parents) :
    (∀ c, (snapshot P engine chain c number hash parents).1 ≠ .error .panic) ↔ Matched P chain number hash parents := by
  refine ⟨fun hall above header below hwalk hchain hbad => ?_, fun h c => snapshot_ne_panic h c⟩
  obtain ⟨c, hpanic⟩ := exists_panic hacyclic hwalk hchain hbad
  exact hall c hpanic

theorem verifySignerIdentity_eq_panic_iff : (verifySignerIdentity P engine chain c header parents).1 = .error .panic ↔
      (snapshot P engine chain c (predecessor (uint64 header.number)) header.parentHash parents).1 = .error .panic := by
  unfold verifySignerIdentity
  generalize predecessor (uint64 header.number) = number
  rcases snapshot P engine chain c number header.parentHash parents with ⟨err | s, c⟩
  · simp
  · simp only [reduceCtorEq, iff_false]
    rw [Snapshot.isLegal4Sign]
    split_ifs <;> simp

/-- **Totality.** `apply` returns a snapshot or an error, whatever snapshot it starts from, exactly if no
header is signed by another than its coinbase, up to the first whose signature does not recover (or the
headers do not follow one another). `snapshot` and `verifySignerIdentity` return, whatever is in memory and
on disk, exactly if none of the ancestors within reach is. -/
theorem total_iff (P : Primitives) (engine : Engine) : (∀ headers, (∀ s : Snapshot, s.apply P headers ≠ .ok none) ↔
      (headers.IsChain Follows → ∀ pre header post, headers = pre ++ header :: post → Mismatched P header →
        ∃ g ∈ pre, ∃ err, ecrecover P g = .error err)) ∧
    (∀ chain number hash parents, Acyclic chain number hash parents →
      ((∀ c, (snapshot P engine chain c number hash parents).1 ≠ .error .panic) ↔
        Matched P chain number hash parents)) ∧
    (∀ chain (header : Header) parents, Acyclic chain (predecessor (uint64 header.number)) header.parentHash parents →
      ((∀ c, (verifySignerIdentity P engine chain c header parents).1 ≠ .error .panic) ↔
        Matched P chain (predecessor (uint64 header.number)) header.parentHash parents)) := by
  refine ⟨fun headers => Snapshot.forall_apply_ne_none_iff, fun chain number hash parents hacyclic =>
    forall_snapshot_ne_panic_iff hacyclic, fun chain header parents hacyclic => ?_⟩
  have hsnapshot : (∀ c, (snapshot P engine chain c (predecessor (uint64 header.number)) header.parentHash
      parents).1 ≠ .error .panic) ↔ _ := forall_snapshot_ne_panic_iff hacyclic
  rw [← hsnapshot]
  constructor
  · exact fun hall c hpanic => hall c (verifySignerIdentity_eq_panic_iff.mpr hpanic)
  · exact fun hall c hpanic => hall c (verifySignerIdentity_eq_panic_iff.mp hpanic)

/-! ### The snapshot of a block -/

namespace Snapshot

/-- The snapshot, moved to another block. -/
def moved (s : Snapshot) (number : ℕ) (hash : Hash) : Snapshot := { s with number, hash }

omit [Keccak] in
theorem updateSignerStatus_moved (s : Snapshot) (number : ℕ) (hash : Hash) (signer : Address) (isExist : Bool) :
    (s.moved number hash).updateSignerStatus signer isExist = (s.updateSignerStatus signer isExist).moved number hash := by
  have hwindow : (s.moved number hash).recentSignersWindow = s.recentSignersWindow := rfl
  have hused : (s.moved number hash).usedSigners = s.usedSigners := rfl
  cases isExist with
  | true =>
    simp only [updateSignerStatus, hwindow, if_true]
    split_ifs <;> rfl
  | false =>
    simp only [updateSignerStatus, hwindow, hused, Bool.false_eq_true, if_false]
    split_ifs <;> rfl

theorem applyHeader_moved (s : Snapshot) (number : ℕ) (hash : Hash) (header : Header) :
    (s.moved number hash).applyHeader P header = (s.applyHeader P header).map (Option.map (·.moved number hash)) := by
  simp only [applyHeader]
  rcases ecrecover P header with err | signer
  · rfl
  · simp only
    split_ifs
    · rfl
    · have hlegal : (s.moved number hash).isLegal4Sign signer = s.isLegal4Sign signer := rfl
      rw [hlegal]
      cases s.isLegal4Sign signer with
      | error => rfl
      | ok => exact congrArg (fun t => Except.ok (some t)) (updateSignerStatus_moved s number hash signer _)

theorem applyHeaders_moved (s : Snapshot) (number : ℕ) (hash : Hash) (headers : List Header) :
    (s.moved number hash).applyHeaders P headers = (s.applyHeaders P headers).map (Option.map (·.moved number hash)) := by
  induction headers generalizing s with
  | nil => rfl
  | cons header _ ih =>
    rw [applyHeaders, applyHeaders, applyHeader_moved]
    rcases s.applyHeader P header with err | _ | t
    · rfl
    · rfl
    · exact ih t

theorem applyHeaders_append {xs ys : List Header} (h : s.applyHeaders P xs = .ok (some t)) :
    s.applyHeaders P (xs ++ ys) = t.applyHeaders P ys := by
  induction xs generalizing s with
  | nil =>
    cases (Except.ok.inj h)
    rfl
  | cons _ _ ih =>
    obtain ⟨u, hstep, hrest⟩ := applyHeaders_cons_eq_some h
    rw [cons_append, applyHeaders, hstep]
    exact ih hrest

theorem apply_of_fits (hne : headers ≠ []) (hchain : headers.IsChain Follows)
    (hfirst : ∀ h ∈ headers.head?, uint64 h.number = (s.number + 1) % 2 ^ 64) :
    s.apply P headers = (s.applyHeaders P headers).map (Option.map
      (·.moved (uint64 (headers.getLast hne).number) (headers.getLast hne).hash)) := by
  cases headers with
  | nil => exact absurd rfl hne
  | cons first rest =>
    rw [apply, if_neg (not_not.mpr hchain), if_neg (not_not.mpr (hfirst first rfl))]
    rcases s.applyHeaders P (first :: rest) with err | _ | u <;> rfl

theorem apply_append {xs ys : List Header} (hchain : (xs ++ ys).IsChain Follows)
    (hfirst : ∀ h ∈ (xs ++ ys).head?, uint64 h.number = (s.number + 1) % 2 ^ 64)
    (h : s.apply P xs = .ok (some t)) : s.apply P (xs ++ ys) = t.apply P ys := by
  obtain ⟨hxs, hys, hlink⟩ := isChain_append.mp hchain
  by_cases hxne : xs = []
  · subst hxne
    cases (Except.ok.inj h)
    rfl
  by_cases hyne : ys = []
  · rw [hyne, append_nil, h]
    rfl
  rw [head?_append_of_ne_nil _ hxne] at hfirst
  rw [apply_of_fits hxne hxs hfirst] at h
  rcases hloop : s.applyHeaders P xs with err | _ | u
  · rw [hloop] at h
    cases h
  · rw [hloop] at h
    cases h
  · rw [hloop] at h
    cases (Except.ok.inj h)
    have hfits : ∀ y ∈ ys.head?, uint64 y.number = (uint64 (xs.getLast hxne).number + 1) % 2 ^ 64 :=
      hlink _ (getLast?_eq_getLast_of_ne_nil hxne)
    rw [apply_of_fits hyne hys hfits, applyHeaders_moved, apply_of_fits (append_ne_nil_of_left_ne_nil hxne ys) hchain
        (by rwa [head?_append_of_ne_nil _ hxne]),
      applyHeaders_append hloop, getLast_append_of_ne_nil _ hyne]
    rcases u.applyHeaders P ys with err | _ | v <;> rfl

end Snapshot

variable (P engine chain)

/-- `genesis.apply(headers)`. -/
def snapshotOf (headers : List Header) : Except Err (Option Snapshot) :=
  match genesisSnapshot engine chain with
  | .error err => .error err
  | .ok genesis => genesis.apply P headers

/-- Every entry under the hash of one of the blocks is the snapshot of that block. -/
structure Caches.Sound (c : Caches) (headers : List Header) : Prop where
  recents : ∀ below, below <+: headers → ∀ s, c.recents (tip chain.genesis.hash below) = some s →
    snapshotOf P engine chain below = .ok (some s)
  db : ∀ below, below <+: headers → ∀ s, c.db (tip chain.genesis.hash below) = some s →
    snapshotOf P engine chain below = .ok (some s)

variable {P engine chain}

theorem genesisSnapshot_number {g : Snapshot} (h : genesisSnapshot engine chain = .ok g) : g.number = 0 := by
  rw [genesisSnapshot, bind_eq_ok] at h
  obtain ⟨-, -, h⟩ := h
  cases h
  rfl

theorem locate_spec {known : List Header}
    (hsound : c.Sound P engine chain (known ++ parents)) (hlinked : Linked chain (known ++ parents))
    (hstored : Stored chain known) (hbelow : below <+: known ++ parents) (acc : List Header) :
    (∃ err, genesisSnapshot engine chain = .error err ∧
      locate engine chain c below.length (tip chain.genesis.hash below) (below.drop known.length) acc = .error err) ∨
    ∃ xs ys s db, below = xs ++ ys ∧ snapshotOf P engine chain xs = .ok (some s) ∧
      locate engine chain c below.length (tip chain.genesis.hash below) (below.drop known.length) acc
        = .ok (s, acc ++ ys.reverse, db) := by
  induction below using reverseRecOn generalizing acc with
  | nil =>
    rw [length_nil, locate]
    cases hrecent : c.recents (tip chain.genesis.hash []) with
    | some s => exact .inr ⟨[], [], s, c.db, rfl, hsound.recents [] hbelow s hrecent, by simp⟩
    | none =>
      simp only [Nat.zero_mod, if_true]
      cases hload : c.db (tip chain.genesis.hash []) with
      | some s => exact .inr ⟨[], [], s, c.db, rfl, hsound.db [] hbelow s hload, by simp⟩
      | none =>
        cases hgenesis : genesisSnapshot engine chain with
        | error err => exact .inl ⟨err, rfl, rfl⟩
        | ok g =>
          have hnil : snapshotOf P engine chain [] = .ok (some g) := by
            rw [snapshotOf, hgenesis]
            rfl
          exact .inr ⟨[], [], g, g.store c.db, rfl, hnil, by simp⟩
  | append_singleton below header ih =>
    have hpre : below <+: known ++ parents := (prefix_append below [header]).trans hbelow
    have hparent := (hlinked below header hbelow).2
    rw [length_append, length_singleton, locate]
    cases hrecent : c.recents (tip chain.genesis.hash (below ++ [header])) with
    | some s => exact .inr ⟨below ++ [header], [], s, c.db, by simp, hsound.recents _ hbelow s hrecent, by simp⟩
    | none =>
      simp only []
      split
      · next s hload =>
        split_ifs at hload
        exact .inr ⟨below ++ [header], [], s, c.db, by simp, hsound.db _ hbelow s hload, by simp⟩
      · rw [Backend.gather_of_linked hlinked hstored hbelow]
        simp only [hparent]
        rcases ih hpre (acc ++ [header]) with herr | ⟨xs, ys, s, db, heq, hs, hok⟩
        · exact .inl herr
        · refine .inr ⟨xs, ys ++ [header], s, db, by rw [heq, append_assoc], hs, ?_⟩
          rw [hok]
          simp

section

variable {known : List Header} (hsound : c.Sound P engine chain (known ++ parents))
  (hlinked : Linked chain (known ++ parents)) (hstored : Stored chain known)

include hlinked in
theorem fits_genesis {g : Snapshot} (hg : genesisSnapshot engine chain = .ok g) :
    ∀ header ∈ (known ++ parents).head?, uint64 header.number = (g.number + 1) % 2 ^ 64 := by
  intro header hheader
  obtain ⟨rest, hrest⟩ := head?_eq_some_iff.mp hheader
  rw [(hlinked [] header ⟨rest, by rw [hrest]; rfl⟩).1, genesisSnapshot_number hg]
  rfl

include hsound hlinked hstored

theorem snapshot_agrees :
    (snapshot P engine chain c (known ++ parents).length (tip chain.genesis.hash (known ++ parents)) parents).1 =
      dereference (snapshotOf P engine chain (known ++ parents)) := by
  have hwalk := locate_spec hsound hlinked hstored (prefix_refl _) []
  rw [drop_left] at hwalk
  rcases hwalk with ⟨err, hgenesis, herr⟩ | ⟨xs, ys, base, db, heq, hbase, hok⟩
  · rw [snapshot, herr, snapshotOf, hgenesis]
    rfl
  · have hall : snapshotOf P engine chain (known ++ parents) = base.apply P ys := by
      rw [snapshotOf] at hbase ⊢
      cases hgenesis : genesisSnapshot engine chain with
      | error =>
        rw [hgenesis] at hbase
        cases hbase
      | ok g =>
        rw [hgenesis] at hbase
        have hfirst := fits_genesis hlinked hgenesis
        have hchain := hlinked.isChain
        rw [heq] at hchain hfirst ⊢
        exact Snapshot.apply_append hchain hfirst hbase
    rw [snapshot, hok, hall]
    simp only [settle_eq, nil_append, reverse_reverse]

theorem snapshotOf_of_snapshot
    (h : (snapshot P engine chain c (known ++ parents).length (tip chain.genesis.hash (known ++ parents))
      parents).1 = .ok s) : snapshotOf P engine chain (known ++ parents) = .ok (some s) := by
  rw [snapshot_agrees hsound hlinked hstored] at h
  rcases hall : snapshotOf P engine chain (known ++ parents) with err | _ | t <;> rw [hall] at h <;> cases h
  rfl

end

/-! ### One header at a time -/

variable (P) in
/-- The headers are applied one by one. -/
def Snapshot.applyEach (s : Snapshot) : List Header → Except Err (Option Snapshot)
  | [] => .ok (some s)
  | header :: rest =>
    match s.apply P [header] with
    | .error err => .error err
    | .ok none => .ok none
    | .ok (some t) => t.applyEach rest

variable (P engine chain) in
/-- `apply` of the headers, one by one from the genesis snapshot on. -/
def foldOf (headers : List Header) : Except Err (Option Snapshot) :=
  match genesisSnapshot engine chain with
  | .error err => .error err
  | .ok genesis => genesis.applyEach P headers

theorem Snapshot.apply_eq_applyEach (hchain : headers.IsChain Follows)
    (hfirst : ∀ h ∈ headers.head?, uint64 h.number = (s.number + 1) % 2 ^ 64) :
    s.apply P headers = s.applyEach P headers := by
  induction headers generalizing s with
  | nil => rfl
  | cons header rest ih =>
    have hone : s.apply P [header] =
        (s.applyHeader P header).map (Option.map (·.moved (uint64 header.number) header.hash)) := by
      rw [apply_of_fits (cons_ne_nil _ _) (isChain_singleton _) (by simpa using hfirst), applyHeaders]
      rcases s.applyHeader P header with err | _ | t <;> rfl
    obtain ⟨hlink, hrest⟩ := isChain_cons.mp hchain
    rw [apply_of_fits (cons_ne_nil _ _) hchain hfirst, applyEach, hone, applyHeaders]
    rcases s.applyHeader P header with err | _ | t
    · rfl
    · rfl
    · show _ = (t.moved (uint64 header.number) header.hash).applyEach P rest
      have hnext : ∀ h ∈ rest.head?,
          uint64 h.number = ((t.moved (uint64 header.number) header.hash).number + 1) % 2 ^ 64 := hlink
      rw [← ih hrest hnext]
      cases rest with
      | nil => rfl
      | cons next rest =>
        rw [apply_of_fits (cons_ne_nil _ _) hrest hnext, applyHeaders_moved, getLast_cons (cons_ne_nil _ _)]
        dsimp only
        rcases t.applyHeaders P (next :: rest) with err | _ | u <;> rfl

/-! ### Snapshots on disk -/

/-- `plainSnapShot`, as the document has it: the signers are the keys of an object. -/
structure PlainSnapShot where
  permissionSigners : Finset Bytes
  number : ℕ
  hash : Bytes
  usedSigners : Finset Bytes
  recentSignersWindow : List Bytes

def Snapshot.marshal (s : Snapshot) : PlainSnapShot :=
  ⟨s.permissionSigners.image addressText, s.number, hashText s.hash, s.usedSigners.image addressText,
    s.recentSignersWindow.map addressText⟩

/-- The keys of an object, each of which has to be an address. -/
def unmarshalKeys (keys : Finset Bytes) : Option (Finset Address) :=
  if ∀ k ∈ keys, (unmarshalAddress k).isSome then some (keys.image fun k => (unmarshalAddress k).getD 0) else none

def PlainSnapShot.unmarshal (p : PlainSnapShot) : Option Snapshot := do
  return ⟨← unmarshalKeys p.permissionSigners, p.number, ← unmarshalHash p.hash, ← unmarshalKeys p.usedSigners,
    ← p.recentSignersWindow.mapM unmarshalAddress⟩

/-- The documents that decode. -/
def loadSnapShot (disk : Hash → Option PlainSnapShot) (hash : Hash) : Option Snapshot :=
  (disk hash).bind (·.unmarshal)

omit [Keccak] in
theorem unmarshalKeys_image (signers : Finset Address) : unmarshalKeys (signers.image addressText) = some signers := by
  rw [unmarshalKeys, if_pos (by simp), Finset.image_image]
  simp [Function.comp_def]

omit [Keccak] in
theorem Snapshot.unmarshal_marshal (s : Snapshot) : s.marshal.unmarshal = some s := by
  have hwindow := Backend.mapM_of_map (h := id) Backend.unmarshalAddress_addressText s.recentSignersWindow
  rw [map_id] at hwindow
  simp [PlainSnapShot.unmarshal, marshal, unmarshalKeys_image, hwindow]

/-- **Path independence.** However the headers of a chain, each signed by its coinbase, are split into those that the
chain has and the batch, and whatever snapshots of its blocks are in memory or on disk, `snapshot` has the result of
applying the headers one by one from the genesis snapshot on; and what is stored is loaded again. -/
theorem snapshot_path_independent (P : Primitives) (engine : Engine) (chain : Chain) (known parents : List Header)
    (hlinked : Linked chain (known ++ parents)) (hstored : Stored chain known)
    (hsigned : ∀ h ∈ known ++ parents, ecrecover P h = .ok h.coinbase) :
    (∀ c : Caches, c.Sound P engine chain (known ++ parents) →
      (snapshot P engine chain c (known ++ parents).length (tip chain.genesis.hash (known ++ parents)) parents).1.map
        some = foldOf P engine chain (known ++ parents)) ∧
    ∀ (s : Snapshot) (disk : Hash → Option PlainSnapShot),
      loadSnapShot (Function.update disk s.hash (some s.marshal)) = s.store (loadSnapShot disk) ∧
        loadSnapShot (Function.update disk s.hash (some s.marshal)) s.hash = some s := by
  refine ⟨fun c hsound => ?_, fun s disk => ?_⟩
  · have hall : snapshotOf P engine chain (known ++ parents) = foldOf P engine chain (known ++ parents) := by
      rw [snapshotOf, foldOf]
      cases hgenesis : genesisSnapshot engine chain with
      | error => rfl
      | ok g => exact Snapshot.apply_eq_applyEach hlinked.isChain (fits_genesis hlinked hgenesis)
    rw [snapshot_agrees hsound hlinked hstored, ← hall]
    rcases hrun : snapshotOf P engine chain (known ++ parents) with err | _ | s
    · rfl
    · -- only a header that another has signed gives nil
      rw [snapshotOf] at hrun
      split at hrun
      · cases hrun
      · obtain ⟨-, pre, header, post, heq, ⟨signer, hsigner, hne⟩, -⟩ := Snapshot.exists_mismatched_of_apply hrun
        have hcoinbase := hsigned header (by rw [heq]; simp)
        exact absurd (Except.ok.inj (hsigner.symm.trans hcoinbase)) hne
    · rfl
  · have hload : loadSnapShot (Function.update disk s.hash (some s.marshal)) = s.store (loadSnapShot disk) := by
      funext hash
      rw [loadSnapShot, Snapshot.store]
      by_cases hh : hash = s.hash
      · rw [hh, Function.update_self, Function.update_self, Option.bind_some, s.unmarshal_marshal]
      · rw [Function.update_of_ne hh, Function.update_of_ne hh, loadSnapShot]
    exact ⟨hload, by rw [hload, Snapshot.store, Function.update_self]⟩

end Retrieval

namespace Sample

attribute [local instance] Backend.Sample.keccak

def genesisHeader : Header :=
  { header 0 0 0 0 with extra := addressBytes 1 ++ addressBytes 2 ++ addressBytes 3 }

def chain : Chain where
  getHeader hash _ := if hash = genesisHeader.hash then some genesisHeader else none
  hash_getHeader {hash _ h} hget := by
    split_ifs at hget with heq
    rw [← Option.some.inj hget, heq]
  genesis := genesisHeader
  genesis_number := rfl

def engine : Engine := ⟨⟨.normal, 0⟩, none⟩

def noCaches : Caches := ⟨fun _ => none, fun _ => none⟩

/-- Block 1 names 1 as its coinbase, and 2 signed it. -/
def forged : Header := header genesisHeader.hash 1 1 2

/-- `apply` returns nil and no error of the forged header, and the verification of a header on top of it
dereferences nil. -/
theorem forged_parent_panics : (newSnapshot 0 genesisHeader.hash [1, 2, 3]).apply primitives [forged] = .ok none ∧
      (snapshot primitives engine chain noCaches 1 forged.hash [forged]).1 = .error .panic ∧
      (verifySignerIdentity primitives engine chain noCaches (header forged.hash 2 2 2) [forged]).1
        = .error .panic := by
  decide +kernel

def honest : Header := header genesisHeader.hash 1 1 1

theorem snapshot_path_independent_honest :
    (snapshot primitives engine chain noCaches 1 honest.hash [honest]).1.map some =
        foldOf primitives engine chain [honest] ∧
      (foldOf primitives engine chain [honest]).map (Option.map (·.usedSigners)) = .ok (some {1}) := by
  have hlinked : Linked chain ([] ++ [honest]) := Backend.linked_nil.concat (by decide +kernel) (by decide +kernel)
  have hsigned : ∀ h ∈ [honest], ecrecover primitives h = .ok h.coinbase := by decide +kernel
  have hfold := (snapshot_path_independent primitives engine chain [] [honest] hlinked Backend.stored_nil hsigned).1
    noCaches ⟨nofun, nofun⟩
  rw [Backend.Snapshot.tip_concat] at hfold
  exact ⟨hfold, by decide +kernel⟩

theorem walk_honest {above below : List Header} {g : Header}
    (h : walk chain (predecessor (uint64 2)) honest.hash [honest] = above ++ g :: below) : above = [] ∧ g = honest := by
  have hwalk : walk chain (predecessor (uint64 2)) honest.hash [honest] = [honest] := by decide +kernel
  rw [hwalk, eq_comm, append_eq_singleton_iff] at h
  rcases h with ⟨hnil, hsingle⟩ | ⟨-, hnil⟩
  · exact ⟨hnil, (cons.inj hsingle).1⟩
  · cases hnil

theorem total_iff_honest : honest.parentHash = genesisHeader.hash ∧
    ∀ c, (verifySignerIdentity primitives engine chain c (header honest.hash 2 2 2) [honest]).1 ≠ .error .panic := by
  refine ⟨rfl, ((total_iff primitives engine).2.2 chain (header honest.hash 2 2 2) [honest] ?_).mpr ?_⟩
  · intro above g below hwalk g' hg'
    obtain ⟨rfl, rfl⟩ := walk_honest hwalk
    rw [nil_append, mem_singleton] at hg'
    rw [hg']
    decide +kernel
  · rintro above g below hwalk - ⟨signer, hsigner, hne⟩
    obtain ⟨rfl, rfl⟩ := walk_honest hwalk
    have hcoinbase : ecrecover primitives honest = .ok honest.coinbase := by decide +kernel
    exact hne (Except.ok.inj (hsigner.symm.trans hcoinbase))

end Sample

end GoWanchain.Ethash
