import GoWanchain.Core.HeaderChain
import GoWanchain.Types.Transaction
import GoWanchain.Lib.Guard

/-!
# The block chain

`WriteBlockAndState`, `insert` and `reorg` of `core/blockchain.go`. A block of more total
difficulty than the head becomes the head. If its parent is not the head, `reorg` walks down from
both to their common ancestor, inserts the blocks of the new branch into the index, the highest
first, and moves the lookup entries of transactions from the old branch to the new one.

The state, receipts and log events of a block and the caches are left out. `verifyReorg` is what
the engine has to say on a reorganisation (`VerifyPPOWReorg`).
-/

namespace GoWanchain.Core

open Types List Option Function
open State (Keccak)

structure Block where
  header : Header
  transactions : List Transaction
deriving DecidableEq

namespace Block

def hash [Keccak] (b : Block) : Hash := b.header.hash

def number (b : Block) : ℕ := uint64 b.header.number

def parentHash (b : Block) : Hash := b.header.parentHash

def txHashes [Keccak] (b : Block) : List Hash := b.transactions.map Transaction.hash

end Block

structure TxLookupEntry where
  blockHash : Hash
  blockIndex : ℕ
  index : ℕ
deriving DecidableEq

structure BlockChain where
  blocks : Hash × ℕ → Option Block
  tds : Hash × ℕ → Option ℤ
  canonical : ℕ → Hash
  lookups : Hash → Option TxLookupEntry
  genesisBlock : Block
  currentBlock : Block
  currentHeader : Header
  currentFastBlock : Block

/-- `fuel` is a loop that did not end. -/
inductive BlockErr
  | unknownAncestor
  | invalidOldChain
  | invalidNewChain
  | reorgRefused
  | panic
  | fuel
deriving DecidableEq

/-- `TxDifference`, on hashes. -/
def txDifference (a b : List Hash) : List Hash := a.filter fun tx => tx ∉ b

namespace BlockChain

variable [Keccak]

def insert (bc : BlockChain) (block : Block) : BlockChain :=
  let updateHeads := bc.canonical block.number ≠ block.hash
  { bc with
    canonical := update bc.canonical block.number block.hash
    currentBlock := block
    currentHeader := if updateHeads then block.header else bc.currentHeader
    currentFastBlock := if updateHeads then block else bc.currentFastBlock }

def writeTxLookupEntries (bc : BlockChain) (block : Block) : BlockChain :=
  { bc with
    lookups := block.txHashes.zipIdx.foldl
      (fun lookups tx => update lookups tx.1 (some ⟨block.hash, block.number, tx.2⟩)) bc.lookups }

/-- `DeleteTxLookupEntry`, for each of the hashes. -/
def deleteTxLookupEntries (bc : BlockChain) (txs : List Hash) : BlockChain :=
  { bc with lookups := txs.foldl (fun lookups tx => update lookups tx none) bc.lookups }

/-- The loop that reduces the higher of the two chains to the number of the other: the blocks that it
leaves behind, and the block that it ends at. -/
def reduce (blocks : Hash × ℕ → Option Block) (number : ℕ) : ℕ → Block → Except BlockErr (List Block × Option Block)
  | 0, _ => .error .fuel
  | fuel + 1, block =>
    if block.number = number then .ok ([], some block)
    else
      match blocks (block.parentHash, before block.number) with
      | none => .ok ([block], none)
      | some parent => do
        let (chain, last) ← reduce blocks number fuel parent
        return (block :: chain, last)

/-- The loop that walks down both chains to the common block: what it leaves behind of each, and the block. -/
def meet (blocks : Hash × ℕ → Option Block) : ℕ → Block → Block → Except BlockErr (List Block × List Block × Block)
  | 0, _, _ => .error .fuel
  | fuel + 1, oldBlock, newBlock =>
    if oldBlock.hash = newBlock.hash then .ok ([], [], oldBlock)
    else do
      let oldParent ← need (blocks (oldBlock.parentHash, before oldBlock.number)) .invalidOldChain
      let newParent ← need (blocks (newBlock.parentHash, before newBlock.number)) .invalidNewChain
      let (oldChain, newChain, commonBlock) ← meet blocks fuel oldParent newParent
      return (oldBlock :: oldChain, newBlock :: newChain, commonBlock)

/-- Reduce whichever of the two chains is higher: what is left behind of each, and the two blocks of one number. -/
def level (bc : BlockChain) (oldBlock newBlock : Block) :
    Except BlockErr (List Block × List Block × Option Block × Option Block) :=
  if oldBlock.number > newBlock.number then
    (reduce bc.blocks newBlock.number (oldBlock.number + 1) oldBlock).map fun r => (r.1, [], r.2, some newBlock)
  else (reduce bc.blocks oldBlock.number (newBlock.number + 1) newBlock).map fun r => ([], r.1, some oldBlock, r.2)

/-- The old chain, the new chain and the common block. -/
def fork (bc : BlockChain) (oldBlock newBlock : Block) : Except BlockErr (List Block × List Block × Block) := do
  let (oldChain, newChain, oldLast, newLast) ← bc.level oldBlock newBlock
  let oldLast ← need oldLast .invalidOldChain
  let newLast ← need newLast .invalidNewChain
  let (oldRest, newRest, commonBlock) ← meet bc.blocks (oldLast.number + 1) oldLast newLast
  return (oldChain ++ oldRest, newChain ++ newRest, commonBlock)

/-- `reorg` behind the search for the common block. -/
def rewrite (bc : BlockChain) (oldChain newChain : List Block) : BlockChain :=
  let bc := newChain.foldl (fun bc block => (bc.insert block).writeTxLookupEntries block) bc
  bc.deleteTxLookupEntries (txDifference (oldChain.flatMap (·.txHashes)) (newChain.flatMap (·.txHashes)))

def reorg (verifyReorg : BlockChain → Block → List Block → List Block → Bool) (bc : BlockChain)
    (oldBlock newBlock : Block) : Except BlockErr BlockChain := do
  let (oldChain, newChain, commonBlock) ← bc.fork oldBlock newBlock
  ensure (verifyReorg bc commonBlock oldChain newChain = true) .reorgRefused
  return bc.rewrite oldChain newChain

/-- The block has more total difficulty than the head, or as much and the luck of the `coin`. -/
def Wins (localTd externTd : ℤ) (coin : Bool) : Prop := externTd > localTd ∨ (externTd = localTd ∧ coin = true)

instance (localTd externTd : ℤ) (coin : Bool) : Decidable (Wins localTd externTd coin) :=
  inferInstanceAs (Decidable (_ ∨ _))

def putTd (bc : BlockChain) (block : Block) (td : ℤ) : BlockChain :=
  { bc with tds := update bc.tds (block.hash, block.number) (some td) }

def put (bc : BlockChain) (block : Block) : BlockChain :=
  { bc with blocks := update bc.blocks (block.hash, block.number) (some block) }

/-- The batch with the block and the lookup entries of its transactions is written, and the block becomes the head. -/
def adopt (bc : BlockChain) (block : Block) : BlockChain := ((bc.put block).writeTxLookupEntries block).insert block

/-- The part of `WriteBlockAndState` for a block that becomes the head. -/
def writeHead (verifyReorg : BlockChain → Block → List Block → List Block → Bool) (bc : BlockChain) (block : Block) :
    Except BlockErr BlockChain := do
  let bc ← if block.parentHash ≠ bc.currentBlock.hash then reorg verifyReorg bc bc.currentBlock block else .ok bc
  return bc.adopt block

def writeBlockAndState (verifyReorg : BlockChain → Block → List Block → List Block → Bool) (bc : BlockChain)
    (block : Block) (coin : Bool) : Except BlockErr WriteStatus × BlockChain :=
  match bc.tds (block.parentHash, before block.number) with
  | none => (.error .unknownAncestor, bc)
  | some ptd =>
    match bc.tds (bc.currentBlock.hash, bc.currentBlock.number) with
    | none => (.error .panic, bc)
    | some localTd =>
      let externTd := block.header.difficulty + ptd
      let bc := bc.putTd block externTd
      if Wins localTd externTd coin then
        match bc.writeHead verifyReorg block with
        | .error err => (.error err, bc)
        | .ok bc => (.ok .canonStat, bc)
      else (.ok .sideStat, bc.put block)

/-! ### What is stored -/

def parentOf (bc : BlockChain) (hash : Hash) (number : ℕ) : Option Hash :=
  (bc.blocks (hash, number)).map (·.parentHash)

/-- The two blocks, which have one hash, are the same but for seals. -/
structure Alike (a b : Block) : Prop where
  parentHash : a.parentHash = b.parentHash
  txHashes : a.txHashes = b.txHashes

/-- Blocks are stored under their hash and number, with a total difficulty and all their ancestors; the genesis
block is, and so is the head. -/
structure WellStored (bc : BlockChain) : Prop where
  keyed : ∀ k b, bc.blocks k = some b → b.hash = k.1 ∧ b.number = k.2
  td : ∀ k, (bc.blocks k).isSome → (bc.tds k).isSome
  bound : ∀ k, (bc.blocks k).isSome → k.2 + 1 < 2 ^ 64
  nonzero : ∀ k, (bc.blocks k).isSome → k.1 ≠ 0
  numbered : ∀ h n m, (bc.blocks (h, n)).isSome → (bc.blocks (h, m)).isSome → n = m
  linked : ∀ k, (bc.blocks k).isSome → ∃ l, Lineage bc.parentOf bc.genesisBlock.hash (k.1 :: l) ∧ l.length = k.2
  genesis : (bc.blocks (bc.genesisBlock.hash, 0)).isSome
  current : ∃ b, bc.blocks (bc.currentBlock.hash, bc.currentBlock.number) = some b ∧ Alike b bc.currentBlock

/-- What is asked of a block that is written: its parent is stored; its hash is not the zero hash, and a block of
the same hash that is stored is the same but for seals; its number is no largest `uint64`. -/
structure Fits (bc : BlockChain) (block : Block) : Prop where
  known : (bc.blocks (block.parentHash, before block.number)).isSome
  nonzero : block.hash ≠ 0
  fixed : ∀ n b, bc.blocks (block.hash, n) = some b → n = block.number ∧ Alike b block
  bound : block.number + 1 < 2 ^ 64

/-- `l` are the hashes of the ancestors of the block, which need not be stored itself. -/
inductive Rests (bc : BlockChain) : Block → List Hash → Prop
  | genesis {b : Block} (hhash : b.hash = bc.genesisBlock.hash) (hnumber : b.number = 0) : Rests bc b []
  | child {b : Block} {l : List Hash} (hl : Lineage bc.parentOf bc.genesisBlock.hash (b.parentHash :: l))
      (hnumber : b.number = l.length + 1) : Rests bc b (b.parentHash :: l)

variable {bc : BlockChain} {block : Block} {l : List Hash}

theorem Rests.length (h : bc.Rests block l) : l.length = block.number := by
  cases h with
  | genesis _ hnumber | child _ hnumber => exact hnumber.symm

variable {p : Hash} {k : Hash × ℕ} {x o n : Block} {bc' : BlockChain} {genesis : Header}

theorem Rests.parentHash_eq (h : bc.Rests block (p :: l)) : block.parentHash = p := by
  cases h
  rfl

theorem Rests.unique {b : Block} {l' : List Hash} (h : bc.Rests block l) (h' : bc.Rests b l')
    (hparent : block.parentHash = b.parentHash) (hnumber : block.number = b.number) : l = l' := by
  have hlen : l.length = l'.length := h.length.trans (hnumber.trans h'.length.symm)
  cases h with
  | genesis =>
    cases h' with
    | genesis => rfl
    | child => cases hlen
  | child hl =>
    cases h' with
    | genesis => cases hlen
    | child hl' =>
      rw [← hparent] at hl' ⊢
      rw [hl.unique hl' (Nat.succ.inj hlen)]

section

variable (hw : bc.WellStored)

include hw

theorem WellStored.rests_of_lineage (hl : Lineage bc.parentOf bc.genesisBlock.hash (p :: l)) :
    ∃ b, bc.blocks (p, l.length) = some b ∧ b.hash = p ∧ bc.Rests b l := by
  cases hl with
  | root =>
    obtain ⟨b, hb⟩ := isSome_iff_exists.mp hw.genesis
    obtain ⟨hhash, hnumber⟩ := hw.keyed _ _ hb
    exact ⟨b, hb, hhash, .genesis hhash hnumber⟩
  | cons hp hlink =>
    obtain ⟨b, hb, rfl⟩ := map_eq_some_iff.mp hlink
    obtain ⟨hhash, hnumber⟩ := hw.keyed _ _ hb
    exact ⟨b, hb, hhash, .child hp hnumber⟩

theorem WellStored.rests_of_stored (hb : bc.blocks k = some block) :
    ∃ l, bc.Rests block l ∧ Lineage bc.parentOf bc.genesisBlock.hash (block.hash :: l) := by
  obtain ⟨hhash, hnumber⟩ := hw.keyed k block hb
  obtain ⟨l, hl, hlen⟩ := hw.linked k (by rw [hb]; rfl)
  obtain ⟨b, hb', -, hrests⟩ := hw.rests_of_lineage hl
  rw [hlen, hb, some.injEq] at hb'
  exact ⟨l, hb' ▸ hrests, hhash ▸ hl⟩

theorem WellStored.rests_current :
    ∃ l, bc.Rests bc.currentBlock l ∧ Lineage bc.parentOf bc.genesisBlock.hash (bc.currentBlock.hash :: l) := by
  obtain ⟨b, hb, halike⟩ := hw.current
  obtain ⟨hhash, hnumber⟩ := hw.keyed _ _ hb
  simp only at hhash hnumber
  obtain ⟨l, hrests, hl⟩ := hw.rests_of_stored hb
  refine ⟨l, ?_, hhash ▸ hl⟩
  cases hrests with
  | genesis hroot hzero => exact .genesis (hhash.symm.trans hroot) (hnumber.symm.trans hzero)
  | child hp hlen =>
    rw [halike.parentHash] at hp ⊢
    exact .child hp (hnumber.symm.trans hlen)

theorem WellStored.rests_of_current (hl : Lineage bc.parentOf bc.genesisBlock.hash (bc.currentBlock.hash :: l))
    (hlen : l.length = bc.currentBlock.number) : bc.Rests bc.currentBlock l := by
  obtain ⟨l', hrests, hl'⟩ := hw.rests_current
  rwa [hl.unique hl' (hlen.trans hrests.length.symm)]

theorem WellStored.nonzero_current : bc.currentBlock.hash ≠ 0 := by
  obtain ⟨b, hb, -⟩ := hw.current
  exact hw.nonzero (bc.currentBlock.hash, bc.currentBlock.number) (by rw [hb]; rfl)

end

theorem Fits.number_ne_zero (hf : bc.Fits block) (hw : bc.WellStored) : block.number ≠ 0 := by
  intro hz
  have hbound := hw.bound _ hf.known
  rw [hz] at hbound
  simp [before] at hbound

theorem Fits.rests (hf : bc.Fits block) (hw : bc.WellStored) : ∃ l, bc.Rests block (block.parentHash :: l) := by
  have hz := hf.number_ne_zero hw
  obtain ⟨l, hl, hlen⟩ := hw.linked _ hf.known
  exact ⟨l, .child hl (by rw [hlen, before_add_one hz])⟩

theorem Fits.rests_on_current (hf : bc.Fits block) (hw : bc.WellStored)
    (hparent : block.parentHash = bc.currentBlock.hash) {l : List Hash}
    (hl : Lineage bc.parentOf bc.genesisBlock.hash (bc.currentBlock.hash :: l))
    (hlen : l.length = bc.currentBlock.number) : bc.Rests block (bc.currentBlock.hash :: l) := by
  obtain ⟨a, ha, -⟩ := hw.current
  have hnumber : before block.number = bc.currentBlock.number :=
    hw.numbered bc.currentBlock.hash _ _ (hparent ▸ hf.known) (by rw [ha]; rfl)
  rw [← hparent] at hl ⊢
  exact .child hl (by rw [hlen, ← hnumber, before_add_one (hf.number_ne_zero hw)])

/-! ### The loops -/

/-- The walk down from `b`, on the lineage `l`, through the blocks of `chain`, to `c` on the lineage `l'`. -/
inductive Descends (bc : BlockChain) : Block → List Hash → List Block → Block → List Hash → Prop
  | refl {b : Block} {l : List Hash} (hrests : Rests bc b l) : Descends bc b l [] b l
  | cons {b p c : Block} {l l' : List Hash} {chain : List Block} (hrests : Rests bc b (p.hash :: l))
      (hparent : bc.blocks (p.hash, p.number) = some p) (hd : Descends bc p l chain c l') :
      Descends bc b (p.hash :: l) (b :: chain) c l'

variable {b c m : Block} {l' l₁ : List Hash} {chain chain' : List Block}

theorem Descends.trans (h : bc.Descends b l chain m l₁) (h' : bc.Descends m l₁ chain' c l') :
    bc.Descends b l (chain ++ chain') c l' := by
  induction h with
  | refl => exact h'
  | cons hrests hparent _ ih => exact .cons hrests hparent (ih h')

section

variable (h : bc.Descends b l chain c l')

include h

theorem Descends.rests_last : bc.Rests c l' := by
  induction h with
  | refl hrests => exact hrests
  | cons _ _ _ ih => exact ih

theorem Descends.rests : bc.Rests b l := by
  cases h with
  | refl hrests | cons hrests => exact hrests

theorem Descends.lineage : b.hash :: l = chain.map (·.hash) ++ c.hash :: l' := by
  induction h with
  | refl => rfl
  | cons _ _ _ ih => rw [map_cons, cons_append, ← ih]

theorem Descends.length_eq : l.length = chain.length + l'.length := by
  have hlen := congrArg length h.lineage
  simp only [length_cons, length_append, length_map] at hlen
  omega

theorem Descends.stored (hx : x ∈ chain ∨ x = c) : x = b ∨ bc.blocks (x.hash, x.number) = some x := by
  induction h with
  | refl => exact .inl (by simpa using hx)
  | @cons b p c l l' chain _ hparent _ ih =>
    by_cases hxb : x = b
    · exact .inl hxb
    · right
      rcases ih (by simpa [hxb] using hx) with rfl | hstored
      · exact hparent
      · exact hstored

theorem Descends.number_mem (hx : x ∈ chain) : l'.length < x.number ∧ x.number ≤ l.length := by
  induction h with
  | refl => cases hx
  | @cons b p c l l' chain hrests _ hd ih =>
    have hlen := hd.length_eq
    have hnumber := hrests.length
    rw [length_cons] at hnumber ⊢
    rcases mem_cons.mp hx with rfl | hx
    · omega
    · have := ih hx
      omega

theorem Descends.pairwise : chain.Pairwise fun x y => y.number < x.number := by
  induction h with
  | refl => exact .nil
  | @cons b p c l l' chain hrests _ hd ih =>
    refine .cons (fun x hx => ?_) ih
    have hle := (hd.number_mem hx).2
    have hnumber := hrests.length
    rw [length_cons] at hnumber
    omega

end

theorem WellStored.parent_of_rests (hw : bc.WellStored) (hrests : bc.Rests b (p :: l)) :
    ∃ parent, bc.blocks (b.parentHash, before b.number) = some parent ∧ parent.hash = p ∧ bc.Rests parent l ∧
      bc.blocks (parent.hash, parent.number) = some parent := by
  cases hrests with
  | child hl hnum =>
    obtain ⟨parent, hparent, hhash, hrests'⟩ := hw.rests_of_lineage hl
    exact ⟨parent, by rw [hnum, before_succ, hparent], hhash, hrests', by rw [hhash, ← hrests'.length, hparent]⟩

theorem reduce_eq (hw : bc.WellStored) (number : ℕ) (hnumber : number ≤ l.length) (hrests : bc.Rests block l) {fuel : ℕ}
    (hfuel : l.length < fuel) :
    ∃ chain c l', reduce bc.blocks number fuel block = .ok (chain, some c) ∧ bc.Descends block l chain c l' ∧
      l'.length = number := by
  induction l generalizing block fuel with
  | nil =>
    obtain ⟨fuel, rfl⟩ : ∃ k, fuel = k + 1 := ⟨fuel - 1, by omega⟩
    have hlen := hrests.length
    rw [length_nil] at hlen hnumber
    refine ⟨[], block, [], ?_, .refl hrests, by simp only [length_nil]; omega⟩
    rw [reduce, if_pos (by omega)]
  | cons p l ih =>
    obtain ⟨fuel, rfl⟩ : ∃ k, fuel = k + 1 := ⟨fuel - 1, by omega⟩
    have hlen := hrests.length
    rw [reduce]
    by_cases hstop : block.number = number
    · exact ⟨[], block, p :: l, by rw [if_pos hstop], .refl hrests, by omega⟩
    · rw [length_cons] at hlen hnumber hfuel
      obtain ⟨parent, hparent, rfl, hrests', hstored⟩ := hw.parent_of_rests hrests
      obtain ⟨chain, c, l', hrun, hdesc, hl'⟩ := ih (by omega) hrests' (Nat.lt_of_succ_lt_succ hfuel)
      refine ⟨block :: chain, c, l', ?_, .cons hrests hstored hdesc, hl'⟩
      rw [if_neg hstop, hparent]
      simp only [hrun]
      rfl

/-- The block is not on the branch `l`. -/
def Off (l : List Hash) (x : Block) : Prop := l.reverse[x.number]? ≠ some x.hash

theorem Off.append {h : Hash} (hx : Off (h :: l) x) (pre : List Hash) (hnumber : x.number ≤ l.length) :
    Off (pre ++ h :: l) x := by
  rw [Off, Lineage.getElem?_append hnumber]
  exact hx

/-- A block that is stored, but for seals. -/
def Known (bc : BlockChain) (b : Block) : Prop := ∃ a, bc.blocks (b.hash, b.number) = some a ∧ Alike a b

/-- A block that, if it is stored, is the one that is. -/
def Genuine (bc : BlockChain) (b : Block) : Prop := ∀ a, bc.blocks (b.hash, b.number) = some a → Alike a b

theorem known_of_stored (hb : bc.blocks (b.hash, b.number) = some b) : bc.Known b := ⟨b, hb, rfl, rfl⟩

theorem genuine_of_stored (hb : bc.blocks (b.hash, b.number) = some b) : bc.Genuine b := by
  intro a ha
  cases (hb.symm.trans ha)
  exact ⟨rfl, rfl⟩

/-- The two chains go down to the common block side by side, and differ above it. -/
theorem meet_eq (hw : bc.WellStored) {lo ln : List Hash} (ho : bc.Rests o lo) (hn : bc.Rests n ln)
    (hknown : bc.Known o) (hgenuine : bc.Genuine n) (hlen : lo.length = ln.length) {fuel : ℕ}
    (hfuel : lo.length < fuel) : ∃ oldChain newChain c c' l, meet bc.blocks fuel o n = .ok (oldChain, newChain, c) ∧
      bc.Descends o lo oldChain c l ∧ bc.Descends n ln newChain c' l ∧ c'.hash = c.hash ∧
      ∀ x ∈ newChain, Off (o.hash :: lo) x := by
  have hnumber : o.number = n.number := ho.length.symm.trans (hlen.trans hn.length)
  induction lo generalizing o n ln fuel with
  | nil =>
    obtain ⟨fuel, rfl⟩ : ∃ k, fuel = k + 1 := ⟨fuel - 1, by omega⟩
    obtain rfl : ln = [] := length_eq_zero_iff.mp hlen.symm
    have hhash : o.hash = n.hash := by
      cases ho with
      | genesis ho =>
        cases hn with
        | genesis hn => rw [ho, hn]
    exact ⟨[], [], o, n, [], by rw [meet, if_pos hhash], .refl ho, .refl hn, hhash.symm, by simp⟩
  | cons p lo ih =>
    obtain ⟨fuel, rfl⟩ : ∃ k, fuel = k + 1 := ⟨fuel - 1, by omega⟩
    by_cases hhash : o.hash = n.hash
    · obtain ⟨a, ha, halike⟩ := hknown
      have hsame := hgenuine a (by rw [← hhash, ← hnumber, ha])
      obtain rfl := ho.unique hn (halike.parentHash.symm.trans hsame.parentHash) hnumber
      exact ⟨[], [], o, n, p :: lo, by rw [meet, if_pos hhash], .refl ho, .refl hn, hhash.symm, by simp⟩
    · cases ln with
      | nil => cases hlen
      | cons _ ln =>
        obtain ⟨op, hop, rfl, horests, hostored⟩ := hw.parent_of_rests ho
        obtain ⟨np, hnp, rfl, hnrests, hnstored⟩ := hw.parent_of_rests hn
        have hlen' : lo.length = ln.length := Nat.succ.inj hlen
        obtain ⟨oldChain, newChain, c, c', l, hrun, hod, hnd, hc, hoff⟩ := ih horests hnrests (known_of_stored hostored)
          (genuine_of_stored hnstored) hlen' (Nat.lt_of_succ_lt_succ hfuel)
          (horests.length.symm.trans (hlen'.trans hnrests.length))
        refine ⟨o :: oldChain, n :: newChain, c, c', l, ?_, .cons ho hostored hod, .cons hn hnstored hnd, hc, ?_⟩
        · rw [meet, if_neg hhash, hop, hnp]
          simp only [need, elim_some]
          show (meet bc.blocks fuel op np >>= _) = _
          rw [hrun]
          rfl
        · intro x hx
          rcases mem_cons.mp hx with rfl | hx
          · rw [Off, ← hnumber, ← ho.length]
            simpa using hhash
          · have hle := (hnd.number_mem hx).2
            exact (hoff x hx).append [o.hash] (by omega)

theorem fork_eq (hw : bc.WellStored) {lo ln : List Hash} (ho : bc.Rests o lo) (hn : bc.Rests n ln)
    (hknown : bc.Known o) (hgenuine : bc.Genuine n) :
    ∃ oldChain newChain c c' l, bc.fork o n = .ok (oldChain, newChain, c) ∧
      bc.Descends o lo oldChain c l ∧ bc.Descends n ln newChain c' l ∧ c'.hash = c.hash ∧
      ∀ x ∈ newChain, Off (o.hash :: lo) x := by
  by_cases hgt : o.number > n.number
  · obtain ⟨chain, m, lm, hreduce, hdown, hlm⟩ := reduce_eq hw n.number (by rw [ho.length]; omega) ho
      (show lo.length < o.number + 1 by rw [ho.length]; omega)
    have hm := hdown.rests_last
    have hmknown : bc.Known m := by
      rcases hdown.stored (.inr rfl) with rfl | hstored
      · exact hknown
      · exact known_of_stored hstored
    obtain ⟨oldChain, newChain, c, c', l, hmeet, hod, hnd, hc, hoff⟩ := meet_eq hw hm hn hmknown hgenuine
      (hlm.trans hn.length.symm) (show lm.length < m.number + 1 by rw [hm.length]; omega)
    refine ⟨chain ++ oldChain, newChain, c, c', l, ?_, hdown.trans hod, hnd, hc, ?_⟩
    · rw [fork, level, if_pos hgt, hreduce]
      show (meet bc.blocks (m.number + 1) m n >>= _) = _
      rw [hmeet]
      rfl
    · intro x hx
      rw [hdown.lineage]
      exact (hoff x hx).append _ (by rw [hlm, ← hn.length]; exact (hnd.number_mem hx).2)
  · obtain ⟨chain, m, lm, hreduce, hdown, hlm⟩ := reduce_eq hw o.number (by rw [hn.length]; omega) hn
      (show ln.length < n.number + 1 by rw [hn.length]; omega)
    have hm := hdown.rests_last
    have hmgenuine : bc.Genuine m := by
      rcases hdown.stored (.inr rfl) with rfl | hstored
      · exact hgenuine
      · exact genuine_of_stored hstored
    obtain ⟨oldChain, newChain, c, c', l, hmeet, hod, hnd, hc, hoff⟩ := meet_eq hw ho hm hknown hmgenuine
      (ho.length.trans hlm.symm) (show lo.length < o.number + 1 by rw [ho.length]; omega)
    refine ⟨oldChain, chain ++ newChain, c, c', l, ?_, hod, hdown.trans hnd, hc, ?_⟩
    · rw [fork, level, if_neg hgt, hreduce]
      show (meet bc.blocks (o.number + 1) o m >>= _) = _
      rw [hmeet]
      rfl
    · intro x hx
      rcases mem_append.mp hx with hx | hx
      · -- above the old head
        have hlt := (hdown.number_mem hx).1
        rw [Off, getElem?_eq_none]
        · simp
        · rw [length_reverse, length_cons, ho.length]
          omega
      · exact hoff x hx

/-! ### Calls -/

/-- How a call ends for a block whose ancestors are stored. -/
inductive Ends (bc : BlockChain) (block : Block) : Except BlockErr WriteStatus × BlockChain → Prop
  | side (td : ℤ) : Ends bc block (.ok .sideStat, (bc.putTd block td).put block)
  | refused (td : ℤ) (hparent : block.parentHash ≠ bc.currentBlock.hash) :
    Ends bc block (.error .reorgRefused, bc.putTd block td)
  | extended (td : ℤ) (hparent : block.parentHash = bc.currentBlock.hash) :
    Ends bc block (.ok .canonStat, (bc.putTd block td).adopt block)
  | reorganised (td : ℤ) (hparent : block.parentHash ≠ bc.currentBlock.hash) {oldChain newChain : List Block}
    {c c' : Block} {lo ln l : List Hash} (hold : bc.Descends bc.currentBlock lo oldChain c l)
    (hnew : bc.Descends block ln newChain c' l) (hcommon : c'.hash = c.hash)
    (hoff : ∀ x ∈ newChain, Off (bc.currentBlock.hash :: lo) x) :
    Ends bc block (.ok .canonStat, ((bc.putTd block td).rewrite oldChain newChain).adopt block)

section

variable (verifyReorg : BlockChain → Block → List Block → List Block → Bool)

theorem reorg_eq {oldChain newChain : List Block} (hfork : bc.fork o n = .ok (oldChain, newChain, c)) :
    reorg verifyReorg bc o n = if verifyReorg bc c oldChain newChain = true then .ok (bc.rewrite oldChain newChain)
      else .error .reorgRefused := by
  rw [reorg, hfork]
  show (ensure (verifyReorg bc c oldChain newChain = true) BlockErr.reorgRefused >>= _) = _
  rw [ensure]
  split_ifs <;> rfl

theorem writeHead_of_eq (hparent : block.parentHash = bc.currentBlock.hash) :
    bc.writeHead verifyReorg block = .ok (bc.adopt block) := by
  rw [writeHead, if_neg (not_not_intro hparent)]
  rfl

theorem writeHead_of_ne (hparent : block.parentHash ≠ bc.currentBlock.hash) :
    bc.writeHead verifyReorg block = (reorg verifyReorg bc bc.currentBlock block).map (·.adopt block) := by
  rw [writeHead, if_pos hparent]
  rfl

end

/-- A call for a block whose ancestors are stored stores it, and makes it the head or not; or the engine refuses the
reorganisation. No walk comes to an end of its branch. -/
theorem ends_of_fits (hw : bc.WellStored) (hf : bc.Fits block)
    (verifyReorg : BlockChain → Block → List Block → List Block → Bool) (coin : Bool) :
    bc.Ends block (bc.writeBlockAndState verifyReorg block coin) := by
  obtain ⟨ptd, hptd⟩ := isSome_iff_exists.mp (hw.td _ hf.known)
  obtain ⟨head, hhead, -⟩ := hw.current
  obtain ⟨localTd, hlocal⟩ := isSome_iff_exists.mp (hw.td (bc.currentBlock.hash, bc.currentBlock.number) (by
    rw [hhead]; rfl))
  rw [writeBlockAndState, hptd, hlocal]
  simp only
  generalize block.header.difficulty + ptd = td
  split_ifs with hwins
  · by_cases hparent : block.parentHash = bc.currentBlock.hash
    · rw [writeHead_of_eq verifyReorg (show block.parentHash = (bc.putTd block td).currentBlock.hash from hparent)]
      exact .extended td hparent
    · obtain ⟨lo, ho, -⟩ := hw.rests_current
      obtain ⟨ln, hn⟩ := hf.rests hw
      obtain ⟨oldChain, newChain, c, c', l, hfork, hold, hnew, hcommon, hoff⟩ :=
        fork_eq hw ho hn hw.current fun a ha => (hf.fixed _ a ha).2
      rw [writeHead_of_ne verifyReorg (show block.parentHash ≠ (bc.putTd block td).currentBlock.hash from hparent),
        reorg_eq verifyReorg (show (bc.putTd block td).fork (bc.putTd block td).currentBlock block = _ from hfork)]
      split_ifs with hverify
      · exact .reorganised td hparent hold hnew hcommon hoff
      · exact .refused td hparent
  · exact .side td

/-! ### What a call stores -/

theorem parentOf_put_self : (bc.put block).parentOf block.hash block.number = some block.parentHash := by
  simp [parentOf, put]

theorem Fits.parentOf_put (hf : bc.Fits block) (h : Hash) (n : ℕ) (p : Hash) (hp : bc.parentOf h n = some p) :
    (bc.put block).parentOf h n = some p := by
  by_cases hkey : (h, n) = (block.hash, block.number)
  · cases hkey
    obtain ⟨a, ha, rfl⟩ := map_eq_some_iff.mp hp
    rw [parentOf_put_self, (hf.fixed _ a ha).2.parentHash]
  · rw [parentOf, put]
    simp only
    rwa [update_of_ne hkey]

theorem Fits.lineage_put (hf : bc.Fits block) (hl : Lineage bc.parentOf bc.genesisBlock.hash l) :
    Lineage (bc.put block).parentOf bc.genesisBlock.hash l :=
  hl.mono hf.parentOf_put

theorem Fits.lineage_self (hf : bc.Fits block) (hrests : bc.Rests block l) :
    Lineage (bc.put block).parentOf bc.genesisBlock.hash (block.hash :: l) := by
  cases hrests with
  | genesis hhash => exact hhash ▸ .root
  | child hl hnumber => exact .cons (hf.lineage_put hl) (by rw [← hnumber, parentOf_put_self])

theorem put_isSome (hk : ((bc.put block).blocks k).isSome) : k = (block.hash, block.number) ∨ (bc.blocks k).isSome := by
  by_cases hkey : k = (block.hash, block.number)
  · exact .inl hkey
  · rw [put] at hk
    simp only [update_of_ne hkey] at hk
    exact .inr hk

theorem isSome_put (hk : (bc.blocks k).isSome) : ((bc.put block).blocks k).isSome := by
  by_cases hkey : k = (block.hash, block.number)
  · subst hkey
    simp [put]
  · rw [put]
    simpa only [update_of_ne hkey] using hk

theorem Known.put (hf : bc.Fits block) (hb : bc.Known b) : (bc.put block).Known b := by
  obtain ⟨a, ha, halike⟩ := hb
  by_cases hkey : (b.hash, b.number) = (block.hash, block.number)
  · obtain ⟨hhash, hnumber⟩ := Prod.mk.inj hkey
    have hsame := (hf.fixed _ a (by rw [← hhash, ha])).2
    refine ⟨block, by rw [hkey]; simp [BlockChain.put], ?_, ?_⟩
    · rw [← hsame.parentHash, halike.parentHash]
    · rw [← hsame.txHashes, halike.txHashes]
  · refine ⟨a, ?_, halike⟩
    rw [BlockChain.put]
    simp only [update_of_ne hkey]
    exact ha

theorem WellStored.put (hw : bc.WellStored) (hf : bc.Fits block) (htd : (bc.tds (block.hash, block.number)).isSome) :
    (bc.put block).WellStored where
  keyed k a ha := by
    by_cases hkey : k = (block.hash, block.number)
    · subst hkey
      obtain rfl : block = a := by simpa [BlockChain.put] using ha
      exact ⟨rfl, rfl⟩
    · exact hw.keyed k a (by simpa [BlockChain.put, update_of_ne hkey] using ha)
  td k hk := by
    rcases put_isSome hk with rfl | hk
    · exact htd
    · exact hw.td k hk
  bound k hk := by
    rcases put_isSome hk with rfl | hk
    · exact hf.bound
    · exact hw.bound k hk
  nonzero k hk := by
    rcases put_isSome hk with rfl | hk
    · exact hf.nonzero
    · exact hw.nonzero k hk
  numbered h n m hn hm := by
    have hfixed (n : ℕ) (hn : (bc.blocks (block.hash, n)).isSome) : n = block.number := by
      obtain ⟨b, hb⟩ := isSome_iff_exists.mp hn
      exact (hf.fixed n b hb).1
    rcases put_isSome hn with hkey | hn <;> rcases put_isSome hm with hkey' | hm
    · exact (Prod.mk.inj hkey).2.trans (Prod.mk.inj hkey').2.symm
    · cases hkey
      exact (hfixed m hm).symm
    · cases hkey'
      exact hfixed n hn
    · exact hw.numbered h n m hn hm
  linked k hk := by
    rcases put_isSome hk with rfl | hk
    · obtain ⟨l, hrests⟩ := hf.rests hw
      exact ⟨_, hf.lineage_self hrests, hrests.length⟩
    · obtain ⟨l, hl, hlen⟩ := hw.linked k hk
      exact ⟨l, hf.lineage_put hl, hlen⟩
  genesis := isSome_put hw.genesis
  current := Known.put hf hw.current

/-- The two chains store the same. -/
structure SameStore (bc bc' : BlockChain) : Prop where
  blocks : bc'.blocks = bc.blocks
  tds : bc'.tds = bc.tds
  genesisBlock : bc'.genesisBlock = bc.genesisBlock

omit [Keccak] in
theorem SameStore.parentOf (h : SameStore bc bc') : bc'.parentOf = bc.parentOf := by
  funext hash number
  rw [BlockChain.parentOf, BlockChain.parentOf, h.blocks]

theorem WellStored.of_same (hw : bc.WellStored) (h : SameStore bc bc') (hcurrent : bc.Known bc'.currentBlock) :
    bc'.WellStored := by
  obtain ⟨hblocks, htds, hgenesis⟩ := h
  cases bc'
  dsimp only at hblocks htds hgenesis
  subst hblocks htds hgenesis
  exact ⟨hw.keyed, hw.td, hw.bound, hw.nonzero, hw.numbered, hw.linked, hw.genesis, hcurrent⟩

theorem sameStore_foldl (chain : List Block) (bc : BlockChain) :
    SameStore bc (chain.foldl (fun bc block => (bc.insert block).writeTxLookupEntries block) bc) := by
  induction chain generalizing bc with
  | nil => exact ⟨rfl, rfl, rfl⟩
  | cons b _ ih =>
    obtain ⟨hblocks, htds, hgenesis⟩ := ih ((bc.insert b).writeTxLookupEntries b)
    exact ⟨hblocks, htds, hgenesis⟩

theorem sameStore_rewrite (oldChain newChain : List Block) (bc : BlockChain) :
    SameStore bc (bc.rewrite oldChain newChain) := by
  obtain ⟨hblocks, htds, hgenesis⟩ := sameStore_foldl newChain bc
  exact ⟨hblocks, htds, hgenesis⟩

theorem WellStored.putTd (hw : bc.WellStored) (block : Block) (td : ℤ) : (bc.putTd block td).WellStored :=
  { hw with
    td k hk := by
      by_cases hkey : k = (block.hash, block.number)
      · subst hkey
        simp [BlockChain.putTd]
      · rw [BlockChain.putTd]
        simp only [update_of_ne hkey]
        exact hw.td k hk }

theorem Fits.putTd (hf : bc.Fits block) (td : ℤ) : (bc.putTd block td).Fits block :=
  ⟨hf.known, hf.nonzero, hf.fixed, hf.bound⟩

theorem SameStore.adopt (h : SameStore bc bc') (block : Block) : SameStore (bc.put block) (bc'.adopt block) where
  blocks := by
    rw [BlockChain.put, ← h.blocks]
    rfl
  tds := h.tds
  genesisBlock := h.genesisBlock

theorem known_put_self : (bc.put block).Known block := known_of_stored (by simp [put])

theorem Ends.wellStored (hw : bc.WellStored) (hf : bc.Fits block) {status : Except BlockErr WriteStatus}
    (h : bc.Ends block (status, bc')) : bc'.WellStored := by
  have hput (td : ℤ) : ((bc.putTd block td).put block).WellStored :=
    (hw.putTd block td).put (hf.putTd td) (by simp [putTd])
  cases h with
  | side td => exact hput td
  | refused td => exact hw.putTd block td
  | extended td => exact (hput td).of_same (SameStore.adopt ⟨rfl, rfl, rfl⟩ block) known_put_self
  | reorganised td => exact (hput td).of_same ((sameStore_rewrite _ _ _).adopt block) known_put_self

/-! ### Runs -/

/-- A call: the block, the toss that breaks a tie, and what the engine has to say on a reorganisation. -/
structure Op where
  block : Block
  coin : Bool
  verifyReorg : BlockChain → Block → List Block → List Block → Bool

def call (bc : BlockChain) (op : Op) : Except BlockErr WriteStatus :=
  (bc.writeBlockAndState op.verifyReorg op.block op.coin).1

def step (bc : BlockChain) (op : Op) : BlockChain := (bc.writeBlockAndState op.verifyReorg op.block op.coin).2

def new (genesis : Header) : BlockChain :=
  let block : Block := ⟨genesis, []⟩
  { blocks := fun k => if k = (block.hash, 0) then some block else none
    tds := fun k => if k = (block.hash, 0) then some genesis.difficulty else none
    canonical := fun n => if n = 0 then block.hash else 0
    lookups := fun _ => none
    genesisBlock := block
    currentBlock := block
    currentHeader := genesis
    currentFastBlock := block }

theorem ends_step (hw : bc.WellStored) {op : Op} (hf : bc.Fits op.block) : bc.Ends op.block (bc.call op, bc.step op) :=
  ends_of_fits hw hf op.verifyReorg op.coin

theorem WellStored.step (hw : bc.WellStored) {op : Op} (hf : bc.Fits op.block) : (bc.step op).WellStored :=
  (ends_step hw hf).wellStored hw hf

theorem wellStored_new (hnumber : uint64 genesis.number = 0) (hhash : genesis.hash ≠ 0) : (new genesis).WellStored := by
  have hkey {k : Hash × ℕ} {a : Block} (ha : (new genesis).blocks k = some a) :
      k = (genesis.hash, 0) ∧ a = ⟨genesis, []⟩ := by
    simp only [new] at ha
    split_ifs at ha with hk
    exact ⟨hk, (some.inj ha).symm⟩
  have hkeys {k : Hash × ℕ} (hk : ((new genesis).blocks k).isSome) : k = (genesis.hash, 0) :=
    (hkey (some_get hk).symm).1
  refine ⟨fun k a ha => ?_, fun k hk => ?_, fun k hk => ?_, fun k hk => ?_, fun h n m hn hm => ?_, fun k hk => ?_,
    by simp [new], ⟨genesis, []⟩, by simp [new, Block.number, hnumber], rfl, rfl⟩
  · obtain ⟨rfl, rfl⟩ := hkey ha
    exact ⟨rfl, hnumber⟩
  · rw [hkeys hk]
    exact isSome_iff_exists.mpr ⟨_, if_pos rfl⟩
  · rw [hkeys hk]
    norm_num
  · rwa [hkeys hk]
  · exact (Prod.mk.inj (hkeys hn)).2.trans (Prod.mk.inj (hkeys hm)).2.symm
  · rw [hkeys hk]
    exact ⟨[], .root, rfl⟩

theorem blocks_new_of_ne {h : Hash} (hne : h ≠ genesis.hash) (n : ℕ) : (new genesis).blocks (h, n) = none := by
  simp only [new]
  exact if_neg fun hkey => hne (Prod.mk.inj hkey).1

theorem fits_new {block : Block} (hparent : block.parentHash = genesis.hash)
    (hnumber : block.number = 1) (hnonzero : block.hash ≠ 0) (hne : block.hash ≠ genesis.hash) :
    (new genesis).Fits block where
  known := by
    rw [hparent, hnumber]
    exact isSome_iff_exists.mpr ⟨⟨genesis, []⟩, if_pos rfl⟩
  nonzero := hnonzero
  fixed n b hb := by
    rw [blocks_new_of_ne hne] at hb
    cases hb
  bound := by
    rw [hnumber]
    norm_num

/-! ### The choice of a fork -/

/-- The head is stored, and no block that is stored has more total difficulty. -/
def Heaviest (bc : BlockChain) : Prop := (bc.blocks (bc.currentBlock.hash, bc.currentBlock.number)).isSome ∧
  ∃ td, bc.tds (bc.currentBlock.hash, bc.currentBlock.number) = some td ∧
    ∀ k t, (bc.blocks k).isSome → bc.tds k = some t → t ≤ td

/-- The block is not stored yet, or with the total difficulty that it is given now. -/
def Weighed (bc : BlockChain) (block : Block) : Prop :=
  (bc.blocks (block.hash, block.number)).isSome → ∀ ptd, bc.tds (block.parentHash, before block.number) = some ptd →
    bc.tds (block.hash, block.number) = some (block.header.difficulty + ptd)

theorem sameStore_writeHead {verifyReorg : BlockChain → Block → List Block → List Block → Bool}
    (h : bc.writeHead verifyReorg block = .ok bc') : SameStore (bc.put block) bc' ∧ bc'.currentBlock = block := by
  unfold writeHead at h
  split_ifs at h
  · simp only [reorg, bind_eq_ok, pure_eq_ok] at h
    obtain ⟨_, ⟨⟨oldChain, newChain, _⟩, -, _, -, rfl⟩, rfl⟩ := h
    exact ⟨(sameStore_rewrite oldChain newChain bc).adopt block, rfl⟩
  · cases h
    exact ⟨SameStore.adopt ⟨rfl, rfl, rfl⟩ block, rfl⟩

theorem Heaviest.step (h : bc.Heaviest) {op : Op} (hb : bc.Weighed op.block) : (bc.step op).Heaviest := by
  obtain ⟨block, coin, verifyReorg⟩ := op
  obtain ⟨hstored, localTd, hlocal, hmax⟩ := h
  simp only [BlockChain.step, writeBlockAndState]
  cases hptd : bc.tds (block.parentHash, before block.number) with
  | none => exact ⟨hstored, localTd, hlocal, hmax⟩
  | some ptd =>
    simp only [hlocal]
    generalize htd : block.header.difficulty + ptd = td
    -- only the total difficulty of the block is written, and it is not stored with another one
    have hkeep : ∀ k, (bc.blocks k).isSome → (bc.putTd block td).tds k = bc.tds k := by
      intro k hk
      refine (update_apply _ _ _ _).trans (ite_eq_right_iff.mpr ?_)
      rintro rfl
      rw [hb hk ptd hptd, htd]
    have hself : (bc.putTd block td).tds (block.hash, block.number) = some td := update_self ..
    have hbound {x : ℤ} (hx : localTd ≤ x) (htd : td ≤ x) (k t) (hk : ((bc.put block).blocks k).isSome)
        (ht : (bc.putTd block td).tds k = some t) : t ≤ x := by
      rcases put_isSome hk with rfl | hk
      · rwa [← some.inj (hself.symm.trans ht)]
      · exact (hmax k t hk (hkeep k hk ▸ ht)).trans hx
    have hcurrent := (hkeep _ hstored).trans hlocal
    split_ifs with hwins
    · cases hhead : (bc.putTd block td).writeHead verifyReorg block with
      | error => exact ⟨hstored, localTd, hcurrent, fun k t hk ht => hmax k t hk (hkeep k hk ▸ ht)⟩
      | ok bc' =>
        obtain ⟨⟨hblocks, htds, -⟩, hnew⟩ := sameStore_writeHead hhead
        have hle : localTd ≤ td := hwins.elim le_of_lt fun heq => heq.1.ge
        rw [Heaviest, hnew, hblocks, htds]
        exact ⟨by simp [put], td, hself, hbound hle le_rfl⟩
    · have hle : td ≤ localTd := not_lt.mp fun hlt => hwins (.inl hlt)
      exact ⟨isSome_put hstored, localTd, hcurrent, hbound le_rfl hle⟩

/-- **The choice of a fork.** A block is compared with the head only. Yet after every run no block that is stored has
more total difficulty than the head, whatever reorganisations the engine refuses. -/
theorem head_heaviest (hnumber : uint64 genesis.number = 0) {ops : List Op}
    (h : Run.Along step (fun bc op => bc.Weighed op.block) (new genesis) ops) :
    (Run.run step (new genesis) ops).Heaviest := by
  have hnew : (new genesis).Heaviest := by
    refine ⟨by simp [new, Block.number, hnumber], genesis.difficulty, by simp [new, Block.number, hnumber], ?_⟩
    intro k t _ ht
    simp only [new] at ht
    split_ifs at ht
    exact (some.inj ht).ge
  exact h.invariant (fun _ _ hmax hb => hmax.step hb) hnew

end BlockChain

namespace Sample

open BlockChain

attribute [local instance] Backend.Sample.keccak

def block (parentHash : Hash) (number difficulty : ℤ) (transactions : List Transaction) : Block :=
  ⟨header parentHash number difficulty, transactions⟩

def write (block : Block) : Op := ⟨block, false, fun _ _ _ _ => true⟩

theorem head_heaviest_first : (Run.run step (new genesis) [write (block genesis.hash 1 2 [])]).Heaviest ∧
    ((new genesis).step (write (block genesis.hash 1 2 []))).currentBlock = block genesis.hash 1 2 [] :=
  ⟨head_heaviest rfl ⟨fun hstored => absurd hstored (by decide +kernel), trivial⟩, by decide +kernel⟩

end Sample

end GoWanchain.Core
