import GoWanchain.Core.BlockChain

/-!
# The index of the canonical chain

`insert` writes one entry of the index, and never deletes one: a reorganisation to a branch that
is heavier but shorter leaves the entries of the old branch above the new head. And `reorg`
inserts the new chain from the top down, moving the current header and the current fast block
along: they end at its lowest block, for when the head itself is inserted at the end, the index
has it already.
-/

namespace GoWanchain.Core.BlockChain

open Types List Function
open State (Keccak)
open HeaderChain (entry entry_append entry_cons_length entry_of_lt)

variable [Keccak] {bc : BlockChain} {block b c : Block} {l l' lo ln : List Hash} {chain oldChain newChain : List Block}

/-- **The index is exact**: the entry up to the number of the head is its ancestor of that number, and there are
none above; the current header and the current fast block are the head. -/
structure Exact (bc : BlockChain) : Prop where
  index : ∃ l, Lineage bc.parentOf bc.genesisBlock.hash (bc.currentBlock.hash :: l) ∧
    l.length = bc.currentBlock.number ∧ ∀ n, bc.canonical n = entry (bc.currentBlock.hash :: l) n
  header : bc.currentHeader.hash = bc.currentBlock.hash
  fastBlock : bc.currentFastBlock.hash = bc.currentBlock.hash

/-- The block is on top of the head, or in its place. -/
def Shallow (bc : BlockChain) (block : Block) : Prop :=
  block.parentHash = bc.currentBlock.hash ∨
    block.parentHash = bc.currentBlock.parentHash ∧ block.number = bc.currentBlock.number

instance (bc : BlockChain) (block : Block) : Decidable (bc.Shallow block) := inferInstanceAs (Decidable (_ ∨ _))

theorem canonical_foldl (hd : bc.Descends b l chain c l') (bc' : BlockChain) (n : ℕ) :
    (chain.foldl (fun bc block => (bc.insert block).writeTxLookupEntries block) bc').canonical n
      = if l'.length < n ∧ n ≤ l.length then entry (b.hash :: l) n else bc'.canonical n := by
  induction hd generalizing bc' with
  | refl => rw [foldl_nil, if_neg (by omega)]
  | @cons b p c l l' chain hrests _ hd ih =>
    have hnumber := hrests.length
    have hlen := hd.length_eq
    rw [length_cons] at hnumber ⊢
    rw [foldl_cons, ih]
    show (if l'.length < n ∧ n ≤ l.length then _ else update bc'.canonical b.number b.hash n) = _
    rw [← hnumber]
    rcases Nat.lt_trichotomy n (l.length + 1) with hn | rfl | hn
    · rw [update_of_ne (by omega)]
      have hentry : entry ([b.hash] ++ p.hash :: l) n = entry (p.hash :: l) n := entry_append (by omega)
      rw [← hentry]
      split_ifs <;> first | rfl | omega
    · rw [if_neg (by omega), update_self, if_pos (by omega)]
      exact (entry_cons_length (h := b.hash) (l := p.hash :: l)).symm
    · rw [if_neg (by omega), update_of_ne (by omega), if_neg (by omega)]

theorem heads_foldl {y : Block} (pre : List Block) (hpre : ∀ x ∈ pre, x.number ≠ y.number)
    (hy : bc.canonical y.number ≠ y.hash) :
    ((pre ++ [y]).foldl (fun bc block => (bc.insert block).writeTxLookupEntries block) bc).currentHeader = y.header ∧
      ((pre ++ [y]).foldl (fun bc block => (bc.insert block).writeTxLookupEntries block) bc).currentFastBlock = y := by
  induction pre generalizing bc with
  | nil =>
    refine ⟨?_, ?_⟩
    · show (if bc.canonical y.number ≠ y.hash then y.header else bc.currentHeader) = y.header
      rw [if_pos hy]
    · show (if bc.canonical y.number ≠ y.hash then y else bc.currentFastBlock) = y
      rw [if_pos hy]
  | cons x _ ih =>
    have hx : x.number ≠ y.number := hpre x mem_cons_self
    have hnext : ((bc.insert x).writeTxLookupEntries x).canonical y.number ≠ y.hash := by
      show update bc.canonical x.number x.hash y.number ≠ y.hash
      rwa [update_of_ne hx.symm]
    exact ih (fun x hx => hpre x (mem_cons_of_mem _ hx)) hnext

theorem canonical_rewrite (hold : bc.Descends bc.currentBlock lo oldChain c l) {c' : Block}
    (hnew : bc.Descends block ln newChain c' l) (hcommon : c'.hash = c.hash)
    (hindex : ∀ n, bc.canonical n = entry (bc.currentBlock.hash :: lo) n) (td : ℤ) (n : ℕ) :
    ((bc.putTd block td).rewrite oldChain newChain).canonical n
      = if n ≤ ln.length then entry (block.hash :: ln) n else entry (bc.currentBlock.hash :: lo) n := by
  have hrewrite := canonical_foldl hnew (bc.putTd block td) n
  rw [rewrite, deleteTxLookupEntries]
  refine hrewrite.trans ?_
  show (if l.length < n ∧ n ≤ ln.length then entry (block.hash :: ln) n else bc.canonical n) = _
  rw [hindex]
  by_cases hn : n ≤ l.length
  · -- below the common block the branches agree
    rw [if_neg (by omega), if_pos (by rw [hnew.length_eq]; omega), hold.lineage, hnew.lineage, entry_append hn,
      entry_append hn, hcommon]
  · split_ifs <;> first | rfl | omega

theorem heads_rewrite (hnew : bc.Descends block ln newChain c l)
    (hoff : ∀ x ∈ newChain, Off (bc.currentBlock.hash :: lo) x) (hnonzero : ∀ x ∈ newChain, x.hash ≠ 0)
    (hindex : ∀ n, bc.canonical n = entry (bc.currentBlock.hash :: lo) n) (td : ℤ) :
    ((bc.putTd block td).rewrite oldChain newChain).currentHeader
        = (newChain.getLast?.map (·.header)).getD bc.currentHeader ∧
      ((bc.putTd block td).rewrite oldChain newChain).currentFastBlock
        = newChain.getLast?.getD bc.currentFastBlock := by
  rw [rewrite, deleteTxLookupEntries]
  rcases eq_nil_or_concat' newChain with rfl | ⟨pre, y, rfl⟩
  · exact ⟨rfl, rfl⟩
  · have hy : y ∈ pre ++ [y] := by simp
    have hstale : (bc.putTd block td).canonical y.number ≠ y.hash := by
      show bc.canonical y.number ≠ y.hash
      rw [hindex, entry]
      cases hget : (bc.currentBlock.hash :: lo).reverse[y.number]? with
      | none => exact (hnonzero y hy).symm
      | some =>
        have := hoff y hy
        rw [Off, hget] at this
        rw [Option.getD_some]
        exact fun heq => this (congrArg some heq)
    have hnumbers := pairwise_append.mp hnew.pairwise
    have hheads := heads_foldl pre (fun x hx => Nat.ne_of_gt (hnumbers.2.2 x hx y (mem_singleton_self y))) hstale
    rw [getLast?_concat]
    exact hheads

theorem exact_reorganised_iff (hw : bc.WellStored) (hf : bc.Fits block)
    (hindex : ∀ n, bc.canonical n = entry (bc.currentBlock.hash :: lo) n)
    (hold : bc.Descends bc.currentBlock lo oldChain c l) {c' : Block}
    (hnew : bc.Descends block ln newChain c' l) (hcommon : c'.hash = c.hash) (td : ℤ) :
    (((bc.putTd block td).rewrite oldChain newChain).adopt block).Exact ↔ lo.length ≤ ln.length ∧
      ((bc.putTd block td).rewrite oldChain newChain).currentHeader.hash = block.hash ∧
      ((bc.putTd block td).rewrite oldChain newChain).currentFastBlock.hash = block.hash := by
  have hcanonical := canonical_rewrite hold hnew hcommon hindex td
  have hsame := (sameStore_rewrite oldChain newChain (bc.putTd block td)).adopt block
  have hold_length := hold.rests.length
  have hnew_length := hnew.rests.length
  generalize (bc.putTd block td).rewrite oldChain newChain = r at hcanonical hsame ⊢
  -- the index has the new head already when it is inserted last
  have hlast : r.canonical block.number = block.hash := by
    rw [hcanonical, ← hnew_length, if_pos (Nat.le_refl _), entry_cons_length]
  have hheader : (r.adopt block).currentHeader = r.currentHeader := if_neg (not_not_intro hlast)
  have hfastBlock : (r.adopt block).currentFastBlock = r.currentFastBlock := if_neg (not_not_intro hlast)
  have hadopt : (r.adopt block).canonical = r.canonical := by
    show update r.canonical block.number block.hash = r.canonical
    rw [← hlast, update_eq_self]
  constructor
  · intro hexact
    refine ⟨?_, hheader ▸ hexact.header, hfastBlock ▸ hexact.fastBlock⟩
    by_contra hlt
    obtain ⟨l₂, -, hlen, hindex'⟩ := hexact.index
    have hstale := hindex' lo.length
    have habove : entry (block.hash :: l₂) lo.length = 0 :=
      entry_of_lt (by rw [length_cons, hlen]; show block.number + 1 ≤ lo.length; omega)
    rw [hadopt, hcanonical, if_neg hlt, entry_cons_length] at hstale
    exact hw.nonzero_current (hstale.trans habove)
  · rintro ⟨hle, hh, hfb⟩
    refine ⟨⟨ln, ?_, hnew_length, fun n => ?_⟩, hheader ▸ hh, hfastBlock ▸ hfb⟩
    · rw [hsame.parentOf, hsame.genesisBlock]
      exact hf.lineage_self hnew.rests
    · rw [hadopt, hcanonical]
      split_ifs with hn
      · rfl
      · rw [entry_of_lt (by rw [length_cons]; omega)]
        exact (entry_of_lt (by rw [length_cons]; omega)).symm

theorem Fits.shallow_of_hash_eq (hf : bc.Fits block) (hw : bc.WellStored) (hhash : bc.currentBlock.hash = block.hash) :
    bc.Shallow block := by
  obtain ⟨a, ha, halike⟩ := hw.current
  obtain ⟨hnumber, hsame⟩ := hf.fixed _ a (by rw [← hhash, ha])
  exact .inr ⟨hsame.parentHash.symm.trans halike.parentHash, hnumber.symm⟩

theorem Shallow.of_exact (hw : bc.WellStored) (hf : bc.Fits block) (hold : bc.Descends bc.currentBlock lo oldChain c l)
    {c' : Block} (hnew : bc.Descends block ln newChain c' l) (hcommon : c'.hash = c.hash) (hle : lo.length ≤ ln.length)
    (hhash : (newChain.getLast?.getD bc.currentBlock).hash = block.hash) : bc.Shallow block := by
  cases hnew with
  | refl => exact hf.shallow_of_hash_eq hw hhash
  | @cons _ p _ l₁ _ chain hrests hparent hd =>
    have hblock := hrests.parentHash_eq
    cases chain with
    | nil =>
      cases hd with
      | refl =>
        cases hold with
        | refl => exact .inl (hblock.trans hcommon)
        | cons horests _ hod =>
          have hlen := hod.length_eq
          rw [length_cons, length_cons] at hle
          cases hod with
          | refl => exact .inr ⟨hblock.trans (hcommon.trans horests.parentHash_eq.symm),
              hrests.length.symm.trans horests.length⟩
          | cons =>
            simp only [length_cons] at hlen hle
            omega
    | cons x chain =>
      -- the lowest block is stored below the new head
      exfalso
      obtain ⟨y, hlast⟩ : ∃ y, (x :: chain).getLast? = some y :=
        ⟨_, getLast?_eq_some_getLast (cons_ne_nil x chain)⟩
      have hy : y ∈ x :: chain := mem_of_getLast? hlast
      rw [getLast?_cons_cons, hlast, Option.getD_some] at hhash
      have hstored : bc.blocks (y.hash, y.number) = some y := by
        rcases hd.stored (.inl hy) with rfl | hstored
        · exact hparent
        · exact hstored
      have hnumber := (hf.fixed y.number y (by rw [← hhash, hstored])).1
      have hbelow := (hd.number_mem hy).2
      have habove := hrests.length
      rw [length_cons] at habove
      omega

theorem Shallow.getLast (hold : bc.Descends bc.currentBlock lo oldChain c l) {c' : Block}
    (hnew : bc.Descends block ln newChain c' l) (hcommon : c'.hash = c.hash)
    (hoff : ∀ x ∈ newChain, Off (bc.currentBlock.hash :: lo) x) (hparent : block.parentHash ≠ bc.currentBlock.hash)
    (hshallow : bc.Shallow block) : lo = ln ∧ (newChain.getLast?.getD bc.currentBlock).hash = block.hash := by
  obtain hparent' | ⟨hsame, hnumber⟩ := hshallow
  · exact absurd hparent' hparent
  · obtain rfl := hold.rests.unique hnew.rests hsame.symm hnumber.symm
    refine ⟨rfl, ?_⟩
    cases hnew with
    | refl =>
      have hlen := hold.length_eq
      cases hold with
      | refl => exact hcommon.symm
      | cons =>
        simp only [length_cons] at hlen
        omega
    | @cons _ p _ l₁ _ chain hrests _ hd =>
      cases hd with
      | refl => rfl
      | cons hprests =>
        have hp := hoff p (by simp)
        rw [Off, ← hprests.length] at hp
        exact absurd (by simp) hp

/-! ### Calls -/

theorem hash_getLast (hfastBlock : bc.currentFastBlock.hash = bc.currentBlock.hash) :
    (chain.getLast?.getD bc.currentFastBlock).hash = (chain.getLast?.getD bc.currentBlock).hash := by
  cases chain.getLast? with
  | none => exact hfastBlock
  | some => rfl

theorem hash_getLast_header (hheader : bc.currentHeader.hash = bc.currentBlock.hash) :
    ((chain.getLast?.map (·.header)).getD bc.currentHeader).hash = (chain.getLast?.getD bc.currentBlock).hash := by
  cases chain.getLast? with
  | none => exact hheader
  | some => rfl

theorem Descends.nonzero (hw : bc.WellStored) (hf : bc.Fits block) (hnew : bc.Descends block ln newChain c l) :
    ∀ x ∈ newChain, x.hash ≠ 0 := by
  intro x hx
  rcases hnew.stored (.inl hx) with rfl | hstored
  · exact hf.nonzero
  · exact hw.nonzero (x.hash, x.number) (by rw [hstored]; rfl)

theorem Exact.of_frame {bc' : BlockChain} (hexact : bc.Exact)
    (hlineage : ∀ l, Lineage bc.parentOf bc.genesisBlock.hash l → Lineage bc'.parentOf bc'.genesisBlock.hash l)
    (hcanonical : bc'.canonical = bc.canonical) (hblock : bc'.currentBlock = bc.currentBlock)
    (hheader : bc'.currentHeader = bc.currentHeader) (hfastBlock : bc'.currentFastBlock = bc.currentFastBlock) :
    bc'.Exact := by
  obtain ⟨⟨l, hl, hlen, hindex⟩, hh, hfb⟩ := hexact
  refine ⟨⟨l, ?_, ?_, ?_⟩, ?_, ?_⟩
  · rw [hblock]
    exact hlineage _ hl
  · rw [hblock, hlen]
  · rw [hblock, hcanonical]
    exact hindex
  · rw [hblock, hheader, hh]
  · rw [hblock, hfastBlock, hfb]

theorem exact_extended (hw : bc.WellStored) (hf : bc.Fits block) (hexact : bc.Exact)
    (hparent : block.parentHash = bc.currentBlock.hash) (td : ℤ) : ((bc.putTd block td).adopt block).Exact := by
  obtain ⟨⟨l, hl, hlen, hindex⟩, -, -⟩ := hexact
  have hrests := hf.rests_on_current hw hparent hl hlen
  have hnumber : block.number = l.length + 1 := hrests.length.symm
  -- the index has nothing at the number of the block
  have hnone : (bc.putTd block td).canonical block.number ≠ block.hash := by
    show bc.canonical block.number ≠ block.hash
    rw [hindex, entry_of_lt (by rw [length_cons, hnumber])]
    exact hf.nonzero.symm
  refine ⟨⟨_, hf.lineage_self hrests, hrests.length, fun n => ?_⟩, ?_, ?_⟩
  · show update bc.canonical block.number block.hash n = entry (block.hash :: bc.currentBlock.hash :: l) n
    rw [hnumber]
    rcases Nat.lt_trichotomy n (l.length + 1) with hn | rfl | hn
    · rw [update_of_ne (by omega), hindex]
      have hentry : entry ([block.hash] ++ bc.currentBlock.hash :: l) n = entry (bc.currentBlock.hash :: l) n :=
        entry_append (by omega)
      exact hentry.symm
    · rw [update_self]
      exact (entry_cons_length (h := block.hash) (l := bc.currentBlock.hash :: l)).symm
    · rw [update_of_ne (by omega), hindex, entry_of_lt (by rw [length_cons]; omega)]
      exact (entry_of_lt (by simp only [length_cons]; omega)).symm
  · exact congrArg Header.hash (if_pos hnone)
  · exact congrArg Block.hash (if_pos hnone)

/-- **One call**: the index stays exact unless a block becomes the head that is neither on top of the old head nor in
its place. -/
theorem exact_step_iff (hw : bc.WellStored) (hexact : bc.Exact) {op : Op} (hf : bc.Fits op.block) :
    (bc.step op).Exact ↔ (bc.call op = .ok .canonStat → bc.Shallow op.block) := by
  have hends := ends_step hw hf
  generalize bc.call op = status, bc.step op = bc' at hends ⊢
  cases hends with
  | side =>
    exact iff_of_true (hexact.of_frame (fun l hl => hf.lineage_put hl) rfl rfl rfl rfl) (by simp)
  | refused => exact iff_of_true (hexact.of_frame (fun l hl => hl) rfl rfl rfl rfl) (by simp)
  | extended td hparent =>
    exact iff_of_true (exact_extended hw hf hexact hparent td) fun _ => .inl hparent
  | reorganised td hparent hold hnew hcommon hoff =>
    obtain ⟨⟨l, hl, hlen, hindex⟩, hheader, hfastBlock⟩ := hexact
    obtain rfl := hold.rests.unique (hw.rests_of_current hl hlen) rfl rfl
    obtain ⟨hheads, hfast⟩ := heads_rewrite hnew hoff (hnew.nonzero hw hf) hindex td
    rw [exact_reorganised_iff hw hf hindex hold hnew hcommon td, hheads, hfast]
    constructor
    · rintro ⟨hle, -, hlast⟩ -
      exact Shallow.of_exact hw hf hold hnew hcommon hle (by rwa [hash_getLast hfastBlock] at hlast)
    · intro hshallow
      obtain ⟨heq, hlast⟩ := (hshallow rfl).getLast hold hnew hcommon hoff hparent
      refine ⟨(congrArg length heq).le, ?_, ?_⟩
      · rw [← hlast]
        exact hash_getLast_header hheader
      · rw [hash_getLast hfastBlock, hlast]

/-! ### Runs -/

theorem exact_new {genesis : Header} (hnumber : uint64 genesis.number = 0) : (new genesis).Exact := by
  refine ⟨⟨[], .root, hnumber.symm, fun n => ?_⟩, rfl, rfl⟩
  simp only [new, entry, reverse_singleton]
  cases n <;> simp

/-- **The canonical index.** Along a run from the genesis block the index is exact after every call if and only if
every block that becomes the head is on top of the old head or in its place. -/
theorem index_exact_iff {genesis : Header} (hnumber : uint64 genesis.number = 0) (hhash : genesis.hash ≠ 0)
    {ops : List Op} (hfits : Run.Along step (fun bc op => bc.Fits op.block) (new genesis) ops) :
    Run.Along step (fun bc op => (bc.step op).Exact) (new genesis) ops ↔
      Run.Along step (fun bc op => bc.call op = .ok .canonStat → bc.Shallow op.block) (new genesis) ops :=
  hfits.stays_iff (I := WellStored) (P := Exact) (fun _ _ hw hf => hw.step hf)
    (fun _ _ hw hexact hf => exact_step_iff hw hexact hf) (wellStored_new hnumber hhash) (exact_new hnumber)

end GoWanchain.Core.BlockChain

namespace GoWanchain.Core.Sample

open BlockChain

attribute [local instance] Backend.Sample.keccak

def firstBlock : Block := block genesis.hash 1 2 []

def secondBlock : Block := block firstBlock.hash 2 2 []

def heavyBlock : Block := block genesis.hash 1 10 []

def lightBlock : Block := block genesis.hash 1 1 []

def lateBlock : Block := block lightBlock.hash 2 5 []

/-- After a reorganisation to a shorter branch the index has an entry above the head; after one to two new blocks
the current header and the current fast block are the lower one. -/
theorem reorg_leaves_index_behind :
    let short := Run.run step (BlockChain.new genesis) [write firstBlock, write secondBlock, write heavyBlock]
    let long := Run.run step (BlockChain.new genesis) [write firstBlock, write lightBlock, write lateBlock]
    (short.currentBlock = heavyBlock ∧ short.canonical 2 = secondBlock.hash ∧ secondBlock.hash ≠ 0) ∧
      (long.currentBlock = lateBlock ∧ long.currentHeader = lightBlock.header ∧
        long.currentFastBlock = lightBlock) := by
  decide +kernel

theorem index_exact_iff_firstBlock :
    (BlockChain.step (BlockChain.new genesis) (write firstBlock)).canonical 1 = firstBlock.hash ∧
      (Run.Along step (fun bc op => (bc.step op).Exact) (BlockChain.new genesis) [write firstBlock] ↔
        Run.Along step (fun bc op => bc.call op = .ok .canonStat → bc.Shallow op.block) (BlockChain.new genesis)
          [write firstBlock]) := by
  have hfits : (BlockChain.new genesis).Fits firstBlock :=
    fits_new rfl (by decide +kernel) (by decide +kernel) (by decide +kernel)
  exact ⟨by decide +kernel, index_exact_iff (by decide +kernel) (by decide +kernel) ⟨hfits, trivial⟩⟩

end GoWanchain.Core.Sample
