import GoWanchain.Core.BlockChain
import GoWanchain.Lib.Table

/-!
# Lookup entries of transactions

A lookup entry says where a transaction stands: the block, its number and the place in it. `reorg` writes
the entries of the new chain and then deletes those of transactions of the old chain that are not in the new
one; the entries of the head are written once more with the block.
-/

namespace GoWanchain.Core

open Types
open State (Keccak)
open Table (writeAll eraseAll Records)

section

variable [Keccak]

def Block.entries (b : Block) : List (Hash × TxLookupEntry) :=
  b.txHashes.zipIdx.map fun tx => (tx.1, ⟨b.hash, b.number, tx.2⟩)

theorem Block.mem_entries {b : Block} {t : Hash} {e : TxLookupEntry} :
    (t, e) ∈ b.entries ↔ e.blockHash = b.hash ∧ e.blockIndex = b.number ∧ b.txHashes[e.index]? = some t := by
  rw [entries, List.mem_map]
  constructor
  · rintro ⟨⟨t', i⟩, hmem, heq⟩
    cases heq
    exact ⟨rfl, rfl, List.mem_zipIdx_iff_getElem?.mp hmem⟩
  · rintro ⟨hhash, hnumber, hget⟩
    refine ⟨(t, e.index), List.mem_zipIdx_iff_getElem?.mpr hget, ?_⟩
    rw [← hhash, ← hnumber]

theorem Block.mem_txHashes_iff {b : Block} {t : Hash} : t ∈ b.txHashes ↔ ∃ e, (t, e) ∈ b.entries := by
  rw [List.mem_iff_getElem?]
  constructor
  · rintro ⟨i, hi⟩
    exact ⟨⟨b.hash, b.number, i⟩, mem_entries.mpr ⟨rfl, rfl, hi⟩⟩
  · rintro ⟨e, he⟩
    exact ⟨e.index, (mem_entries.mp he).2.2⟩

namespace BlockChain

variable {bc bc' : BlockChain} {block b c : Block} {l l' lo ln : List Hash} {chain oldChain newChain : List Block}
  {t : Hash} {e : TxLookupEntry}

theorem lookups_writeTxLookupEntries (bc : BlockChain) (b : Block) :
    (bc.writeTxLookupEntries b).lookups = writeAll bc.lookups b.entries := by
  rw [writeTxLookupEntries, writeAll, Block.entries, List.foldl_map]

theorem lookups_foldl (chain : List Block) (bc : BlockChain) :
    (chain.foldl (fun bc block => (bc.insert block).writeTxLookupEntries block) bc).lookups
      = writeAll bc.lookups (chain.flatMap Block.entries) := by
  induction chain generalizing bc with
  | nil => rfl
  | cons _ _ ih =>
    rw [List.foldl_cons, ih, lookups_writeTxLookupEntries, List.flatMap_cons, writeAll, writeAll, writeAll,
      List.foldl_append]
    rfl

theorem mem_flatMap_txHashes : t ∈ chain.flatMap (·.txHashes) ↔ ∃ e, (t, e) ∈ chain.flatMap Block.entries := by
  simp only [List.mem_flatMap, Block.mem_txHashes_iff]
  constructor
  · rintro ⟨b, hb, e, he⟩
    exact ⟨e, b, hb, he⟩
  · rintro ⟨e, b, hb, he⟩
    exact ⟨b, hb, e, he⟩

theorem mem_txDifference_iff : t ∈ txDifference (oldChain.flatMap (·.txHashes)) (newChain.flatMap (·.txHashes)) ↔
      (∃ e, (t, e) ∈ oldChain.flatMap Block.entries) ∧ ∀ e, (t, e) ∉ newChain.flatMap Block.entries := by
  rw [txDifference, List.mem_filter, decide_eq_true_iff, mem_flatMap_txHashes, mem_flatMap_txHashes, not_exists]

/-! ### Places of transactions -/

/-- The entry names a block of the branch and the place of the transaction in it. -/
def Places (bc : BlockChain) (l : List Hash) (t : Hash) (e : TxLookupEntry) : Prop :=
  l.reverse[e.blockIndex]? = some e.blockHash ∧
    ∃ b, bc.blocks (e.blockHash, e.blockIndex) = some b ∧ b.txHashes[e.index]? = some t

/-- **The lookup entries are exact**: they are the places of transactions on the branch of the head. -/
def LookupsExact (bc : BlockChain) : Prop :=
  ∃ l, Lineage bc.parentOf bc.genesisBlock.hash (bc.currentBlock.hash :: l) ∧ l.length = bc.currentBlock.number ∧
    ∀ t e, bc.lookups t = some e ↔ bc.Places (bc.currentBlock.hash :: l) t e

/-- No transaction has two places on the branch of the block. -/
def Once (bc : BlockChain) (block : Block) : Prop :=
  ∀ l, bc.Rests block l → ∀ t e e', (bc.put block).Places (block.hash :: l) t e →
    (bc.put block).Places (block.hash :: l) t e' → e = e'

theorem places_cons (hb : bc.Known b) (hnumber : l.length = b.number) :
    bc.Places (b.hash :: l) t e ↔ (t, e) ∈ b.entries ∨ bc.Places l t e := by
  obtain ⟨a, ha, halike⟩ := hb
  rw [Places, Places, Block.mem_entries, ← hnumber, List.reverse_cons]
  rcases Nat.lt_trichotomy e.blockIndex l.length with hlt | heq | hgt
  · rw [List.getElem?_append_left (by rwa [List.length_reverse])]
    simp [hlt.ne]
  · have htop : (l.reverse ++ [b.hash])[e.blockIndex]? = some b.hash := by simp [heq]
    have hnone : l.reverse[e.blockIndex]? = none := by simp [heq]
    rw [htop, hnone, Option.some.injEq]
    constructor
    · rintro ⟨hhash, x, hx, hget⟩
      rw [← hhash, heq, hnumber, ha, Option.some.injEq] at hx
      subst hx
      exact .inl ⟨hhash.symm, heq, halike.txHashes ▸ hget⟩
    · rintro (⟨hhash, -, hget⟩ | ⟨hfalse, -⟩)
      · exact ⟨hhash.symm, a, by rw [hhash, heq, hnumber, ha], halike.txHashes.symm ▸ hget⟩
      · cases hfalse
  · have htop : (l.reverse ++ [b.hash])[e.blockIndex]? = none := by
      rw [List.getElem?_eq_none]
      simpa using hgt
    have hnone : l.reverse[e.blockIndex]? = none := by
      rw [List.getElem?_eq_none]
      simpa using hgt.le
    simp [htop, hnone, hgt.ne']

theorem Descends.places (hd : bc.Descends b l chain c l') (hknown : ∀ x ∈ chain, bc'.Known x) :
    bc'.Places (b.hash :: l) t e ↔ (t, e) ∈ chain.flatMap Block.entries ∨ bc'.Places (c.hash :: l') t e := by
  induction hd with
  | refl => simp
  | @cons b p c l l' chain hrests _ _ ih =>
    rw [places_cons (hknown b List.mem_cons_self) hrests.length, ih fun x hx => hknown x (List.mem_cons_of_mem _ hx),
      List.flatMap_cons, List.mem_append, or_assoc]

theorem Descends.apart (hd : bc.Descends b l chain c l') (hmem : (t, e) ∈ chain.flatMap Block.entries) :
    ¬ bc'.Places (c.hash :: l') t e := by
  obtain ⟨x, hx, he⟩ := List.mem_flatMap.mp hmem
  rintro ⟨hget, -⟩
  have hbelow := (List.getElem?_eq_some_iff.mp hget).1
  have habove := (hd.number_mem hx).1
  rw [List.length_reverse, List.length_cons, (Block.mem_entries.mp he).2.1] at hbelow
  omega

theorem Fits.places_put (hf : bc.Fits block) (hw : bc.WellStored) (hl : Lineage bc.parentOf bc.genesisBlock.hash l) :
    (bc.put block).Places l t e ↔ bc.Places l t e := by
  refine and_congr_right fun hget => ?_
  obtain ⟨pre, post, rfl, hlen⟩ := Lineage.split_of_getElem? hget
  obtain ⟨b, hb, hhash, hrests⟩ := hw.rests_of_lineage hl.suffix
  rw [hlen] at hb
  have hnumber : b.number = e.blockIndex := hrests.length.symm.trans hlen
  obtain ⟨a, ha, halike⟩ := Known.put hf (known_of_stored (by rw [hhash, hnumber, hb]) : bc.Known b)
  rw [hhash, hnumber] at ha
  rw [ha, hb]
  simp only [Option.some.injEq, exists_eq_left', halike.txHashes]

/-! ### Calls -/

theorem lookups_adopt (bc : BlockChain) (block : Block) :
    (bc.adopt block).lookups = writeAll bc.lookups block.entries :=
  lookups_writeTxLookupEntries (bc.put block) block

theorem lookupsExact_of_places (hf : bc.Fits block) (hrests : bc.Rests block l) {td : ℤ}
    (hsame : SameStore ((bc.putTd block td).put block) bc') (hcurrent : bc'.currentBlock = block)
    (hplaces : Records bc'.lookups ((bc.put block).Places (block.hash :: l))) : bc'.LookupsExact := by
  refine ⟨l, ?_, ?_, fun t e => ?_⟩
  · rw [hsame.parentOf, hsame.genesisBlock, hcurrent]
    exact hf.lineage_self hrests
  · rw [hcurrent, hrests.length]
  · rw [hcurrent, hplaces t e, Places, Places, hsame.blocks]
    rfl

theorem lookupsExact_extended (hw : bc.WellStored) (hf : bc.Fits block) (honce : bc.Once block)
    (hexact : bc.LookupsExact) (hparent : block.parentHash = bc.currentBlock.hash) (td : ℤ) :
    ((bc.putTd block td).adopt block).LookupsExact := by
  obtain ⟨l, hl, hlen, hlookups⟩ := hexact
  have hrests := hf.rests_on_current hw hparent hl hlen
  refine lookupsExact_of_places hf hrests (SameStore.adopt ⟨rfl, rfl, rfl⟩ block) rfl fun t e => ?_
  have hplaces (t : Hash) (e : TxLookupEntry) : (bc.put block).Places (block.hash :: bc.currentBlock.hash :: l) t e ↔
      (t, e) ∈ block.entries ∨ (bc.put block).Places (bc.currentBlock.hash :: l) t e :=
    places_cons known_put_self hrests.length
  have hkept : Records bc.lookups fun t e =>
      (t, e) ∈ ([] : List (Hash × TxLookupEntry)) ∨ (bc.put block).Places (bc.currentBlock.hash :: l) t e := by
    intro t e
    rw [hlookups, ← hf.places_put hw hl]
    simp
  have hexchange : Records (eraseAll (writeAll bc.lookups block.entries) []) _ := hkept.exchange (by simp)
    (fun t e e' he he' => honce _ hrests t e e' ((hplaces t e).mpr he) ((hplaces t e').mpr he')) (by simp)
  rw [lookups_adopt, hplaces]
  exact hexchange t e

/-- A reorganisation exchanges the entries of the old chain for those of the new one. The entries of the new head,
which are written once more at the end, are among them or below. -/
theorem lookupsExact_reorganised (hw : bc.WellStored) (hf : bc.Fits block) (honce : bc.Once block)
    (hexact : bc.LookupsExact) (hold : bc.Descends bc.currentBlock lo oldChain c l) {c' : Block}
    (hnew : bc.Descends block ln newChain c' l) (hcommon : c'.hash = c.hash) (td : ℤ) :
    (((bc.putTd block td).rewrite oldChain newChain).adopt block).LookupsExact := by
  obtain ⟨l₀, hl, hlen, hlookups⟩ := hexact
  obtain rfl := hold.rests.unique (hw.rests_of_current hl hlen) rfl rfl
  have hrests := hnew.rests
  refine lookupsExact_of_places hf hrests ((sameStore_rewrite _ _ _).adopt block) rfl ?_
  have hstored (x : Block) (hx : bc.blocks (x.hash, x.number) = some x) : (bc.put block).Known x :=
    Known.put hf (known_of_stored hx)
  have hknownOld : ∀ x ∈ oldChain, (bc.put block).Known x := by
    intro x hx
    rcases hold.stored (.inl hx) with rfl | hx
    · exact Known.put hf hw.current
    · exact hstored x hx
  have hknownNew : ∀ x ∈ newChain, (bc.put block).Known x := by
    intro x hx
    rcases hnew.stored (.inl hx) with rfl | hx
    · exact known_put_self
    · exact hstored x hx
  have hplacesNew (t : Hash) (e : TxLookupEntry) := hnew.places (t := t) (e := e) hknownNew
  rw [hcommon] at hplacesNew
  have hkept : Records bc.lookups fun t e =>
      (t, e) ∈ oldChain.flatMap Block.entries ∨ (bc.put block).Places (c.hash :: l) t e := by
    intro t e
    rw [hlookups, ← hf.places_put hw hl, hold.places hknownOld]
  have hexchange := hkept.exchange (fun t e => hold.apart) (fun t e e' he he' =>
    honce _ hrests t e e' ((hplacesNew t e).mpr he) ((hplacesNew t e').mpr he'))
    fun t => mem_txDifference_iff
  have hrewrite : Records ((bc.putTd block td).rewrite oldChain newChain).lookups
      ((bc.put block).Places (block.hash :: ln)) := by
    intro t e
    rw [hplacesNew, rewrite, deleteTxLookupEntries, lookups_foldl]
    exact hexchange t e
  rw [lookups_adopt, Table.writeAll_eq_self fun te he => (hrewrite te.1 te.2).mpr
    ((places_cons known_put_self hrests.length).mpr (.inl he))]
  exact hrewrite

theorem LookupsExact.of_frame (hexact : bc.LookupsExact)
    (hlineage : ∀ l, Lineage bc.parentOf bc.genesisBlock.hash l → Lineage bc'.parentOf bc'.genesisBlock.hash l)
    (hplaces : ∀ l t e, Lineage bc.parentOf bc.genesisBlock.hash l → (bc'.Places l t e ↔ bc.Places l t e))
    (hlookups : bc'.lookups = bc.lookups) (hblock : bc'.currentBlock = bc.currentBlock) : bc'.LookupsExact := by
  obtain ⟨l, hl, hlen, hexact⟩ := hexact
  refine ⟨l, ?_, ?_, fun t e => ?_⟩
  · rw [hblock]
    exact hlineage _ hl
  · rw [hblock, hlen]
  · rw [hblock, hlookups, hexact t e, hplaces _ t e hl]

theorem LookupsExact.step (hw : bc.WellStored) (hexact : bc.LookupsExact) {op : Op} (hf : bc.Fits op.block)
    (honce : bc.Once op.block) : (bc.step op).LookupsExact := by
  have hends := ends_step hw hf
  generalize bc.call op = status, bc.step op = bc' at hends ⊢
  cases hends with
  | side => exact hexact.of_frame (fun l => hf.lineage_put) (fun l t e => hf.places_put hw) rfl rfl
  | refused => exact hexact.of_frame (fun l => id) (fun l t e _ => Iff.rfl) rfl rfl
  | extended td hparent => exact lookupsExact_extended hw hf honce hexact hparent td
  | reorganised td _ hold hnew hcommon => exact lookupsExact_reorganised hw hf honce hexact hold hnew hcommon td

/-! ### Runs -/

theorem not_places_new {genesis : Header} : ¬ (new genesis).Places l t e := by
  rintro ⟨-, b, hb, hget⟩
  simp only [new] at hb
  split_ifs at hb
  cases hb
  simp [Block.txHashes] at hget

theorem lookupsExact_new {genesis : Header} (hnumber : uint64 genesis.number = 0) : (new genesis).LookupsExact := by
  exact ⟨[], .root, hnumber.symm, fun t e => iff_of_false (by simp [new]) not_places_new⟩

/-- **Transaction lookup.** Along every run from the genesis block in which no transaction has two places on one branch,
the lookup entries are exactly the places of the transactions on the branch of the head after every call. -/
theorem lookups_exact {genesis : Header} (hnumber : uint64 genesis.number = 0) (hhash : genesis.hash ≠ 0)
    {ops : List Op} (hops : Run.Along step (fun bc op => bc.Fits op.block ∧ bc.Once op.block) (new genesis) ops) :
    Run.Along step (fun bc op => (bc.step op).LookupsExact) (new genesis) ops := by
  refine hops.imp (I := fun bc => bc.WellStored ∧ bc.LookupsExact) (fun bc op hinv hop => ?_) (fun bc op hinv hop => ?_)
    ⟨wellStored_new hnumber hhash, lookupsExact_new hnumber⟩
  · exact ⟨hinv.1.step hop.1, hinv.2.step hinv.1 hop.1 hop.2⟩
  · exact hinv.2.step hinv.1 hop.1 hop.2

theorem once_new {genesis : Header} (hf : (new genesis).Fits block) (hw : (new genesis).WellStored)
    (hnodup : block.txHashes.Nodup) : (new genesis).Once block := by
  intro l hrests t e e' he he'
  have hentries (e : TxLookupEntry) (he : ((new genesis).put block).Places (block.hash :: l) t e) :
      (t, e) ∈ block.entries := by
    rw [places_cons known_put_self hrests.length] at he
    refine he.resolve_right fun hbelow => ?_
    cases hrests with
    | genesis => simp [Places] at hbelow
    | child hl => exact not_places_new ((hf.places_put hw hl).mp hbelow)
  obtain ⟨hhash, hnumber, hget⟩ := Block.mem_entries.mp (hentries e he)
  obtain ⟨hhash', hnumber', hget'⟩ := Block.mem_entries.mp (hentries e' he')
  have hlt : e.index < block.txHashes.length := (List.getElem?_eq_some_iff.mp hget).1
  have hindex : e.index = e'.index := (List.getElem?_inj hlt hnodup).mp (hget.trans hget'.symm)
  cases e
  cases e'
  simp only [TxLookupEntry.mk.injEq] at hhash hhash' hnumber hnumber' hindex ⊢
  exact ⟨hhash.trans hhash'.symm, hnumber.trans hnumber'.symm, hindex⟩

end BlockChain

end

namespace Sample

open BlockChain

attribute [local instance] Backend.Sample.keccak

def transfer : Transaction where
  txtype := normalTx
  accountNonce := 0
  price := 1
  gasLimit := 21000
  recipient := some 7
  amount := 1
  payload := []
  v := 27
  r := 1
  s := 1

def busyBlock : Block := block genesis.hash 1 2 [transfer]

theorem lookups_exact_busyBlock :
    (BlockChain.step (BlockChain.new genesis) (write busyBlock)).lookups transfer.hash = some ⟨busyBlock.hash, 1, 0⟩ ∧
      Run.Along step (fun bc op => (bc.step op).LookupsExact) (BlockChain.new genesis) [write busyBlock] := by
  have hfits : (BlockChain.new genesis).Fits busyBlock :=
    fits_new rfl (by decide +kernel) (by decide +kernel) (by decide +kernel)
  have honce : (BlockChain.new genesis).Once busyBlock :=
    once_new hfits (wellStored_new (by decide +kernel) (by decide +kernel)) (List.nodup_singleton _)
  exact ⟨by decide +kernel, lookups_exact (by decide +kernel) (by decide +kernel) ⟨⟨hfits, honce⟩, trivial⟩⟩

end Sample

end GoWanchain.Core
