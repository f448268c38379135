import GoWanchain.Lib.Lineage
import GoWanchain.Lib.Run
import GoWanchain.Backend.Extra

/-!
# The header chain

`core/headerchain.go`: headers and their total difficulties under hash and number, and an index of the
canonical chain by number. `WriteHeader` moves the head to a header of more total difficulty: it deletes the
index above the new head, and overwrites it below, parent by parent, until it meets an entry that is right
already. `SetHead` rewinds: it deletes the headers of the canonical chain above the target, not those of
other branches.

The caches in front of the database are left out: they answer as the database does for a header that is
looked up with its own number.
-/

namespace GoWanchain.Core

open Types Option Function List
open State (Keccak)

/-- The number before, as a `uint64`. -/
def before (number : ℕ) : ℕ := if number = 0 then 2 ^ 64 - 1 else number - 1

/-- The number after, as a `uint64`. -/
def after (number : ℕ) : ℕ := (number + 1) % 2 ^ 64

theorem before_succ (n : ℕ) : before (n + 1) = n := rfl

theorem before_add_one {n : ℕ} (h : n ≠ 0) : before n + 1 = n := by
  rw [before, if_neg h]
  omega

/-- The state of a `HeaderChain` and the part of its database that it reads. The hash of a number that has
no entry in the index is the zero hash. -/
structure HeaderChain where
  headers : Hash × ℕ → Option Header
  tds : Hash × ℕ → Option ℤ
  canonical : ℕ → Hash
  genesisHeader : Header
  currentHeader : Header

inductive WriteStatus
  | canonStat
  | sideStat
deriving DecidableEq

/-- `panic` is a runtime error; `fuel` is a loop that did not end. -/
inductive ChainErr
  | unknownAncestor
  | panic
  | fuel
deriving DecidableEq

/-- Delete the entries of the index from `i` on, up to the first number that has none. -/
def deleteAbove (canonical : ℕ → Hash) : ℕ → ℕ → Except ChainErr (ℕ → Hash)
  | 0, _ => .error .fuel
  | fuel + 1, i =>
    if canonical i = 0 then .ok canonical else deleteAbove (update canonical i 0) fuel (after i)

namespace HeaderChain

/-- The loop that overwrites stale entries; `headHeader` is the header of `headHash`, if there is one. -/
def overwrite (headers : Hash × ℕ → Option Header) :
    ℕ → (ℕ → Hash) → Hash → ℕ → Option Header → Except ChainErr (ℕ → Hash)
  | 0, _, _, _, _ => .error .fuel
  | fuel + 1, canonical, headHash, headNumber, headHeader =>
    if canonical headNumber = headHash then .ok canonical
    else
      match headHeader with
      | none => .error .panic
      | some header =>
        let number := before (uint64 header.number)
        overwrite headers fuel (update canonical headNumber headHash) header.parentHash number
          (headers (header.parentHash, number))

variable [Keccak]

/-- `WriteTd` and `WriteHeader` of the database. -/
def put (hc : HeaderChain) (header : Header) (td : ℤ) : HeaderChain :=
  { hc with
    headers := update hc.headers (header.hash, uint64 header.number) (some header)
    tds := update hc.tds (header.hash, uint64 header.number) (some td) }

/-- `WriteHeader`; `coin` is the toss that breaks a tie. -/
def writeHeader (hc : HeaderChain) (header : Header) (coin : Bool) : Except ChainErr (WriteStatus × HeaderChain) :=
  let hash := header.hash
  let number := uint64 header.number
  match hc.tds (header.parentHash, before number) with
  | none => .error .unknownAncestor
  | some ptd =>
    match hc.tds (hc.currentHeader.hash, uint64 hc.currentHeader.number) with
    | none => .error .panic
    | some localTd =>
      let externTd := header.difficulty + ptd
      let height := uint64 hc.currentHeader.number
      let hc := hc.put header externTd
      if externTd > localTd ∨ (externTd = localTd ∧ coin = true) then do
        let canonical ← deleteAbove hc.canonical (height + 1) (after number)
        let canonical ← overwrite hc.headers (number + 1) canonical header.parentHash (before number)
          (hc.headers (header.parentHash, before number))
        return (.canonStat, { hc with canonical := update canonical number hash, currentHeader := header })
      else return (.sideStat, hc)

/-- `DeleteHeader` and `DeleteTd` of the database. -/
def delete (hc : HeaderChain) (key : Hash × ℕ) : HeaderChain :=
  { hc with headers := update hc.headers key none, tds := update hc.tds key none }

/-- The loop of `SetHead`: the header that it ends at, and the database afterwards. -/
def rewind (head : ℕ) : ℕ → HeaderChain → Option Header → Except ChainErr (HeaderChain × Option Header)
  | 0, _, _ => .error .fuel
  | _ + 1, hc, none => .ok (hc, none)
  | fuel + 1, hc, some current =>
    let number := uint64 current.number
    if number ≤ head then .ok (hc, some current)
    else
      let hc := hc.delete (current.hash, number)
      rewind head fuel hc (hc.headers (current.parentHash, before number))

def setHead (hc : HeaderChain) (head : ℕ) : Except ChainErr HeaderChain := do
  let height := uint64 hc.currentHeader.number
  let (hc, current) ← rewind head (height + 1) hc (some hc.currentHeader)
  return { hc with
    canonical := fun i => if head < i ∧ i ≤ height then 0 else hc.canonical i
    currentHeader := current.getD hc.genesisHeader }

/-! ### What is stored -/

def parentOf (hc : HeaderChain) (hash : Hash) (number : ℕ) : Option Hash :=
  (hc.headers (hash, number)).map (·.parentHash)

/-- Headers are stored under their hash and number, with a total difficulty, and the genesis header is. -/
structure WellStored (hc : HeaderChain) : Prop where
  keyed : ∀ k header, hc.headers k = some header → header.hash = k.1 ∧ uint64 header.number = k.2
  td : ∀ k, (hc.tds k).isSome = (hc.headers k).isSome
  bound : ∀ k, (hc.headers k).isSome → k.2 + 1 < 2 ^ 64
  nonzero : ∀ k, (hc.headers k).isSome → k.1 ≠ 0
  genesis : hc.headers (hc.genesisHeader.hash, 0) = some hc.genesisHeader

/-- The header is stored, or one of its hash is, and `l` are the hashes of its ancestors. -/
structure Heads (hc : HeaderChain) (header : Header) (l : List Hash) : Prop where
  stored : hc.parentOf header.hash (uint64 header.number) = some header.parentHash
  lineage : Lineage hc.parentOf hc.genesisHeader.hash (header.hash :: l)
  length : l.length = uint64 header.number

/-- The entry of the index that a lineage calls for. -/
def entry (l : List Hash) (n : ℕ) : Hash := (l.reverse[n]?).getD 0

/-- **The index is exact**: the entry up to the number of the current header is the ancestor of that number, and
there are none above. -/
def Exact (hc : HeaderChain) : Prop :=
  ∃ l, hc.Heads hc.currentHeader l ∧ ∀ n, hc.canonical n = entry (hc.currentHeader.hash :: l) n

section Entries

variable {l pre : List Hash} {h : Hash} {n : ℕ}

omit [Keccak]

theorem entry_append (hn : n ≤ l.length) : entry (pre ++ h :: l) n = entry (h :: l) n := by
  rw [entry, Lineage.getElem?_append hn, entry]

theorem entry_cons_length : entry (h :: l) l.length = h := by
  rw [entry, Lineage.getElem?_length, getD_some]

theorem entry_of_lt (hn : l.length ≤ n) : entry l n = 0 := by
  rw [entry, List.getElem?_eq_none (by rwa [length_reverse]), getD_none]

end Entries

variable {hc : HeaderChain} {header : Header} {l : List Hash}

theorem WellStored.isSome_of_lineage (hw : hc.WellStored) (hl : Lineage hc.parentOf hc.genesisHeader.hash l) {n : ℕ}
    {h : Hash} (hn : l.reverse[n]? = some h) : (hc.headers (h, n)).isSome := by
  obtain ⟨pre, post, rfl, rfl⟩ := Lineage.split_of_getElem? hn
  cases hl.suffix with
  | root => simp [hw.genesis]
  | cons _ hlink =>
    rw [parentOf, map_eq_some_iff] at hlink
    obtain ⟨header, hheader, -⟩ := hlink
    simp [length_cons, hheader]

theorem WellStored.ne_zero_of_lineage (hw : hc.WellStored) (hl : Lineage hc.parentOf hc.genesisHeader.hash l) {n : ℕ}
    {h : Hash} (hn : l.reverse[n]? = some h) : h ≠ 0 :=
  hw.nonzero _ (hw.isSome_of_lineage hl hn)

theorem WellStored.entry_ne_zero_iff (hw : hc.WellStored) (hl : Lineage hc.parentOf hc.genesisHeader.hash l) {n : ℕ} :
    entry l n ≠ 0 ↔ n < l.length := by
  constructor
  · intro hne
    by_contra hlt
    exact hne (entry_of_lt (Nat.le_of_not_lt hlt))
  · intro hlt
    have hget := List.getElem?_eq_getElem (l := l.reverse) (i := n) (by rwa [length_reverse])
    rw [entry, hget, getD_some]
    exact hw.ne_zero_of_lineage hl hget

end HeaderChain

/-! ### The loops -/

theorem deleteAbove_eq {canonical : ℕ → Hash} (top : ℕ) (htop : top + 1 < 2 ^ 64)
    (habove : ∀ j, top < j → canonical j = 0) {fuel i : ℕ} (hbelow : ∀ j, i ≤ j → j ≤ top → canonical j ≠ 0)
    (hfuel : top + 2 ≤ fuel + i) (hpos : 0 < fuel) :
    deleteAbove canonical fuel i = .ok fun j => if i ≤ j then 0 else canonical j := by
  induction fuel generalizing canonical i with
  | zero => omega
  | succ _ ih =>
    rw [deleteAbove]
    by_cases hle : i ≤ top
    · have hafter : after i = i + 1 := Nat.mod_eq_of_lt (by omega)
      rw [if_neg (hbelow i (Nat.le_refl i) hle), hafter, ih ?_ ?_ (by omega) (by omega)]
      · congr 1
        funext j
        by_cases hj : j = i
        · subst hj
          simp
        · rw [update_of_ne hj]
          split_ifs <;> first | rfl | omega
      · intro j hj
        rw [update_of_ne (by omega), habove j hj]
      · intro j hj hjtop
        rw [update_of_ne (by omega)]
        exact hbelow j (by omega) hjtop
    · rw [if_pos (habove i (by omega))]
      congr 1
      funext j
      split_ifs with hj
      · exact habove j (by omega)
      · rfl

namespace HeaderChain

variable [Keccak] {hc : HeaderChain}

theorem WellStored.entry_agree (hw : hc.WellStored) {old l : List Hash} {hash : Hash}
    (hold : Lineage hc.parentOf hc.genesisHeader.hash old)
    (hnew : Lineage hc.parentOf hc.genesisHeader.hash (hash :: l)) (hmatch : entry old l.length = hash) {m : ℕ}
    (hm : m ≤ l.length) : entry old m = entry (hash :: l) m := by
  have hhash := Lineage.getElem?_length (h := hash) (l := l)
  have hold' : old.reverse[l.length]? = some hash := by
    rw [entry] at hmatch
    cases hget : old.reverse[l.length]? with
    | none =>
      rw [hget, getD_none] at hmatch
      exact absurd hmatch.symm (hw.ne_zero_of_lineage hnew hhash)
    | some =>
      rw [hget, getD_some] at hmatch
      rw [hmatch]
  rw [entry, entry, hold.agree hnew hold' hhash hm]

theorem overwrite_eq (hw : hc.WellStored) {old : List Hash} (hold : Lineage hc.parentOf hc.genesisHeader.hash old)
    {l : List Hash} {hash : Hash} (hnew : Lineage hc.parentOf hc.genesisHeader.hash (hash :: l)) {canonical : ℕ → Hash}
    (hcanonical : ∀ m ≤ l.length, canonical m = entry old m) {fuel : ℕ} (hfuel : l.length < fuel) :
    overwrite hc.headers fuel canonical hash l.length (hc.headers (hash, l.length))
      = .ok fun m => if m ≤ l.length then entry (hash :: l) m else canonical m := by
  induction l generalizing hash canonical fuel with
  | nil =>
    obtain ⟨fuel, rfl⟩ : ∃ k, fuel = k + 1 := ⟨fuel - 1, by omega⟩
    have hroot : canonical 0 = hash := by
      cases hnew
      rw [hcanonical 0 (Nat.le_refl 0), entry, hold.getElem?_zero, getD_some]
    rw [overwrite.eq_def, length_nil]
    simp only [if_pos hroot]
    congr 1
    funext m
    split_ifs with hm
    · obtain rfl : m = 0 := Nat.le_zero.mp hm
      exact hroot
    · rfl
  | cons p l ih =>
    obtain ⟨fuel, rfl⟩ : ∃ k, fuel = k + 1 := ⟨fuel - 1, by omega⟩
    rw [overwrite.eq_def]
    simp only
    by_cases hmatch : canonical (p :: l).length = hash
    · rw [if_pos hmatch]
      congr 1
      funext m
      split_ifs with hm
      · rw [hcanonical m hm]
        rw [hcanonical _ (Nat.le_refl _)] at hmatch
        exact hw.entry_agree hold hnew hmatch hm
      · rfl
    · cases hnew with
      | cons hp hlink =>
        obtain ⟨header, hheader, hparent⟩ := map_eq_some_iff.mp hlink
        have hnumber : uint64 header.number = l.length + 1 := (hw.keyed _ _ hheader).2
        rw [if_neg hmatch, length_cons, hheader]
        simp only [hnumber, before_succ, hparent]
        rw [ih hp ?_ (by simpa using hfuel)]
        · congr 1
          funext m
          rcases Nat.lt_trichotomy m (l.length + 1) with hm | rfl | hm
          · rw [if_pos (by omega), if_pos (by omega)]
            have hbelow : entry ([hash] ++ p :: l) m = entry (p :: l) m := entry_append (by omega)
            exact hbelow.symm
          · rw [if_neg (by omega), update_self, if_pos (Nat.le_refl _)]
            exact (entry_cons_length (h := hash) (l := p :: l)).symm
          · rw [if_neg (by omega), update_of_ne (by omega), if_neg (by omega)]
        · intro m hm
          rw [update_of_ne (by omega)]
          exact hcanonical m (by rw [length_cons]; omega)

/-! ### Writing a header -/

/-- What is asked of a header that is written: its hash is not the zero hash, and if a header of the same
hash and number is stored, they have the same parent; its number is no largest `uint64`. And if the total
difficulty of its parent is stored, all its ancestors are: none of them was deleted by a rewind. -/
structure Fits (hc : HeaderChain) (header : Header) : Prop where
  nonzero : header.hash ≠ 0
  fixed : ∀ a, hc.headers (header.hash, uint64 header.number) = some a → a.parentHash = header.parentHash
  bound : uint64 header.number + 1 < 2 ^ 64
  ancestors : (hc.tds (header.parentHash, before (uint64 header.number))).isSome →
    ∃ l, Lineage hc.parentOf hc.genesisHeader.hash (header.parentHash :: l) ∧ l.length = before (uint64 header.number)

variable {header : Header} {td : ℤ} {l : List Hash}

theorem parentOf_put_self : (hc.put header td).parentOf header.hash (uint64 header.number) = some header.parentHash := by
  simp [parentOf, put]

theorem Fits.parentOf_put (hf : hc.Fits header) (h : Hash) (n : ℕ) (p : Hash) (hp : hc.parentOf h n = some p) :
    (hc.put header td).parentOf h n = some p := by
  by_cases hkey : (h, n) = (header.hash, uint64 header.number)
  · cases hkey
    obtain ⟨a, ha, rfl⟩ := map_eq_some_iff.mp hp
    rw [parentOf_put_self, hf.fixed a ha]
  · rw [parentOf, put]
    simp only
    rwa [update_of_ne hkey]

theorem Fits.lineage_put (hf : hc.Fits header) (hl : Lineage hc.parentOf hc.genesisHeader.hash l) :
    Lineage (hc.put header td).parentOf (hc.put header td).genesisHeader.hash l :=
  hl.mono hf.parentOf_put

/-- What may be stored under a key. -/
structure Entry (k : Hash × ℕ) (header : Option Header) (td : Option ℤ) : Prop where
  stored : ∀ a, header = some a → (a.hash = k.1 ∧ uint64 a.number = k.2) ∧ k.2 + 1 < 2 ^ 64 ∧ k.1 ≠ 0
  td : td.isSome = header.isSome

theorem WellStored.entry (hw : hc.WellStored) (k : Hash × ℕ) : Entry k (hc.headers k) (hc.tds k) := by
  refine ⟨fun a ha => ?_, hw.td k⟩
  have hsome : (hc.headers k).isSome := by rw [ha]; rfl
  exact ⟨hw.keyed k a ha, hw.bound k hsome, hw.nonzero k hsome⟩

theorem wellStored_of_entries (h : ∀ k, Entry k (hc.headers k) (hc.tds k))
    (hgenesis : hc.headers (hc.genesisHeader.hash, 0) = some hc.genesisHeader) : hc.WellStored where
  keyed k a ha := ((h k).stored a ha).1
  td k := (h k).td
  bound k hk := ((h k).stored _ (some_get hk).symm).2.1
  nonzero k hk := ((h k).stored _ (some_get hk).symm).2.2
  genesis := hgenesis

theorem WellStored.put (hw : hc.WellStored) (hf : hc.Fits header) (hz : uint64 header.number ≠ 0) :
    (hc.put header td).WellStored := by
  refine wellStored_of_entries (fun k => ?_) ?_
  · by_cases hkey : k = (header.hash, uint64 header.number)
    · subst hkey
      simp only [HeaderChain.put, update_self]
      exact ⟨fun a ha => (by cases ha; exact ⟨⟨rfl, rfl⟩, hf.bound, hf.nonzero⟩), rfl⟩
    · simpa [HeaderChain.put, update_of_ne hkey] using hw.entry k
  · have hkey : (hc.genesisHeader.hash, 0) ≠ (header.hash, uint64 header.number) := fun h => hz (Prod.mk.inj h).2.symm
    simpa [HeaderChain.put, update_of_ne hkey] using hw.genesis

theorem Heads.put {current : Header} (hh : hc.Heads current l) (hf : hc.Fits header) : (hc.put header td).Heads current l :=
  ⟨hf.parentOf_put _ _ _ hh.stored, hf.lineage_put hh.lineage, hh.length⟩

theorem Fits.heads (hf : hc.Fits header) (hl : Lineage hc.parentOf hc.genesisHeader.hash (header.parentHash :: l))
    (hlen : l.length + 1 = uint64 header.number) : (hc.put header td).Heads header (header.parentHash :: l) := by
  refine ⟨parentOf_put_self, .cons (hf.lineage_put hl) ?_, hlen⟩
  rw [hlen]
  exact parentOf_put_self

theorem WellStored.number_ne_zero (hw : hc.WellStored)
    (htd : (hc.tds (header.parentHash, before (uint64 header.number))).isSome) : uint64 header.number ≠ 0 := by
  intro hz
  have hbound := hw.bound _ ((hw.td _).symm.trans htd)
  rw [hz] at hbound
  simp [before] at hbound

theorem index_of_winner (hw : (hc.put header td).WellStored) {old : List Hash}
    (hold : Lineage (hc.put header td).parentOf hc.genesisHeader.hash old) (hbound : old.length < 2 ^ 64)
    (hindex : ∀ n, hc.canonical n = entry old n)
    (hheads : (hc.put header td).Heads header (header.parentHash :: l)) :
    ∃ canonical canonical', deleteAbove hc.canonical old.length (after (uint64 header.number)) = .ok canonical ∧
      overwrite (hc.put header td).headers (uint64 header.number + 1) canonical header.parentHash
        (before (uint64 header.number)) ((hc.put header td).headers (header.parentHash, before (uint64 header.number)))
        = .ok canonical' ∧
      ∀ n, update canonical' (uint64 header.number) header.hash n
        = entry (header.hash :: header.parentHash :: l) n := by
  have hnumber : uint64 header.number = l.length + 1 := hheads.length.symm
  have hpos := length_pos_iff.mpr hold.ne_nil
  have hmax : uint64 header.number + 1 < 2 ^ 64 := by
    obtain ⟨a, ha, -⟩ := map_eq_some_iff.mp hheads.stored
    exact hw.bound (header.hash, uint64 header.number) (by rw [ha]; rfl)
  have hparent : Lineage (hc.put header td).parentOf hc.genesisHeader.hash (header.parentHash :: l) :=
    hheads.lineage.tail
  have hdelete : deleteAbove hc.canonical old.length (after (uint64 header.number))
      = .ok fun j => if uint64 header.number + 1 ≤ j then 0 else hc.canonical j := by
    rw [after, Nat.mod_eq_of_lt hmax]
    refine deleteAbove_eq (old.length - 1) (by omega) (fun j hj => ?_) (fun j _ hj => ?_) (by omega) hpos
    · rw [hindex j, entry_of_lt (by omega)]
    · rw [hindex j, hw.entry_ne_zero_iff hold]
      omega
  have hover : overwrite (hc.put header td).headers (uint64 header.number + 1)
      (fun j => if uint64 header.number + 1 ≤ j then 0 else hc.canonical j) header.parentHash l.length
      ((hc.put header td).headers (header.parentHash, l.length)) = .ok _ :=
    overwrite_eq hw hold hparent (fun m hm => by rw [if_neg (by omega), hindex m]) (by omega)
  have hbefore : before (uint64 header.number) = l.length := by rw [hnumber, before_succ]
  rw [hbefore]
  refine ⟨_, _, hdelete, hover, fun n => ?_⟩
  rcases Nat.lt_trichotomy n (l.length + 1) with hn | rfl | hn
  · rw [update_of_ne (by omega), if_pos (by omega)]
    have hbelow : entry ([header.hash] ++ header.parentHash :: l) n = entry (header.parentHash :: l) n :=
      entry_append (by omega)
    exact hbelow.symm
  · rw [← hnumber, update_self, hnumber]
    exact (entry_cons_length (l := header.parentHash :: l)).symm
  · rw [update_of_ne (by omega), if_neg (by omega), if_pos (by omega), entry_of_lt]
    simp only [length_cons]
    omega

theorem writeHeader_spec (hw : hc.WellStored) (hexact : hc.Exact) (hf : hc.Fits header) (coin : Bool) :
    hc.writeHeader header coin = .error .unknownAncestor ∨
      ∃ status hc', hc.writeHeader header coin = .ok (status, hc') ∧ hc'.WellStored ∧ hc'.Exact ∧
        hc'.genesisHeader = hc.genesisHeader := by
  obtain ⟨old, hcurrent, hindex⟩ := hexact
  rw [writeHeader]
  cases hptd : hc.tds (header.parentHash, before (uint64 header.number)) with
  | none => exact .inl rfl
  | some ptd =>
    right
    have hz := hw.number_ne_zero (by rw [hptd]; rfl)
    obtain ⟨l, hl, hlen⟩ := hf.ancestors (by rw [hptd]; rfl)
    have hlocal : (hc.tds (hc.currentHeader.hash, uint64 hc.currentHeader.number)).isSome := by
      obtain ⟨a, ha, -⟩ := map_eq_some_iff.mp hcurrent.stored
      rw [hw.td, ha]
      rfl
    obtain ⟨localTd, hlocalTd⟩ := isSome_iff_exists.mp hlocal
    have hput : (hc.put header (header.difficulty + ptd)).WellStored := hw.put hf hz
    simp only [hlocalTd]
    split_ifs with hwins
    · have hheads : (hc.put header (header.difficulty + ptd)).Heads header (header.parentHash :: l) :=
        hf.heads hl (by rw [hlen, before_add_one hz])
      have hlength : (hc.currentHeader.hash :: old).length = uint64 hc.currentHeader.number + 1 := by
        rw [length_cons, hcurrent.length]
      have hmax : (hc.currentHeader.hash :: old).length < 2 ^ 64 := by
        rw [hlength]
        exact hw.bound (hc.currentHeader.hash, _) ((hw.td _).symm.trans hlocal)
      obtain ⟨canonical, canonical', hdelete, hover, hentries⟩ :=
        index_of_winner hput (hf.lineage_put hcurrent.lineage) hmax hindex hheads
      rw [hlength] at hdelete
      refine ⟨.canonStat, { hc.put header (header.difficulty + ptd) with
        canonical := update canonical' (uint64 header.number) header.hash
        currentHeader := header }, ?_, ?_, ⟨_, ?_, hentries⟩, rfl⟩
      · rw [show (hc.put header (header.difficulty + ptd)).canonical = hc.canonical from rfl, hdelete]
        show (overwrite _ _ canonical _ _ _ >>= _) = _
        rw [hover]
        rfl
      · exact ⟨hput.keyed, hput.td, hput.bound, hput.nonzero, hput.genesis⟩
      · exact ⟨hheads.stored, hheads.lineage, hheads.length⟩
    · exact ⟨.sideStat, hc.put header (header.difficulty + ptd), rfl, hput, ⟨old, hcurrent.put hf, hindex⟩, rfl⟩

/-! ### Rewinding -/

theorem WellStored.delete (hw : hc.WellStored) (key : Hash × ℕ) (hz : key.2 ≠ 0) : (hc.delete key).WellStored := by
  refine wellStored_of_entries (fun k => ?_) ?_
  · by_cases hkey : k = key
    · subst hkey
      simp only [HeaderChain.delete, update_self]
      exact ⟨fun a ha => (by cases ha), rfl⟩
    · simpa [HeaderChain.delete, update_of_ne hkey] using hw.entry k
  · have hkey : (hc.genesisHeader.hash, 0) ≠ key := fun h => hz (h ▸ rfl)
    simpa [HeaderChain.delete, update_of_ne hkey] using hw.genesis

theorem lineage_delete (hl : Lineage hc.parentOf hc.genesisHeader.hash l) (key : Hash × ℕ) (hkey : l.length ≤ key.2) :
    Lineage (hc.delete key).parentOf hc.genesisHeader.hash l := by
  refine hl.congr fun h n hn => ?_
  have hlt := (List.getElem?_eq_some_iff.mp hn).1
  rw [length_reverse] at hlt
  have hne : (h, n) ≠ key := by
    rintro rfl
    exact absurd hkey (Nat.not_le.mpr hlt)
  rw [parentOf, parentOf, HeaderChain.delete]
  simp only
  rw [update_of_ne hne]

theorem WellStored.heads_of_lineage (hw : hc.WellStored) {p : Hash}
    (hl : Lineage hc.parentOf hc.genesisHeader.hash (p :: l)) :
    ∃ parent, hc.headers (p, l.length) = some parent ∧ parent.hash = p ∧ hc.Heads parent l := by
  obtain ⟨parent, hparent⟩ := isSome_iff_exists.mp (hw.isSome_of_lineage hl Lineage.getElem?_length)
  obtain ⟨hhash, hnumber⟩ := hw.keyed _ _ hparent
  simp only at hhash hnumber
  refine ⟨parent, hparent, hhash, ?_, hhash ▸ hl, hnumber.symm⟩
  rw [hhash, hnumber, parentOf, hparent]
  rfl

theorem Heads.parentHash_eq {header : Header} {p : Hash} (hh : hc.Heads header (p :: l)) : header.parentHash = p := by
  have hstored := hh.stored
  rw [← hh.length] at hstored
  exact some.inj (hstored.symm.trans hh.lineage.link)

theorem rewind_spec (hw : hc.WellStored) {current : Header} (hh : hc.Heads current l) (head : ℕ) {fuel : ℕ}
    (hfuel : l.length < fuel) :
    ∃ hc' current' pre l', rewind head fuel hc (some current) = .ok (hc', some current') ∧ hc'.WellStored ∧
      hc'.Heads current' l' ∧ current.hash :: l = pre ++ current'.hash :: l' ∧ l'.length = min head l.length ∧
      hc'.canonical = hc.canonical ∧ hc'.genesisHeader = hc.genesisHeader := by
  induction l generalizing hc current fuel with
  | nil =>
    obtain ⟨fuel, rfl⟩ : ∃ k, fuel = k + 1 := ⟨fuel - 1, by omega⟩
    refine ⟨hc, current, [], [], ?_, hw, hh, rfl, by simp, rfl, rfl⟩
    rw [rewind, if_pos (by rw [← hh.length]; exact Nat.zero_le head)]
  | cons p l ih =>
    obtain ⟨fuel, rfl⟩ : ∃ k, fuel = k + 1 := ⟨fuel - 1, by omega⟩
    have hnumber : uint64 current.number = l.length + 1 := hh.length.symm
    rw [rewind]
    by_cases hle : l.length + 1 ≤ head
    · refine ⟨hc, current, [], p :: l, ?_, hw, hh, rfl, ?_, rfl, rfl⟩
      · rw [if_pos (by rw [hnumber]; exact hle)]
      · rw [length_cons, Nat.min_eq_right hle]
    · have hdelete := hw.delete (current.hash, uint64 current.number) (by rw [hnumber]; omega)
      have hbelow := lineage_delete hh.lineage.tail (current.hash, uint64 current.number) (by
        rw [hnumber, length_cons])
      obtain ⟨parent, hparent, hhash, hheads⟩ := hdelete.heads_of_lineage hbelow
      obtain ⟨hc', current', pre, l', hrun, hw', hh', heq, hlen, hcanonical, hgenesis⟩ := ih hdelete hheads (by
        simpa using hfuel)
      refine ⟨hc', current', current.hash :: pre, l', ?_, hw', hh', ?_, ?_, hcanonical, hgenesis⟩
      · rw [if_neg (by rw [hnumber]; exact hle), hh.parentHash_eq]
        simp only [hnumber, before_succ] at hparent hrun ⊢
        rw [hparent]
        exact hrun
      · rw [cons_append, ← heq, hhash]
      · rw [hlen, length_cons]
        omega

theorem setHead_spec (hw : hc.WellStored) (hexact : hc.Exact) (head : ℕ) :
    ∃ hc', hc.setHead head = .ok hc' ∧ hc'.WellStored ∧ hc'.Exact ∧ hc'.genesisHeader = hc.genesisHeader := by
  obtain ⟨l, hh, hindex⟩ := hexact
  obtain ⟨hc', current, pre, l', hrun, hw', hh', heq, hlen, hcanonical, hgenesis⟩ :=
    rewind_spec hw hh head (Nat.lt_succ_self _)
  refine ⟨{ hc' with
    canonical := fun i => if head < i ∧ i ≤ uint64 hc.currentHeader.number then 0 else hc'.canonical i
    currentHeader := current }, ?_, ⟨hw'.keyed, hw'.td, hw'.bound, hw'.nonzero, hw'.genesis⟩,
    ⟨l', ⟨hh'.stored, hh'.lineage, hh'.length⟩, fun n => ?_⟩, hgenesis⟩
  · rw [setHead]
    simp only [← hh.length]
    rw [hrun]
    rfl
  · show (if head < n ∧ n ≤ uint64 hc.currentHeader.number then 0 else hc'.canonical n) = entry (current.hash :: l') n
    rw [hcanonical, hindex n, ← hh.length]
    by_cases hn : n ≤ l'.length
    · rw [if_neg (by omega), heq, entry_append hn]
    · have hzero : entry (current.hash :: l') n = 0 := entry_of_lt (by rw [length_cons]; omega)
      rw [hzero]
      split_ifs with hrange
      · rfl
      · exact entry_of_lt (by rw [length_cons]; omega)

/-! ### Runs -/

/-- A call; `coin` is the toss that breaks a tie. -/
inductive Op
  | writeHeader (header : Header) (coin : Bool)
  | setHead (head : ℕ)

def call (hc : HeaderChain) : Op → Except ChainErr HeaderChain
  | .writeHeader header coin => (hc.writeHeader header coin).map (·.2)
  | .setHead head => hc.setHead head

/-- The chain after a call; a call that fails leaves it as it is. -/
def step (hc : HeaderChain) (op : Op) : HeaderChain := (hc.call op).toOption.getD hc

/-- What is asked of a call: headers that are written fit. -/
def Meets (hc : HeaderChain) : Op → Prop
  | .writeHeader header _ => hc.Fits header
  | .setHead _ => True

def new (genesis : Header) : HeaderChain where
  headers := fun k => if k = (genesis.hash, 0) then some genesis else none
  tds := fun k => if k = (genesis.hash, 0) then some genesis.difficulty else none
  canonical := fun n => if n = 0 then genesis.hash else 0
  genesisHeader := genesis
  currentHeader := genesis

theorem wellStored_new {genesis : Header} (hnumber : uint64 genesis.number = 0) (hhash : genesis.hash ≠ 0) :
    (new genesis).WellStored := by
  refine wellStored_of_entries (fun k => ?_) (by simp [new])
  simp only [new]
  split_ifs with hkey
  · subst hkey
    exact ⟨fun a ha => (by cases ha; exact ⟨⟨rfl, hnumber⟩, by norm_num, hhash⟩), rfl⟩
  · exact ⟨fun a ha => (by cases ha), rfl⟩

theorem exact_new {genesis : Header} (hnumber : uint64 genesis.number = 0) : (new genesis).Exact := by
  refine ⟨[], ⟨?_, .root, hnumber.symm⟩, fun n => ?_⟩
  · simp [parentOf, new, hnumber]
  · simp only [new, entry, reverse_singleton]
    cases n <;> simp

theorem call_spec (hw : hc.WellStored) (hexact : hc.Exact) {op : Op} (hmeets : hc.Meets op) :
    (hc.call op = .error .unknownAncestor ∨ ∃ hc', hc.call op = .ok hc') ∧ (hc.step op).WellStored ∧
      (hc.step op).Exact := by
  cases op with
  | writeHeader header coin =>
    rcases writeHeader_spec hw hexact hmeets coin with herr | ⟨status, hc', hok, hw', hexact', -⟩
    · have hcall : hc.call (.writeHeader header coin) = .error .unknownAncestor := by rw [call, herr]; rfl
      rw [step, hcall]
      exact ⟨.inl rfl, hw, hexact⟩
    · have hcall : hc.call (.writeHeader header coin) = .ok hc' := by rw [call, hok]; rfl
      rw [step, hcall]
      exact ⟨.inr ⟨hc', rfl⟩, hw', hexact'⟩
  | setHead head =>
    obtain ⟨hc', hok, hw', hexact', -⟩ := setHead_spec hw hexact head
    have hcall : hc.call (.setHead head) = .ok hc' := hok
    rw [step, hcall]
    exact ⟨.inr ⟨hc', rfl⟩, hw', hexact'⟩

end HeaderChain

namespace Sample

open HeaderChain

attribute [local instance] Backend.Sample.keccak

def header (parentHash : Hash) (number difficulty : ℤ) : Header :=
  { Backend.Sample.header parentHash number [] with difficulty }

def genesis : Header := header 0 0 1

def first : Header := header genesis.hash 1 2

def second : Header := header first.hash 2 2

def third : Header := header second.hash 3 2

/-- A sibling of `third`, of less difficulty. -/
def side : Header := header second.hash 3 1

/-- `third` is the head and `side` is on the side; then the chain is rewound to `first`. -/
def rewound : HeaderChain :=
  Run.run step (new genesis) [.writeHeader first false, .writeHeader second false, .writeHeader third false,
    .writeHeader side false, .setHead 1]

end Sample

end GoWanchain.Core
