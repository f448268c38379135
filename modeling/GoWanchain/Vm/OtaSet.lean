import GoWanchain.State.Iteration
import GoWanchain.Vm.Requests

/-!
# Going through the recorded one-time addresses

`GetUnspendOTATotalBalance` of `core/vm/ota_storage.go` adds up the recorded balances and takes
off the recorded images; `GetOTASet` collects addresses of one balance at random, to hide an OTA
among them. Both rely on `ForEachStorageByteArray` to call them once for every entry. It calls
them twice for an entry that is cached and in the trie, and for entries that were taken back and
are cached as empty. `rand.Intn` (`intn`) and the order of a range over a map are parameters. The
loop of `GetOTASet` has no bound: `fuel` is the number of passes it is given.
-/

namespace GoWanchain.Vm

open State List

/-! ### The total balance -/

/-- The function with which `GetUnspendOTATotalBalance` goes through a storage. -/
def addBalanceCallBack (_key : Hash) (value : Bytes) (total : ℕ) : ℕ × Bool :=
  if value.length = 0 then (total, true) else (total + beNat value, true)

/-- `GetUnspendOTATotalBalance`, of which the iterations are the `n`-th and the `m`-th. -/
def getUnspendOTATotalBalance (db : StateDB) (known : Hash → Bool) (order : Order) (n m : ℕ) : ℤ :=
  let totalOTABalance := db.forEachStorageByteArray known order n otaBalanceStorageAddr addBalanceCallBack 0
  let totalSpendedOTABalance := db.forEachStorageByteArray known order m otaImageStorageAddr addBalanceCallBack 0
  (totalOTABalance : ℤ) - totalSpendedOTABalance

theorem travel_addBalance (l : List StorageEntry) (total : ℕ) :
    travel addBalanceCallBack l total = total + (l.map fun e => beNat e.2).sum := by
  have hstep (key : Hash) (value : Bytes) (total : ℕ) :
      addBalanceCallBack key value total = (total + beNat value, true) := by
    unfold addBalanceCallBack
    split_ifs with h
    · rw [length_eq_zero_iff.mp h]
      rfl
    · rfl
  induction l generalizing total with
  | nil => rfl
  | cons _ _ ih =>
    rw [travel, hstep, map_cons, sum_cons, ← Nat.add_assoc]
    exact ih _

theorem forEach_addBalance (db : StateDB) (known : Hash → Bool) (order : Order) (n : ℕ) (addr : Address) :
    db.forEachStorageByteArray known order n addr addBalanceCallBack 0 =
      ((db.forEachStorageByteArray known order n addr recordCall []).map fun e => beNat e.2).sum := by
  rw [StateDB.forEachStorageByteArray_recordCall, StateDB.forEachStorageByteArray]
  rcases db.state.getStateObject addr with _ | o
  · rfl
  · exact (travel_addBalance _ 0).trans (Nat.zero_add _)

/-- The iteration over an account is exact if and only if no key of its storage trie is cached and the database has
their preimages; then the total balance is the one that is recorded. -/
theorem forEachStorageByteArray_exact_iff [Keccak] {db : StateDB} (h : ByteRun db) (known : Hash → Bool) (order : Order)
    (n m : ℕ) :
    (∀ addr, ExactCalls (db.getStateByteArray addr) (db.forEachStorageByteArray known order n addr recordCall []) ↔
      db.Separate known addr) ∧
    (db.Separate known otaBalanceStorageAddr → db.Separate known otaImageStorageAddr →
      getUnspendOTATotalBalance db known order n m =
        ((∑ k : Hash, beNat (db.getStateByteArray otaBalanceStorageAddr k) : ℕ) : ℤ) -
          ((∑ k : Hash, beNat (db.getStateByteArray otaImageStorageAddr k) : ℕ) : ℤ)) := by
  refine ⟨fun addr => h.exactCalls_iff known order n addr, fun hbalance himage => ?_⟩
  have hfirst := ((h.exactCalls_iff known order n _).mpr hbalance).sum_eq
  have hsecond := ((h.exactCalls_iff known order m _).mpr himage).sum_eq
  simp only [getUnspendOTATotalBalance, forEach_addBalance, hfirst, hsecond]

namespace Sample

attribute [local instance] State.Sample.keccak

def recordedBalance : StateDB :=
  ((StateDB.new (fun _ => none) fun _ => none).setStateByteArray otaBalanceStorageAddr 1 [7]).finalise true

/-- An object that holds one entry, which was written and flushed. -/
structure Flushed (o : StateObject) (key : Hash) (value : Bytes) : Prop where
  word : o.cachedStorage = ∅
  cached : o.cachedStorageByteArray = .singleton key value
  trie : o.data.root = .singleton key value

namespace Flushed

variable {o : StateObject} {key : Hash} {value : Bytes}

section

variable (h : Flushed o key value)

include h

theorem lookup_cached (k : Hash) : o.cachedStorageByteArray.lookup k = if k = key then some value else none := by
  rw [h.cached]
  by_cases hk : k = key
  · subst hk
    simp [AList.lookup, AList.singleton]
  · simp [AList.lookup, AList.singleton, hk]

theorem lookup_trie (k : Hash) : o.data.root.lookup k = if k = key then some value else none := by
  rw [h.trie, ← h.lookup_cached, h.cached]
  rfl

theorem getStateByteArray (k : Hash) : o.getStateByteArray k = if k = key then value else [] := by
  rw [StateObject.getStateByteArray, h.lookup_cached, h.lookup_trie]
  split_ifs
  · rfl
  · rfl

theorem calls (known : Hash → Bool) (order : Order) (n : ℕ) :
    o.calls known order n = [⟨key, value⟩, ⟨recoverKey known key, value⟩] := by
  have hcached : order.cached n o = [⟨key, value⟩] := by
    have hperm := order.cached_perm n o
    rw [h.cached] at hperm
    exact perm_singleton.mp hperm
  have htrie : order.trie o = [⟨key, value⟩] := by
    have hcoe := order.trie_eq o
    rw [h.trie] at hcoe
    exact Multiset.coe_eq_singleton.mp hcoe
  simp [StateObject.calls, StateObject.trieCalls, hcached, htrie, h.word]

end

end Flushed

theorem recordedBalance_object :
    ∃ o, recordedBalance.state.getStateObject otaBalanceStorageAddr = some o ∧ Flushed o 1 [7] :=
  ⟨_, rfl, rfl, rfl, rfl⟩

/-- An iteration that is not exact, and a total that is not the recorded one. -/
theorem recordedBalance_not_exact : ByteRun recordedBalance ∧
    (∀ k, recordedBalance.getStateByteArray otaBalanceStorageAddr k = if k = 1 then [7] else []) ∧
    (∀ known order n, ¬ ExactCalls (recordedBalance.getStateByteArray otaBalanceStorageAddr)
      (recordedBalance.forEachStorageByteArray known order n otaBalanceStorageAddr recordCall [])) ∧
    ∀ known order n m, getUnspendOTATotalBalance recordedBalance known order n m = 14 := by
  have hrun : ByteRun recordedBalance := .intermediateRoot (.write (.new _ fun _ _ h => (by cases h)) _ _ _) true
  obtain ⟨o, hobj, hflushed⟩ := recordedBalance_object
  have himage : recordedBalance.state.getStateObject otaImageStorageAddr = none := rfl
  refine ⟨hrun, fun k => ?_, fun known order n hexact => ?_, fun known order n m => ?_⟩
  · rw [StateDB.getStateByteArray, hobj]
    exact hflushed.getStateByteArray k
  · -- the key is in the trie, and it is cached
    have hsep := (hrun.exactCalls_iff known order n otaBalanceStorageAddr).mp hexact o hobj 1 [7]
      (hflushed.lookup_trie 1)
    rw [hflushed.lookup_cached] at hsep
    cases hsep.1
  · rw [getUnspendOTATotalBalance, forEach_addBalance, forEach_addBalance, StateDB.forEachStorageByteArray_recordCall,
      StateDB.forEachStorageByteArray_recordCall, hobj, himage]
    simp only [Option.elim_some, Option.elim_none, hflushed.calls]
    rfl

def openedBalance : StateDB :=
  .new (fun _ => none) fun addr => if addr = otaBalanceStorageAddr then some ⟨0, 0, .singleton 1 [7], 0⟩ else none

theorem openedBalance_exact : ByteRun openedBalance ∧ ExactCalls (openedBalance.getStateByteArray otaBalanceStorageAddr)
      (openedBalance.forEachStorageByteArray (fun _ => true) default 0 otaBalanceStorageAddr recordCall []) ∧
    getUnspendOTATotalBalance openedBalance (fun _ => true) default 0 1 =
      ((∑ k : Hash, beNat (openedBalance.getStateByteArray otaBalanceStorageAddr k) : ℕ) : ℤ) -
        ((∑ k : Hash, beNat (openedBalance.getStateByteArray otaImageStorageAddr k) : ℕ) : ℤ) := by
  have hrun : ByteRun openedBalance := by
    refine .new _ fun addr data hdata k hk => ?_
    split_ifs at hdata
    cases hdata
    have hmem := Finmap.lookup_eq_some_iff.mp hk
    simp [Finmap.singleton] at hmem
  have hsep (addr : Address) : openedBalance.Separate (fun _ => true) addr := by
    intro o ho k v _
    obtain ⟨data, -, rfl⟩ := Option.map_eq_some_iff.mp (show Option.map newObject _ = some o from ho)
    exact ⟨rfl, rfl⟩
  obtain ⟨hexact, htotal⟩ := forEachStorageByteArray_exact_iff hrun (fun _ => true) default 0 1
  exact ⟨hrun, (hexact _).mpr (hsep _), htotal (hsep _) (hsep _)⟩

end Sample

/-! ### Sets of addresses -/

inductive OTASetError where
  | vm (err : VmError)
  /-- "can't find ota address balance!" -/
  | balanceNotFound
  /-- "invalid OTA address!" -/
  | invalidOTAAddress (balance : ℕ) (ota : Bytes)
  /-- "no ota exist!" -/
  | noOTAExist (balance : ℕ)
  /-- "too more required ota number!" -/
  | tooMoreRequired (balance existCount : ℕ)
deriving DecidableEq

structure GetOTASetEnv where
  otaAX : Bytes
  setNum : ℕ
  getNum : ℕ
  loopTimes : ℕ
  rnd : ℕ
  otaWanAddrSet : List Bytes
  /-- How many random numbers were drawn. -/
  drawn : ℕ

def isAXPointToWanAddr (ax otaWanAddr : Bytes) : Bool :=
  match getAXFromWanAddr otaWanAddr with
  | .ok findAX => findAX == ax
  | .error _ => false

namespace GetOTASetEnv

def otaInSet (env : GetOTASetEnv) (ota : Bytes) : Bool := env.otaWanAddrSet.contains ota

def updateRnd (intn : ℕ → ℕ) (env : GetOTASetEnv) : GetOTASetEnv :=
  { env with rnd := intn env.drawn % 100 + 1, drawn := env.drawn + 1 }

def isSetFull (env : GetOTASetEnv) : Bool := decide (env.getNum ≥ env.setNum)

def randomSelOTA (intn : ℕ → ℕ) (value : Bytes) (env : GetOTASetEnv) : GetOTASetEnv × Bool :=
  let env := { env with loopTimes := env.loopTimes + 1 }
  if env.loopTimes % env.rnd = 0 then
    (updateRnd intn { env with otaWanAddrSet := env.otaWanAddrSet ++ [value], getNum := env.getNum + 1 }, true)
  else (env, false)

end GetOTASetEnv

def doOTAStorageTravelCallBack (intn : ℕ → ℕ) (env : GetOTASetEnv) (value : Bytes) : GetOTASetEnv × Bool :=
  if isAXPointToWanAddr env.otaAX value then (env, true)
  else if env.otaInSet value then (env, true)
  else
    match env.randomSelOTA intn value with
    | (env, true) => (env, !env.isSetFull)
    | (env, false) => (env, true)

/-- The variables of `GetOTASet` that its callback writes. -/
structure OTATravel where
  env : GetOTASetEnv
  mptEleCount : ℕ
  err : Option OTASetError

/-- The callback of `GetOTASet`. -/
def otaSetCallBack (intn : ℕ → ℕ) (balance : ℕ) (_key : Hash) (value : Bytes) (t : OTATravel) : OTATravel × Bool :=
  if value.length ≠ wAddressLength then
    (⟨t.env, t.mptEleCount + 1, some (.invalidOTAAddress balance value)⟩, false)
  else
    let (env, bContinue) := doOTAStorageTravelCallBack intn t.env value
    (⟨env, t.mptEleCount + 1, t.err⟩, bContinue)

/-- The loop of `GetOTASet`, from its pass `n` on. -/
def otaSetLoop (db : StateDB) (known : Hash → Bool) (order : Order) (intn : ℕ → ℕ) (mptAddr : Address) (balance : ℕ) :
    ℕ → ℕ → OTATravel → Option (Except OTASetError (List Bytes × ℕ))
  | 0, _, _ => none
  | fuel + 1, n, t =>
    let t := db.forEachStorageByteArray known order n mptAddr (otaSetCallBack intn balance) t
    if t.env.isSetFull then some (.ok (t.env.otaWanAddrSet, balance))
    else
      match t.err with
      | some err => some (.error err)
      | none =>
        if t.mptEleCount = 0 then some (.error (.noOTAExist balance))
        else if t.env.setNum ≥ t.mptEleCount then some (.error (.tooMoreRequired balance t.mptEleCount))
        else otaSetLoop db known order intn mptAddr balance fuel (n + 1) t

/-- `GetOTASet`, unless it needs more passes than `fuel`. -/
def getOTASet (fuel : ℕ) (db : StateDB) (known : Hash → Bool) (order : Order) (intn : ℕ → ℕ) (otaAX : Bytes)
    (setNum : ℕ) : Option (Except OTASetError (List Bytes × ℕ)) :=
  match getOtaBalanceFromAX db otaAX with
  | .error err => some (.error (.vm err))
  | .ok balance =>
    if balance = 0 then some (.error .balanceNotFound)
    else
      otaSetLoop db known order intn (otaBalance2ContractAddr balance) balance fuel 0
        ⟨.updateRnd intn ⟨otaAX, setNum, 0, 0, 0, [], 0⟩, 0, none⟩

/-! ### One call -/

section Travel

variable (intn : ℕ → ℕ) (balance : ℕ) {otaAX : Bytes} {setNum : ℕ} {others : Finset Bytes}

/-- The set has been filled with some of `others`. -/
structure GetOTASetEnv.Fair (otaAX : Bytes) (setNum : ℕ) (others : Finset Bytes) (env : GetOTASetEnv) : Prop where
  ax : env.otaAX = otaAX
  num : env.setNum = setNum
  count : env.getNum = env.otaWanAddrSet.length
  le : env.getNum ≤ setNum
  nodup : env.otaWanAddrSet.Nodup
  subset : ∀ v ∈ env.otaWanAddrSet, v ∈ others
  rnd_pos : 0 < env.rnd
  rnd_le : env.rnd ≤ 100

/-- How many candidates may still be met before the set is full. -/
def GetOTASetEnv.potential (env : GetOTASetEnv) : ℕ :=
  (env.setNum - env.getNum) * 101 + (env.rnd - env.loopTimes % env.rnd)

variable {env : GetOTASetEnv} {t : OTATravel}

theorem GetOTASetEnv.Fair.getNum_le_card (h : env.Fair otaAX setNum others) : env.getNum ≤ others.card := by
  rw [h.count, ← toFinset_card_of_nodup h.nodup]
  apply Finset.card_le_card
  intro v hv
  exact h.subset v (mem_toFinset.mp hv)

/-- A candidate brings the end nearer: it is picked, or the next pick is one candidate nearer. -/
theorem randomSelOTA_spec (h : env.Fair otaAX setNum others) (hopen : env.getNum < setNum)
    {v : Bytes} (hv : v ∈ others) (hfresh : v ∉ env.otaWanAddrSet) :
    (env.randomSelOTA intn v).1.Fair otaAX setNum others ∧ (env.randomSelOTA intn v).1.potential < env.potential ∧
      ((env.randomSelOTA intn v).2 = false → (env.randomSelOTA intn v).1.getNum < setNum) := by
  have hmod := Nat.mod_lt env.loopTimes h.rnd_pos
  unfold GetOTASetEnv.randomSelOTA
  by_cases hpick : (env.loopTimes + 1) % env.rnd = 0
  · simp only [hpick, ↓reduceIte]
    refine ⟨⟨h.ax, h.num, ?_, hopen, ?_, ?_, Nat.succ_pos _, ?_⟩, ?_, fun hfalse => (by cases hfalse)⟩
    · simp [GetOTASetEnv.updateRnd, h.count]
    · exact Nodup.append h.nodup (nodup_singleton v) (by simpa using hfresh)
    · intro u hu
      rcases mem_append.mp hu with hu | hu
      · exact h.subset u hu
      · rw [mem_singleton.mp hu]
        exact hv
    · exact Nat.succ_le_of_lt (Nat.mod_lt _ (by norm_num))
    · simp only [GetOTASetEnv.potential, GetOTASetEnv.updateRnd, h.num]
      have hdraw := Nat.mod_lt (intn env.drawn) (show 0 < 100 by norm_num)
      have hsub : setNum - env.getNum = setNum - (env.getNum + 1) + 1 := by omega
      rw [hsub]
      omega
  · simp only [hpick, ↓reduceIte]
    refine ⟨⟨h.ax, h.num, h.count, h.le, h.nodup, h.subset, h.rnd_pos, h.rnd_le⟩, ?_, fun _ => hopen⟩
    simp only [GetOTASetEnv.potential]
    have hnext : (env.loopTimes + 1) % env.rnd = env.loopTimes % env.rnd + 1 := by
      rw [Nat.add_mod] at hpick ⊢
      have hone : 1 % env.rnd = 1 := by
        apply Nat.mod_eq_of_lt
        by_contra hle
        have : env.rnd = 1 := by have := h.rnd_pos; omega
        simp [this, Nat.mod_one] at hpick
      rw [hone] at hpick ⊢
      apply Nat.mod_eq_of_lt
      by_contra hle
      have heq : env.loopTimes % env.rnd + 1 = env.rnd := by omega
      rw [heq, Nat.mod_self] at hpick
      exact hpick rfl
    omega

/-- What a call for the address `v` does to an open set. -/
inductive Reaction (otaAX : Bytes) (setNum : ℕ) (others : Finset Bytes) (v : Bytes) (env : GetOTASetEnv) :
    GetOTASetEnv × Bool → Prop
  | full {env'} (fair : env'.Fair otaAX setNum others) (full : env'.getNum = setNum) :
      Reaction otaAX setNum others v env (env', false)
  | onward {env'} (fair : env'.Fair otaAX setNum others) (lt : env'.getNum < setNum)
      (progress : env'.potential < env.potential ∨
        env' = env ∧ (isAXPointToWanAddr otaAX v = false → v ∈ env.otaWanAddrSet)) :
      Reaction otaAX setNum others v env (env', true)

theorem doOTAStorageTravelCallBack_spec (h : env.Fair otaAX setNum others)
    (hopen : env.getNum < setNum) {v : Bytes} (hv : isAXPointToWanAddr otaAX v = false → v ∈ others) :
    Reaction otaAX setNum others v env (doOTAStorageTravelCallBack intn env v) := by
  unfold doOTAStorageTravelCallBack
  rw [h.ax]
  split_ifs with hself hin
  · exact .onward h hopen (.inr ⟨rfl, fun hother => absurd hself (by simp [hother])⟩)
  · exact .onward h hopen (.inr ⟨rfl, fun _ => by simpa [GetOTASetEnv.otaInSet] using hin⟩)
  · have hfresh : v ∉ env.otaWanAddrSet := by simpa [GetOTASetEnv.otaInSet] using hin
    obtain ⟨hfair, hless, hkeep⟩ :=
      randomSelOTA_spec intn h hopen (hv (Bool.eq_false_of_not_eq_true hself)) hfresh
    rcases hsel : env.randomSelOTA intn v with ⟨env', picked⟩
    rw [hsel] at hfair hless hkeep
    cases picked with
    | true =>
      show Reaction otaAX setNum others v env (env', !decide (env'.getNum ≥ env'.setNum))
      rw [hfair.num]
      rcases hfair.le.lt_or_eq with hlt | hfull
      · rw [decide_eq_false (not_le.mpr hlt)]
        exact .onward hfair hlt (.inl hless)
      · rw [decide_eq_true hfull.ge]
        exact .full hfair hfull
    | false => exact .onward hfair (hkeep rfl) (.inl hless)

/-! ### One pass -/

/-- How a pass over the calls `l` ends. -/
inductive Pass (otaAX : Bytes) (setNum : ℕ) (others : Finset Bytes) (l : List StorageEntry) (t : OTATravel) :
    OTATravel → Prop
  | full {t'} (fair : t'.env.Fair otaAX setNum others) (full : t'.env.getNum = setNum) : Pass otaAX setNum others l t t'
  | invalid {t' err} (fair : t'.env.Fair otaAX setNum others) (lt : t'.env.getNum < setNum) (err_eq : t'.err = some err)
      (exist : ∃ e ∈ l, e.2.length ≠ wAddressLength) : Pass otaAX setNum others l t t'
  | done {t'} (fair : t'.env.Fair otaAX setNum others) (lt : t'.env.getNum < setNum) (err_eq : t'.err = none)
      (valid : ∀ e ∈ l, e.2.length = wAddressLength) (count : t'.mptEleCount = t.mptEleCount + l.length)
      (progress : t'.env.potential < t.env.potential ∨
        t'.env = t.env ∧ ∀ e ∈ l, isAXPointToWanAddr otaAX e.2 = false → e.2 ∈ t.env.otaWanAddrSet) :
      Pass otaAX setNum others l t t'

/-- The calls are for addresses of the bucket, and for entries that are not addresses. -/
def Among (otaAX : Bytes) (others : Finset Bytes) (l : List StorageEntry) : Prop :=
  ∀ e ∈ l, e.2.length = wAddressLength → isAXPointToWanAddr otaAX e.2 = false → e.2 ∈ others

variable (h : t.env.Fair otaAX setNum others) (hopen : t.env.getNum < setNum) (herr : t.err = none)

include h hopen herr

theorem pass_spec {l : List StorageEntry} (hvalues : Among otaAX others l) :
    Pass otaAX setNum others l t (travel (otaSetCallBack intn balance) l t) := by
  induction l generalizing t with
  | nil => exact .done h hopen herr (by simp) rfl (.inr ⟨rfl, by simp⟩)
  | cons e l ih =>
    have hrest : Among otaAX others l := fun e he => hvalues e (mem_cons_of_mem _ he)
    rw [travel, otaSetCallBack]
    by_cases hlen : e.2.length = wAddressLength
    · rw [if_neg (not_not.mpr hlen)]
      have hcall := doOTAStorageTravelCallBack_spec intn h hopen (hvalues e mem_cons_self hlen)
      generalize doOTAStorageTravelCallBack intn t.env e.2 = r at hcall ⊢
      cases hcall with
      | full hfair hfull => exact .full hfair hfull
      | @onward env' hfair hlt hstep =>
        cases ih (t := ⟨env', t.mptEleCount + 1, t.err⟩) hfair hlt herr hrest with
        | full hfair hfull => exact .full hfair hfull
        | invalid hfair hlt herr hexist =>
          obtain ⟨e', he', hbad⟩ := hexist
          exact .invalid hfair hlt herr ⟨e', mem_cons_of_mem _ he', hbad⟩
        | done hfair hlt herr hvalid hcount hprogress =>
          refine .done hfair hlt herr (forall_mem_cons.mpr ⟨hlen, hvalid⟩) ?_ ?_
          · rw [hcount, length_cons, Nat.add_assoc, Nat.add_comm 1]
          · rcases hstep with hstep | ⟨rfl, hknown⟩
            · rcases hprogress with hless | ⟨hsame, -⟩
              · exact .inl (hless.trans hstep)
              · exact .inl (hsame ▸ hstep)
            · rcases hprogress with hless | ⟨hsame, hall⟩
              · exact .inl hless
              · exact .inr ⟨hsame, forall_mem_cons.mpr ⟨hknown, hall⟩⟩
    · rw [if_pos hlen]
      exact .invalid h hopen rfl ⟨e, mem_cons_self, hlen⟩

/-! ### All passes -/

variable {db : StateDB} {known : Hash → Bool} {order : Order} {mptAddr : Address} {o : StateObject}

omit h hopen herr in
theorem GetOTASetEnv.Fair.isSetFull (h : env.Fair otaAX setNum others) :
    env.isSetFull = decide (setNum ≤ env.getNum) := by
  rw [GetOTASetEnv.isSetFull, h.num]

/-- What a pass over the calls `l` makes of a loop, a function of the passes that it is given. -/
inductive Turn (otaAX : Bytes) (setNum : ℕ) (others : Finset Bytes) (l : List StorageEntry) (t : OTATravel)
    (balance : ℕ) (next : OTATravel → ℕ → Option (Except OTASetError (List Bytes × ℕ)))
    (loop : ℕ → Option (Except OTASetError (List Bytes × ℕ))) : Prop
  | filled (env : GetOTASetEnv) (fair : env.Fair otaAX setNum others) (full : env.getNum = setNum)
      (eq : ∀ fuel, loop (fuel + 1) = some (.ok (env.otaWanAddrSet, balance)))
  | failed (err : OTASetError) (eq : ∀ fuel, loop (fuel + 1) = some (.error err))
      (cause : (∃ e ∈ l, e.2.length ≠ wAddressLength) ∨ t.mptEleCount + l.length ≤ setNum)
  | again (t' : OTATravel) (fair : t'.env.Fair otaAX setNum others) (lt : t'.env.getNum < setNum)
      (err_eq : t'.err = none) (valid : ∀ e ∈ l, e.2.length = wAddressLength) (many : setNum < t.mptEleCount + l.length)
      (progress : t'.env.potential < t.env.potential ∨
        ∀ e ∈ l, isAXPointToWanAddr otaAX e.2 = false → e.2 ∈ t.env.otaWanAddrSet)
      (eq : ∀ fuel, loop (fuel + 1) = next t' fuel)

variable (ho : db.state.getStateObject mptAddr = some o)

include ho

theorem otaSetLoop_turn (n : ℕ) (hamong : Among otaAX others (o.calls known order n)) :
    Turn otaAX setNum others (o.calls known order n) t balance
      (fun t' fuel => otaSetLoop db known order intn mptAddr balance fuel (n + 1) t')
      (fun fuel => otaSetLoop db known order intn mptAddr balance fuel n t) := by
  have hpass := pass_spec intn balance h hopen herr hamong
  have hloop (fuel : ℕ) := otaSetLoop.eq_def db known order intn mptAddr balance (fuel + 1) n t
  simp only [StateDB.forEachStorageByteArray, ho] at hloop
  generalize travel (otaSetCallBack intn balance) (o.calls known order n) t = t' at hpass hloop
  cases hpass with
  | full hfair hfull =>
    refine .filled t'.env hfair hfull fun fuel => (hloop fuel).trans (if_pos ?_)
    rw [hfair.isSetFull, decide_eq_true hfull.ge]
  | @invalid err hfair hlt herr' hexist =>
    refine .failed err (fun fuel => (hloop fuel).trans ?_) (.inl hexist)
    rw [hfair.isSetFull, decide_eq_false (not_le.mpr hlt), if_neg Bool.false_ne_true, herr']
  | done hfair hlt herr' hvalid _ hprogress =>
    simp only [hfair.isSetFull, decide_eq_false (not_le.mpr hlt), if_neg Bool.false_ne_true, herr', hfair.num] at hloop
    by_cases hzero : t'.mptEleCount = 0
    · exact .failed _ (fun fuel => (hloop fuel).trans (if_pos hzero)) (.inr (by omega))
    by_cases hfew : setNum ≥ t'.mptEleCount
    · exact .failed _ (fun fuel => (hloop fuel).trans ((if_neg hzero).trans (if_pos hfew))) (.inr (by omega))
    · exact .again t' hfair hlt herr' hvalid (by omega) (hprogress.imp_right And.right)
        fun fuel => (hloop fuel).trans ((if_neg hzero).trans (if_neg hfew))

/-- With all addresses met in every pass, and enough of them, the loop fills the set. -/
theorem otaSetLoop_fills (hamong : ∀ n, Among otaAX others (o.calls known order n))
    (hself : ∀ v ∈ others, isAXPointToWanAddr otaAX v = false)
    (hmet : ∀ n, ∀ v ∈ others, ∃ e ∈ o.calls known order n, e.2 = v)
    (hvalid : ∀ n, ∀ e ∈ o.calls known order n, e.2.length = wAddressLength)
    (hmany : ∀ n, setNum < (o.calls known order n).length) (hcard : setNum ≤ others.card) {fuel n : ℕ}
    (hfuel : t.env.potential ≤ fuel) : ∃ env : GetOTASetEnv, otaSetLoop db known order intn mptAddr balance fuel n t =
      some (.ok (env.otaWanAddrSet, balance)) ∧ env.Fair otaAX setNum others ∧ env.getNum = setNum := by
  induction fuel generalizing n t with
  | zero =>
    have hpos : 0 < t.env.potential := by
      rw [GetOTASetEnv.potential, h.num]
      omega
    omega
  | succ fuel ih =>
    cases otaSetLoop_turn intn balance h hopen herr ho n (hamong n) with
    | filled env hfair hfull heq => exact ⟨env, heq fuel, hfair, hfull⟩
    | failed _ _ hcause =>
      have hlong := hmany n
      rcases hcause with ⟨e, he, hbad⟩ | hfew
      · exact absurd (hvalid n e he) hbad
      · omega
    | again t' hfair hlt herr' _ _ hprogress heq =>
      have hless : t'.env.potential < t.env.potential := by
        refine hprogress.resolve_right fun hall => ?_
        -- an address that was not in the set has been met
        have hsub : others ⊆ t.env.otaWanAddrSet.toFinset := by
          intro v hv
          obtain ⟨e, he, rfl⟩ := hmet n v hv
          exact mem_toFinset.mpr (hall e he (hself _ hv))
        have hle := (Finset.card_le_card hsub).trans (toFinset_card_le _)
        rw [← h.count] at hle
        omega
      rw [heq]
      exact ih hfair hlt herr' (by omega)

/-- With too few addresses, and an entry that is none or too few calls, the first pass fails. -/
theorem otaSetLoop_fails (n : ℕ) (hamong : Among otaAX others (o.calls known order n)) (hcard : others.card < setNum)
    (hcause : (∃ e ∈ o.calls known order n, e.2.length ≠ wAddressLength) ∨
      t.mptEleCount + (o.calls known order n).length ≤ setNum) (fuel : ℕ) :
    ∃ err, otaSetLoop db known order intn mptAddr balance (fuel + 1) n t = some (.error err) := by
  cases otaSetLoop_turn intn balance h hopen herr ho n hamong with
  | filled _ hfair =>
    have hle := hfair.getNum_le_card
    omega
  | failed err heq => exact ⟨err, heq fuel⟩
  | again _ _ _ _ hvalid =>
    rcases hcause with ⟨e, he, hbad⟩ | hfew
    · exact absurd (hvalid e he) hbad
    · omega

/-- With too few addresses, all of them valid, and more calls than addresses are asked for, the loop has no end. -/
theorem otaSetLoop_endless (hamong : ∀ n, Among otaAX others (o.calls known order n)) (hcard : others.card < setNum)
    (hvalid : ∀ n, ∀ e ∈ o.calls known order n, e.2.length = wAddressLength)
    (hmany : ∀ n, setNum < (o.calls known order n).length) (fuel n : ℕ) :
    otaSetLoop db known order intn mptAddr balance fuel n t = none := by
  induction fuel generalizing n t with
  | zero => rfl
  | succ _ ih =>
    cases otaSetLoop_turn intn balance h hopen herr ho n (hamong n) with
    | filled _ hfair =>
      have hle := hfair.getNum_le_card
      omega
    | failed _ _ hcause =>
      have hlong := hmany n
      rcases hcause with ⟨e, he, hbad⟩ | hfew
      · exact absurd (hvalid n e he) hbad
      · omega
    | again _ hfair hlt herr' _ _ _ heq =>
      rw [heq]
      exact ih hfair hlt herr' (n + 1)

end Travel

/-! ### Buckets -/

/-- The object of a bucket holds addresses under the `keys`. No code runs at a bucket, so that it has no word slots,
and what is recorded there is not changed: an entry that is cached and in the trie has one value. -/
structure Bucket (o : StateObject) (keys : Finset Hash) : Prop where
  plain : o.Plain
  settled : ∀ k v w, o.cachedStorageByteArray.lookup k = some v → o.data.root.lookup k = some w → v = w
  recorded : ∀ k, k ∈ keys ↔ o.getStateByteArray k ≠ []
  length_eq : ∀ k ∈ keys, (o.getStateByteArray k).length = wAddressLength
  own : ∀ k ∈ keys, otaKey (o.getStateByteArray k) = k

namespace Bucket

variable {o : StateObject} {keys : Finset Hash} {known : Hash → Bool} {order : Order} {n : ℕ} {otaAX : Bytes}

/-- The addresses beside the one under `own`. -/
def others (o : StateObject) (keys : Finset Hash) (own : Hash) : Finset Bytes :=
  (keys.erase own).image o.getStateByteArray

theorem mem_others {own : Hash} {v : Bytes} :
    v ∈ others o keys own ↔ ∃ k ∈ keys, k ≠ own ∧ o.getStateByteArray k = v := by
  simp only [others, Finset.mem_image, Finset.mem_erase]
  constructor
  · rintro ⟨k, ⟨hne, hk⟩, rfl⟩
    exact ⟨k, hk, hne, rfl⟩
  · rintro ⟨k, hk, hne, rfl⟩
    exact ⟨k, ⟨hne, hk⟩, rfl⟩

theorem card_others (h : Bucket o keys) {own : Hash} (hown : own ∈ keys) :
    (others o keys own).card + 1 = keys.card := by
  have hinj : Set.InjOn o.getStateByteArray (keys.erase own : Finset Hash) := by
    intro k hk j hj heq
    rw [← h.own k (Finset.mem_of_mem_erase hk), heq, h.own j (Finset.mem_of_mem_erase hj)]
  rw [others, Finset.card_image_of_injOn hinj]
  exact Finset.card_erase_add_one hown

variable {k : Hash}

section

variable (h : Bucket o keys)

include h

theorem getStateByteArray_trie {v : Bytes} (hk : o.data.root.lookup k = some v) : o.getStateByteArray k = v := by
  unfold StateObject.getStateByteArray
  rcases hc : o.cachedStorageByteArray.lookup k with _ | w
  · simp [hk]
  · exact h.settled k w v hc hk

theorem value_of_call {e : StorageEntry} (he : e ∈ o.calls known order n) :
    ∃ k, o.getStateByteArray k = e.2 ∧ (e.2 = [] → o.cachedStorageByteArray.lookup k = some []) := by
  rcases mem_append.mp he with he | he
  · refine ⟨e.1, ?_, fun hnil => hnil ▸ mem_cached.mp he⟩
    rw [StateObject.getStateByteArray, mem_cached.mp he]
    rfl
  · obtain ⟨k, hk, -, -⟩ := mem_trieCalls.mp he
    exact ⟨k, h.getStateByteArray_trie hk, fun hnil => absurd (hnil ▸ hk) (h.plain.solid k)⟩

theorem exists_call (hk : k ∈ keys) : ∃ e ∈ o.calls known order n, e.2 = o.getStateByteArray k := by
  have hne := (h.recorded k).mp hk
  rcases hc : o.cachedStorageByteArray.lookup k with _ | v
  · rcases hr : o.data.root.lookup k with _ | v
    · exact absurd (by rw [StateObject.getStateByteArray, hc, hr]; rfl) hne
    · exact ⟨⟨recoverKey known k, v⟩, mem_append_right _ (mem_trieCalls.mpr ⟨k, hr, rfl, h.plain.wordless _⟩),
        (h.getStateByteArray_trie hr).symm⟩
  · refine ⟨⟨k, v⟩, mem_append_left _ (mem_cached.mpr hc), ?_⟩
    rw [StateObject.getStateByteArray, hc]
    rfl

theorem exists_invalid_iff :
    (∃ e ∈ o.calls known order n, e.2.length ≠ wAddressLength) ↔ ∃ k, o.cachedStorageByteArray.lookup k = some [] := by
  constructor
  · rintro ⟨e, he, hlen⟩
    obtain ⟨k, hvalue, hempty⟩ := h.value_of_call he
    refine ⟨k, hempty ?_⟩
    by_contra hne
    have hk := (h.recorded k).mpr (hvalue ▸ hne)
    exact hlen (hvalue ▸ h.length_eq k hk)
  · rintro ⟨k, hk⟩
    exact ⟨⟨k, []⟩, mem_append_left _ (mem_cached.mpr hk), by simp [wAddressLength]⟩

theorem isAXPointToWanAddr_iff (hax : otaAX.length = hashLength) (hk : k ∈ keys) :
    isAXPointToWanAddr otaAX (o.getStateByteArray k) = true ↔ k = bytesToHash otaAX := by
  have hget : getAXFromWanAddr (o.getStateByteArray k) = .ok (((o.getStateByteArray k).drop 1).take hashLength) :=
    getAXFromWanAddr_eq_ok.mpr ⟨h.length_eq k hk, rfl⟩
  have hlen : (((o.getStateByteArray k).drop 1).take hashLength).length = hashLength := by
    simp [h.length_eq k hk, wAddressLength, hashLength]
  rw [isAXPointToWanAddr, hget]
  simp only [beq_iff_eq]
  constructor
  · intro heq
    rw [← heq]
    exact (h.own k hk).symm
  · intro heq
    apply bytesToHash_inj (hlen.trans hax.symm) hlen
    exact (h.own k hk).trans heq

theorem among (hax : otaAX.length = hashLength) :
    Among otaAX (others o keys (bytesToHash otaAX)) (o.calls known order n) := by
  intro e he hlen hself
  obtain ⟨k, hvalue, -⟩ := h.value_of_call he
  have hne : o.getStateByteArray k ≠ [] := by
    rw [hvalue]
    rintro hnil
    rw [hnil] at hlen
    cases hlen
  have hk := (h.recorded k).mpr hne
  refine mem_others.mpr ⟨k, hk, fun hown => ?_, hvalue⟩
  have htrue := (h.isAXPointToWanAddr_iff hax hk).mpr hown
  rw [hvalue, hself] at htrue
  cases htrue

theorem card_le_length_calls : keys.card ≤ o.cachedStorageByteArray.keys.length + o.data.root.keys.card := by
  have hsub : keys ⊆ o.cachedStorageByteArray.keys.toFinset ∪ o.data.root.keys := by
    intro k hk
    have hne := (h.recorded k).mp hk
    by_contra hnot
    simp only [Finset.mem_union, mem_toFinset, Finmap.mem_keys, not_or] at hnot
    apply hne
    rw [StateObject.getStateByteArray, AList.lookup_eq_none.mpr hnot.1, Finmap.lookup_eq_none.mpr hnot.2]
    rfl
  calc keys.card ≤ _ := Finset.card_le_card hsub
    _ ≤ _ := Finset.card_union_le _ _
    _ ≤ _ := Nat.add_le_add_right (toFinset_card_le _) _

end

end Bucket

/-! ### The selection -/

/-- A choice of `setNum` addresses of a bucket, without the one under `own`. -/
structure Selection (value : Hash → Bytes) (keys : Finset Hash) (own : Hash) (setNum : ℕ) (otaWanAddrs : List Bytes) :
    Prop where
  length_eq : otaWanAddrs.length = setNum
  nodup : otaWanAddrs.Nodup
  mem : ∀ a ∈ otaWanAddrs, ∃ k ∈ keys, k ≠ own ∧ value k = a

def otaSetStart (intn : ℕ → ℕ) (otaAX : Bytes) (setNum : ℕ) : OTATravel :=
  ⟨.updateRnd intn ⟨otaAX, setNum, 0, 0, 0, [], 0⟩, 0, none⟩

theorem fair_otaSetStart (intn : ℕ → ℕ) (otaAX : Bytes) (setNum : ℕ) (others : Finset Bytes) :
    (otaSetStart intn otaAX setNum).env.Fair otaAX setNum others where
  ax := rfl
  num := rfl
  count := rfl
  le := Nat.zero_le _
  nodup := nodup_nil
  subset _ hv := by cases hv
  rnd_pos := Nat.succ_pos _
  rnd_le := Nat.succ_le_of_lt (Nat.mod_lt _ (by norm_num))

section Selection

variable {db : StateDB} {known : Hash → Bool} {order : Order} {otaAX : Bytes} {setNum balance : ℕ} {o : StateObject}
  {keys : Finset Hash}

theorem getOTASet_eq (intn : ℕ → ℕ) (hbalance : getOtaBalanceFromAX db otaAX = .ok balance) (hne : balance ≠ 0)
    (fuel : ℕ) :
    getOTASet fuel db known order intn otaAX setNum = otaSetLoop db known order intn (otaBalance2ContractAddr balance)
      balance fuel 0 (otaSetStart intn otaAX setNum) := by
  simp only [getOTASet, hbalance, if_neg hne, otaSetStart]

theorem length_of_getOtaBalanceFromAX (hbalance : getOtaBalanceFromAX db otaAX = .ok balance) :
    otaAX.length = hashLength := by
  simp only [getOtaBalanceFromAX, bind_eq_ok, ensure_eq_ok] at hbalance
  obtain ⟨_, hlen, -⟩ := hbalance
  exact hlen

theorem otaSetLoop_first (intn : ℕ → ℕ) {mptAddr : Address} (ho : db.state.getStateObject mptAddr = some o) {k : Hash}
    (hk : o.cachedStorageByteArray.lookup k = some []) (hnum : 1 ≤ setNum) (fuel : ℕ) :
    otaSetLoop db known (order.first ⟨k, []⟩) intn mptAddr balance (fuel + 1) 0 (otaSetStart intn otaAX setNum) =
      some (.error (.invalidOTAAddress balance [])) := by
  have hcached : (order.first ⟨k, []⟩).cached 0 o = ⟨k, []⟩ :: (order.cached 0 o).erase ⟨k, []⟩ :=
    if_pos (mem_cached.mpr hk)
  have hfull : (otaSetStart intn otaAX setNum).env.isSetFull = false := decide_eq_false (not_le.mpr hnum)
  rw [otaSetLoop, StateDB.forEachStorageByteArray, ho]
  simp only [StateObject.calls, hcached, cons_append, travel, otaSetCallBack]
  rw [if_pos (show ([] : Bytes).length ≠ wAddressLength by decide)]
  simp only [hfull, Bool.false_eq_true, if_false]

/-- For every order and every random number `GetOTASet` returns a choice of the addresses that are asked for, or an
error if there are too few of them, if and only if no empty value is cached or, if there are too few,
the cache and the trie together have no more entries than are asked for or an empty value is cached. -/
theorem getOTASet_iff (hbalance : getOtaBalanceFromAX db otaAX = .ok balance) (hne : balance ≠ 0)
    (ho : db.state.getStateObject (otaBalance2ContractAddr balance) = some o) (hbucket : Bucket o keys)
    (hown : bytesToHash otaAX ∈ keys) (hnum : 1 ≤ setNum) : (∀ order intn, ∃ fuel, if setNum < keys.card then
        ∃ otaWanAddrs, getOTASet fuel db known order intn otaAX setNum = some (.ok (otaWanAddrs, balance)) ∧
          Selection o.getStateByteArray keys (bytesToHash otaAX) setNum otaWanAddrs
      else ∃ err, getOTASet fuel db known order intn otaAX setNum = some (.error err)) ↔
    if setNum < keys.card then ∀ k, o.cachedStorageByteArray.lookup k ≠ some []
    else (∃ k, o.cachedStorageByteArray.lookup k = some []) ∨
      o.cachedStorageByteArray.keys.length + o.data.root.keys.card ≤ setNum := by
  have hax := length_of_getOtaBalanceFromAX hbalance
  have hcard := hbucket.card_others hown
  have hlen (order : Order) (n : ℕ) := length_calls_of_wordless known order n hbucket.plain.wordless
  have hvalid (hclean : ∀ k, o.cachedStorageByteArray.lookup k ≠ some []) (order : Order) (n : ℕ) :
      ∀ e ∈ o.calls known order n, e.2.length = wAddressLength := by
    intro e he
    by_contra hbad
    obtain ⟨k, hk⟩ := hbucket.exists_invalid_iff.mp ⟨e, he, hbad⟩
    exact hclean k hk
  simp only [getOTASet_eq _ hbalance hne]
  split_ifs with hmany
  · constructor
    · intro hall k hk
      obtain ⟨fuel, l, heq, -⟩ := hall ((default : Order).first ⟨k, []⟩) id
      cases fuel with
      | zero => cases heq
      | succ =>
        rw [otaSetLoop_first id ho hk hnum] at heq
        cases heq
    · intro hclean order intn
      have hself : ∀ v ∈ Bucket.others o keys (bytesToHash otaAX), isAXPointToWanAddr otaAX v = false := by
        intro v hv
        obtain ⟨k, hk, hother, rfl⟩ := Bucket.mem_others.mp hv
        exact Bool.eq_false_of_not_eq_true fun htrue => hother ((hbucket.isAXPointToWanAddr_iff hax hk).mp htrue)
      have hmet (n : ℕ) : ∀ v ∈ Bucket.others o keys (bytesToHash otaAX), ∃ e ∈ o.calls known order n, e.2 = v := by
        intro v hv
        obtain ⟨k, hk, -, rfl⟩ := Bucket.mem_others.mp hv
        exact hbucket.exists_call hk
      have hlong (n : ℕ) : setNum < (o.calls known order n).length := by
        rw [hlen]
        exact lt_of_lt_of_le hmany hbucket.card_le_length_calls
      obtain ⟨env, heq, hfair, hfull⟩ := otaSetLoop_fills intn balance
        (fair_otaSetStart intn otaAX setNum _) hnum rfl ho (fun n => hbucket.among hax) hself hmet
        (hvalid hclean order) hlong (by omega) le_rfl
      refine ⟨_, _, heq, ?_, hfair.nodup, fun a ha => Bucket.mem_others.mp (hfair.subset a ha)⟩
      rw [← hfair.count, hfull]
  · constructor
    · intro hall
      by_contra hnot
      obtain ⟨hclean, hlong⟩ := not_or.mp hnot
      obtain ⟨fuel, err, heq⟩ := hall default id
      rw [otaSetLoop_endless id balance (fair_otaSetStart id otaAX setNum _) hnum rfl ho (fun n => hbucket.among hax)
        (by omega) (hvalid (not_exists.mp hclean) default) (fun n => by rw [hlen]; omega) fuel 0] at heq
      cases heq
    · intro hcause order intn
      refine ⟨1, otaSetLoop_fails intn balance (fair_otaSetStart intn otaAX setNum _) hnum rfl ho 0
        (hbucket.among hax) (by omega) ?_ 0⟩
      refine hcause.imp hbucket.exists_invalid_iff.mpr fun hfew => ?_
      rw [hlen]
      exact (Nat.zero_add _).trans_le hfew

end Selection

namespace Sample

attribute [local instance] State.Sample.keccak

def otaWanAddr (x : ℕ) : Bytes := 2 :: bePadded 32 x ++ 3 :: bePadded 32 x

def recordedOTA : StateDB :=
  match addOTAIfNotExist (.new (fun _ => none) fun _ => none) 7 (otaWanAddr 5) with
  | .ok db => db.finalise true
  | .error _ => .new (fun _ => none) fun _ => none

/-- There is no address to hide the one OTA with, and no pass finds it out. -/
theorem recordedOTA_endless : getOtaBalanceFromAX recordedOTA (bePadded 32 5) = .ok 7 ∧
    (∃ o, recordedOTA.state.getStateObject (otaBalance2ContractAddr 7) = some o ∧ Bucket o {5}) ∧
    ∀ known order intn fuel, getOTASet fuel recordedOTA known order intn (bePadded 32 5) 1 = none := by
  have hbalance : getOtaBalanceFromAX recordedOTA (bePadded 32 5) = .ok 7 := by decide +kernel
  obtain ⟨o, hobj, hflushed⟩ : ∃ o, recordedOTA.state.getStateObject (otaBalance2ContractAddr 7) = some o ∧
      Flushed o 5 (otaWanAddr 5) := ⟨_, rfl, rfl, rfl, rfl⟩
  have hbucket : Bucket o {5} := by
    refine ⟨⟨fun k => ?_, fun k => ?_⟩, fun k v w hv hw => ?_, fun k => ?_, fun k hk => ?_, fun k hk => ?_⟩
    · rw [hflushed.word]
      rfl
    · rw [hflushed.lookup_trie]
      split_ifs
      · decide
      · simp
    · rw [hflushed.lookup_cached, ← hflushed.lookup_trie, hw] at hv
      exact (Option.some.inj hv).symm
    · rw [hflushed.getStateByteArray, Finset.mem_singleton]
      split_ifs with hk
      · exact iff_of_true hk (by decide)
      · exact iff_of_false hk (by simp)
    · rw [hflushed.getStateByteArray, if_pos (Finset.mem_singleton.mp hk)]
      decide
    · rw [hflushed.getStateByteArray, if_pos (Finset.mem_singleton.mp hk), Finset.mem_singleton.mp hk]
      decide +kernel
  refine ⟨hbalance, ⟨o, hobj, hbucket⟩, fun known order intn fuel => ?_⟩
  have hcard : (Bucket.others o {5} 5).card + 1 = 1 := hbucket.card_others (Finset.mem_singleton_self 5)
  have hlen : (bePadded 32 5).length = hashLength := by decide
  rw [getOTASet_eq intn hbalance (by decide)]
  refine otaSetLoop_endless intn 7 (fair_otaSetStart intn _ 1 _) Nat.one_pos rfl hobj (fun n => hbucket.among hlen) ?_
    (fun n e he => ?_) (fun n => ?_) fuel 0
  · rw [show bytesToHash (bePadded 32 5) = 5 by decide +kernel]
    omega
  · rw [hflushed.calls] at he
    rcases mem_cons.mp he with rfl | he
    · rfl
    · rw [mem_singleton.mp he]
      rfl
  · rw [hflushed.calls]
    exact Nat.lt_succ_self 1

def twoOTAs : Finmap fun _ : Hash => Bytes := (Finmap.singleton 5 (otaWanAddr 5)).insert 6 (otaWanAddr 6)

theorem lookup_twoOTAs (k : Hash) :
    twoOTAs.lookup k = if k = 6 then some (otaWanAddr 6) else if k = 5 then some (otaWanAddr 5) else none := by
  rw [twoOTAs]
  by_cases hsix : k = 6
  · rw [if_pos hsix, hsix, Finmap.lookup_insert]
  rw [if_neg hsix, Finmap.lookup_insert_of_ne _ hsix]
  by_cases hfive : k = 5
  · rw [if_pos hfive, hfive, Finmap.lookup_singleton_eq]
  · rw [if_neg hfive, Finmap.lookup_eq_none, Finmap.mem_singleton]
    exact hfive

def openedOTAs : StateDB :=
  .new (fun _ => none) fun addr =>
    if addr = otaBalanceStorageAddr then some ⟨0, 0, .singleton 5 [7], 0⟩
    else if addr = otaBalance2ContractAddr 7 then some ⟨0, 0, twoOTAs, 0⟩
    else none

theorem getStateByteArray_twoOTAs (k : Hash) : (newObject ⟨0, 0, twoOTAs, 0⟩).getStateByteArray k =
    if k = 6 then otaWanAddr 6 else if k = 5 then otaWanAddr 5 else [] := by
  show (twoOTAs.lookup k).getD [] = _
  rw [lookup_twoOTAs]
  split_ifs
  · rfl
  · rfl
  · rfl

theorem openedOTAs_bucket : Bucket (newObject ⟨0, 0, twoOTAs, 0⟩) {5, 6} := by
  refine ⟨⟨fun _ => rfl, fun k hk => ?_⟩, fun _ _ _ hv => (by cases hv), fun k => ?_, fun k hk => ?_, fun k hk => ?_⟩
  · replace hk : twoOTAs.lookup k = some [] := hk
    rw [lookup_twoOTAs] at hk
    split_ifs at hk
    · cases hk
    · cases hk
  · rw [getStateByteArray_twoOTAs, Finset.mem_insert, Finset.mem_singleton]
    split_ifs with hsix hfive
    · exact iff_of_true (.inr hsix) (by decide)
    · exact iff_of_true (.inl hfive) (by decide)
    · exact iff_of_false (not_or.mpr ⟨hfive, hsix⟩) (not_not.mpr rfl)
  · rw [getStateByteArray_twoOTAs]
    rcases Finset.mem_insert.mp hk with rfl | hk
    · decide
    · rw [Finset.mem_singleton.mp hk]
      decide
  · rw [getStateByteArray_twoOTAs]
    rcases Finset.mem_insert.mp hk with rfl | hk
    · decide +kernel
    · rw [Finset.mem_singleton.mp hk]
      decide +kernel

theorem openedOTAs_selected : getOtaBalanceFromAX openedOTAs (bePadded 32 5) = .ok 7 ∧
    openedOTAs.state.getStateObject (otaBalance2ContractAddr 7) = some (newObject ⟨0, 0, twoOTAs, 0⟩) ∧
    ∀ order intn, ∃ fuel, getOTASet fuel openedOTAs (fun _ => true) order intn (bePadded 32 5) 1 =
      some (.ok ([otaWanAddr 6], 7)) := by
  have hbalance : getOtaBalanceFromAX openedOTAs (bePadded 32 5) = .ok 7 := by decide +kernel
  have hobj : openedOTAs.state.getStateObject (otaBalance2ContractAddr 7) = some (newObject ⟨0, 0, twoOTAs, 0⟩) := rfl
  refine ⟨hbalance, hobj, fun order intn => ?_⟩
  obtain ⟨fuel, l, heq, hselection⟩ :=
    (getOTASet_iff hbalance (by decide) hobj openedOTAs_bucket (by decide +kernel) le_rfl).mpr
      (fun k hk => (by cases hk)) order intn
  obtain ⟨a, rfl⟩ := length_eq_one_iff.mp hselection.length_eq
  obtain ⟨k, hk, hother, rfl⟩ := hselection.mem a (mem_singleton_self a)
  have hsix : k = 6 := by
    refine Finset.mem_singleton.mp ((Finset.mem_insert.mp hk).resolve_left fun hfive => hother ?_)
    rw [hfive]
    decide +kernel
  refine ⟨fuel, heq.trans ?_⟩
  rw [hsix, getStateByteArray_twoOTAs, if_pos rfl]

end Sample

end GoWanchain.Vm
