import GoWanchain.State.ManagedState
import GoWanchain.Core.TxList
import GoWanchain.Core.BlockChain

/-!
# The transaction pool

`core/tx_pool.go`. Every account has a list of pending transactions, which can be executed one after the
other, and a queue of those that cannot yet; `all` has them all by hash.

The heap of prices is not modelled: what it gives up is an input, any list of transactions, and so is the
order in which a map is iterated over. The journal on the disk, the events and the metrics are left out. The
sums of limits do not overflow here, and the lengths by which accounts are compared are not rounded
(`float32` has 24 bits).
-/

namespace GoWanchain.Core

open State Vm Types

structure TxPoolConfig where
  priceBump : ℕ
  accountSlots : ℕ
  globalSlots : ℕ
  accountQueue : ℕ
  globalQueue : ℕ
  lifetime : ℕ

structure TxPool where
  config : TxPoolConfig
  signer : Signer
  gasPrice : ℤ
  currentState : StateDB
  pendingState : ManagedState
  currentMaxGas : ℤ
  locals : List Address
  pending : GoMap Address TxList
  queue : GoMap Address TxList
  beats : GoMap Address ℕ
  all : GoMap Hash Transaction
  homestead : Bool

/-- An order in which a map with the given keys is iterated over. -/
def Order := { order : List Address → List Address // ∀ l, (order l).Perm l }

/-- What the heap of prices answers. -/
structure Priced where
  /-- `Underpriced`. -/
  underpriced : TxPool → Transaction → Bool
  /-- `Discard`, to make room for the transaction. -/
  discard : TxPool → Transaction → List Transaction
  /-- `Cap`. -/
  cap : TxPool → List Transaction

/-- The inputs of a call: the time, the heap of prices and the orders of the loops. -/
structure Env where
  now : ℕ
  priced : Priced
  dirty : Order
  promoted : Order
  demoted : Order
  spammers : Order
  stale : Order
  evicted : Order

namespace TxPool

/-- `types.Sender`, of which the error is ignored. -/
def sender (pool : TxPool) (tx : Transaction) : Address := (pool.signer tx).getD 0

def stateNonce (pool : TxPool) (addr : Address) : ℕ := (pool.currentState.getNonce addr).toNat

def pendingNonce (pool : TxPool) (addr : Address) : ℕ := (pool.pendingState.getNonce addr).toNat

def lenOf (m : GoMap Address TxList) (addr : Address) : ℕ := ((m.lookup addr).map TxList.len).getD 0

def count (m : GoMap Address TxList) : ℕ := (m.keys.map (lenOf m)).sum

variable [Keccak]

def forget (pool : TxPool) (txs : List Transaction) : TxPool :=
  { pool with all := txs.foldl (fun all tx => all.erase tx.hash) pool.all }

/-- The pending nonce of an account is no more than that of a transaction that was dropped. -/
def lowerNonce (pool : TxPool) (addr : Address) (tx : Transaction) : TxPool :=
  if tx.nonce < pool.pendingNonce addr then
    { pool with pendingState := pool.pendingState.setNonce addr tx.accountNonce }
  else pool

/-- `enqueueTx`: whether a transaction was replaced. -/
def enqueueTx (pool : TxPool) (tx : Transaction) : Except PoolError Bool × TxPool :=
  let addr := pool.sender tx
  match ((pool.queue.lookup addr).getD (.newTxList false)).add tx pool.config.priceBump with
  | none => (.error .errReplaceUnderpriced, pool)
  | some (old, list) =>
    let pool := { pool with queue := pool.queue.insert addr list }.forget old.toList
    (.ok old.isSome, { pool with all := pool.all.insert tx.hash tx })

def enqueueAll (pool : TxPool) (txs : List Transaction) : TxPool := txs.foldl (fun pool tx => (pool.enqueueTx tx).2) pool

/-- The end of `removeTx`, for a transaction that is not pending. -/
def removeQueued (pool : TxPool) (addr : Address) (tx : Transaction) : TxPool :=
  match pool.queue.lookup addr with
  | none => pool
  | some future =>
    let future := (future.remove tx).2.2
    { pool with queue := if future.empty then pool.queue.erase addr else pool.queue.insert addr future }

/-- The part of `removeTx` for a transaction that was taken from the pending list. If nothing is left of the list, what
was invalidated is not put back into the queue. -/
def removePending (pool : TxPool) (addr : Address) (tx : Transaction) (invalids : List Transaction) (pending : TxList) :
    TxPool :=
  let pool :=
    if pending.empty then
      { pool with pending := pool.pending.erase addr, beats := pool.beats.erase addr }
    else { pool with pending := pool.pending.insert addr pending }.enqueueAll invalids
  pool.lowerNonce addr tx

def removeTx (pool : TxPool) (hash : Hash) : TxPool :=
  match pool.all.lookup hash with
  | none => pool
  | some tx =>
    let addr := pool.sender tx
    let pool := { pool with all := pool.all.erase hash }
    match (pool.pending.lookup addr).map (·.remove tx) with
    | some (true, invalids, pending) => pool.removePending addr tx invalids pending
    | _ => pool.removeQueued addr tx

def removeAll (pool : TxPool) (txs : List Transaction) : TxPool := txs.foldl (fun pool tx => pool.removeTx tx.hash) pool

def promoteTx (now : ℕ) (pool : TxPool) (addr : Address) (tx : Transaction) : TxPool :=
  match ((pool.pending.lookup addr).getD (.newTxList true)).add tx pool.config.priceBump with
  | none => pool.forget [tx]
  | some (old, list) =>
    let pool := { pool with pending := pool.pending.insert addr list }.forget old.toList
    { pool with
      all := if (pool.all.lookup tx.hash).isNone then pool.all.insert tx.hash tx else pool.all
      beats := pool.beats.insert addr now
      pendingState := pool.pendingState.setNonce addr (tx.accountNonce + 1) }

/-! ### Limits -/

/-- The last transaction of a pending list is dropped. -/
def shrink (pool : TxPool) (addr : Address) : TxPool :=
  match pool.pending.lookup addr with
  | none => pool
  | some list =>
    let (drops, list) := list.cap (list.len - 1)
    drops.foldl (fun pool tx => (pool.forget [tx]).lowerNonce addr tx)
      { pool with pending := pool.pending.insert addr list }

/-- The offenders lose transactions in turn, until there are no more than allowed or the list of the last of them is
down to the threshold. -/
def equalize (offenders : List Address) (last : Address) (threshold : ℕ) : ℕ → TxPool → ℕ → TxPool × ℕ
  | 0, pool, pending => (pool, pending)
  | fuel + 1, pool, pending =>
    if pending > pool.config.globalSlots ∧ lenOf pool.pending last > threshold then
      equalize offenders last threshold fuel (offenders.foldl shrink pool) (pending - offenders.length)
    else (pool, pending)

/-- The spammers, the longest list first, become offenders, and those before are equalized to the next. -/
def penalize (pool : TxPool) (pending : ℕ) (offenders : List Address) : List Address → TxPool × ℕ × List Address
  | [] => (pool, pending, offenders)
  | offender :: spammers =>
    if pending > pool.config.globalSlots then
      let (pool, pending) := match offenders.getLast? with
        | none => (pool, pending)
        | some last => equalize offenders last (lenOf pool.pending offender) (pending + 1) pool pending
      penalize pool pending (offenders ++ [offender]) spammers
    else (pool, pending, offenders)

/-- The part of `promoteExecutables` that keeps the limit of pending transactions. -/
def truncatePending (env : Env) (pool : TxPool) : TxPool :=
  let pending := count pool.pending
  if pending > pool.config.globalSlots then
    let spammers := (env.spammers.1 pool.pending.keys).filter fun addr =>
      addr ∉ pool.locals ∧ lenOf pool.pending addr > pool.config.accountSlots
    let spammers := spammers.mergeSort fun a b => lenOf pool.pending b ≤ lenOf pool.pending a
    let (pool, pending, offenders) := penalize pool pending [] spammers
    match offenders.getLast? with
    | none => pool
    | some last => (equalize offenders last pool.config.accountSlots (pending + 1) pool pending).1
  else pool

/-- Transactions of the queues of the accounts are dropped, the highest nonces of a queue first, until `drop` are. -/
def dropQueued (pool : TxPool) : ℕ → List Address → TxPool
  | _, [] => pool
  | drop, addr :: addresses =>
    if drop > 0 then
      let txs := ((pool.queue.lookup addr).map TxList.flatten).getD []
      if txs.length ≤ drop then dropQueued (pool.removeAll txs) (drop - txs.length) addresses
      else pool.removeAll (txs.reverse.take drop)
    else pool

/-- The part of `promoteExecutables` that keeps the limit of queued transactions: accounts with the latest heartbeat
are the first to lose theirs. -/
def truncateQueue (env : Env) (pool : TxPool) : TxPool :=
  let queued := count pool.queue
  if queued > pool.config.globalQueue then
    let addresses := (env.stale.1 pool.queue.keys).filter (· ∉ pool.locals)
    let addresses := addresses.mergeSort fun a b =>
      (pool.beats.lookup a).getD 0 ≤ (pool.beats.lookup b).getD 0
    pool.dropQueued (queued - pool.config.globalQueue) addresses.reverse
  else pool

variable [Crypto]

/-! ### Promotion and demotion -/

def promoteAccount (now : ℕ) (pool : TxPool) (addr : Address) : TxPool :=
  match pool.queue.lookup addr with
  | none => pool
  | some list =>
    let (old, list) := list.forward (pool.stateNonce addr)
    let (drops, _, list) := list.filter (pool.currentState.getBalance addr) pool.currentMaxGas
    let (invalidPrivacy, list) := list.invalidPrivacyTx pool.currentState pool.signer pool.currentMaxGas
    let pool := ((pool.forget old).forget (drops.filter (isNormalTransaction ·.txtype))).forget invalidPrivacy
    let (ready, list) := list.ready (pool.pendingNonce addr)
    let pool := ready.foldl (fun pool tx => pool.promoteTx now addr tx) pool
    let (capped, list) := if addr ∈ pool.locals then ([], list) else list.cap pool.config.accountQueue
    let pool := pool.forget capped
    { pool with queue := if list.empty then pool.queue.erase addr else pool.queue.insert addr list }

def promoteExecutables (env : Env) (accounts : List Address) (pool : TxPool) : TxPool :=
  truncateQueue env (truncatePending env (accounts.foldl (promoteAccount env.now) pool))

def demoteAccount (pool : TxPool) (addr : Address) : TxPool :=
  match pool.pending.lookup addr with
  | none => pool
  | some list =>
    let nonce := pool.stateNonce addr
    let (old, list) := list.forward nonce
    let (drops, invalids, list) := list.filter (pool.currentState.getBalance addr) pool.currentMaxGas
    let (invalidPrivacy, list) := list.invalidPrivacyTx pool.currentState pool.signer pool.currentMaxGas
    let pool := ((pool.forget old).forget (drops.filter (isNormalTransaction ·.txtype))).enqueueAll invalids
    let pool := pool.forget invalidPrivacy
    -- a gap in front
    let (gapped, list) := if list.len > 0 ∧ (list.txs.get nonce).isNone then list.cap 0 else ([], list)
    let pool := pool.enqueueAll gapped
    if list.empty then { pool with pending := pool.pending.erase addr, beats := pool.beats.erase addr }
    else { pool with pending := pool.pending.insert addr list }

def demoteUnexecutables (env : Env) (pool : TxPool) : TxPool :=
  (env.demoted.1 pool.pending.keys).foldl demoteAccount pool

/-! ### Adding -/

/-- `validateTx`. The amounts of a transaction are not negative here. -/
def validateTx (pool : TxPool) (tx : Transaction) (loc : Bool) : Except PoolError Unit := do
  ensure (isValidTransactionType tx.txtype = true) .errInvalidTxType
  ensure (tx.size ≤ 32 * 1024) .errOversizedData
  ensure ((tx.gasLimit : ℤ) ≤ pool.currentMaxGas) .errGasLimit
  let sender ← need (pool.signer tx) .errInvalidSender
  ensure (loc = true ∨ sender ∈ pool.locals ∨ pool.gasPrice ≤ (tx.price : ℤ)) .errUnderpriced
  ensure (pool.stateNonce sender ≤ tx.nonce) .errNonceTooLow
  ensure (isNormalTransaction tx.txtype = true → (tx.cost : ℤ) ≤ pool.currentState.getBalance sender)
    .errInsufficientFunds
  let intrGas := intrinsicGas tx.payload tx.recipient.isNone pool.homestead
  if isNormalTransaction tx.txtype then ensure (intrGas ≤ tx.gasLimit) .errIntrinsicGas
  else validPrivacyTx pool.currentState (addressBytes sender) tx.payload tx.price intrGas tx.amount pool.currentMaxGas
  match tx.recipient.bind precompiledContracts with
  | none => .ok ()
  | some p => validTx pool.currentState pool.signer tx p

/-- The end of `add`: into the pending list in place of a transaction of the same nonce, or into the queue. -/
def insert (pool : TxPool) (tx : Transaction) (loc : Bool) : Except PoolError Bool × TxPool :=
  let addr := pool.sender tx
  match (pool.pending.lookup addr).filter (·.overlaps tx) with
  | some list =>
    match list.add tx pool.config.priceBump with
    | none => (.error .errReplaceUnderpriced, pool)
    | some (old, list) =>
      let pool := { pool with pending := pool.pending.insert addr list }.forget old.toList
      (.ok old.isSome, { pool with all := pool.all.insert tx.hash tx })
  | none =>
    match pool.enqueueTx tx with
    | (.error err, pool) => (.error err, pool)
    | (.ok replace, pool) => (.ok replace, { pool with locals := if loc then addr :: pool.locals else pool.locals })

/-- `add`: whether a transaction was replaced. -/
def add (env : Env) (pool : TxPool) (tx : Transaction) (loc : Bool) : Except PoolError Bool × TxPool :=
  if (pool.all.lookup tx.hash).isSome then (.error .knownTransaction, pool)
  else
    match pool.validateTx tx loc with
    | .error err => (.error err, pool)
    | .ok () =>
      if GoMap.size pool.all < pool.config.globalSlots + pool.config.globalQueue then pool.insert tx loc
      else if env.priced.underpriced pool tx then (.error .errUnderpriced, pool)
      else (pool.removeAll (env.priced.discard pool tx)).insert tx loc

def addTx (env : Env) (pool : TxPool) (tx : Transaction) (loc : Bool) : TxPool :=
  match pool.add env tx loc with
  | (.error _, pool) => pool
  | (.ok replace, pool) => if replace then pool else pool.promoteExecutables env [pool.sender tx]

/-- The loop of `addTxsLocked`, with the accounts that got a new transaction. -/
def addAll (env : Env) (loc : Bool) (pool : TxPool) : List Transaction → TxPool × List Address
  | [] => (pool, [])
  | tx :: txs =>
    let (result, pool) := pool.add env tx loc
    let (pool, dirty) := addAll env loc pool txs
    (pool, if result = .ok false then pool.sender tx :: dirty else dirty)

def addTxsLocked (env : Env) (txs : List Transaction) (loc : Bool) (pool : TxPool) : TxPool :=
  let (pool, dirty) := pool.addAll env loc txs
  if dirty.isEmpty then pool else pool.promoteExecutables env (env.dirty.1 dirty.dedup)

/-! ### Reset -/

end TxPool

/-- What the pool reads of the chain; a state is given by its trie. -/
structure PoolChain where
  getBlock : Hash → ℕ → Option Block
  db : Hash → Option Bytes
  stateAt : Hash → Option (Address → Option Account)

/-- `unrooted` is a block without its parent, where `reset` returns; `fuel` is a loop that did not end. -/
inductive ResetErr
  | unrooted
  | noState
  | panic
  | fuel
deriving DecidableEq

namespace PoolChain

/-- Walk down to the first block that meets `stop`: the transactions of those left behind, and the block. -/
def descend (chain : PoolChain) (stop : Block → Bool) : ℕ → Block → Except ResetErr (List Transaction × Block)
  | 0, _ => .error .fuel
  | fuel + 1, block =>
    if stop block then .ok ([], block)
    else do
      let parent ← need (chain.getBlock block.parentHash (before block.number)) .unrooted
      let (txs, last) ← chain.descend stop fuel parent
      return (block.transactions ++ txs, last)

variable [Keccak]

/-- Walk down both branches to the common block: the transactions discarded and those included. -/
def descendBoth (chain : PoolChain) : ℕ → Block → Block → Except ResetErr (List Transaction × List Transaction)
  | 0, _, _ => .error .fuel
  | fuel + 1, rem, add =>
    if rem.hash = add.hash then .ok ([], [])
    else do
      let rem' ← need (chain.getBlock rem.parentHash (before rem.number)) .unrooted
      let add' ← need (chain.getBlock add.parentHash (before add.number)) .unrooted
      let (discarded, included) ← chain.descendBoth fuel rem' add'
      return (rem.transactions ++ discarded, add.transactions ++ included)

/-- The transactions that a reorganisation took off the chain. -/
def reinject (chain : PoolChain) (oldHead : Option Header) (newHead : Header) : Except ResetErr (List Transaction) :=
  match oldHead with
  | none => .ok []
  | some oldHead => do
    let oldNum := uint64 oldHead.number
    let newNum := uint64 newHead.number
    if oldHead.hash = newHead.parentHash ∨ max oldNum newNum - min oldNum newNum > 64 then return []
    let rem ← need (chain.getBlock oldHead.hash oldNum) .panic
    let add ← need (chain.getBlock newHead.hash newNum) .panic
    let (discarded, rem) ← chain.descend (·.number ≤ add.number) (rem.number + 1) rem
    let (included, add) ← chain.descend (·.number ≤ rem.number) (add.number + 1) add
    let (discarded', included') ← chain.descendBoth (rem.number + 1) rem add
    let included := included ++ included'
    return (discarded ++ discarded').filter fun tx => tx.hash ∉ included.map Transaction.hash

end PoolChain

namespace TxPool

variable [Keccak] [Crypto]

/-- The state of the new head; the pending nonces are those of the state. -/
def setState (pool : TxPool) (currentState : StateDB) (currentMaxGas : ℤ) : TxPool :=
  { pool with currentState, pendingState := .manageState currentState, currentMaxGas }

omit [Crypto] in
/-- The pending nonce of an account is that behind its last pending transaction. -/
def raiseNonce (pool : TxPool) (addr : Address) : TxPool :=
  match (pool.pending.lookup addr).bind (·.flatten.getLast?) with
  | none => pool
  | some tx => { pool with pendingState := pool.pendingState.setNonce addr (tx.accountNonce + 1) }

/-- The part of `reset` behind the search for transactions to reinject. -/
def install (env : Env) (currentState : StateDB) (currentMaxGas : ℤ) (reinject : List Transaction) (pool : TxPool) :
    TxPool :=
  let pool := (pool.setState currentState currentMaxGas).addTxsLocked env reinject false
  let pool := pool.demoteUnexecutables env
  let pool := pool.pending.keys.foldl raiseNonce pool
  pool.promoteExecutables env (env.promoted.1 pool.queue.keys)

/-- `reset`; where it returns early or does not return, the pool is as it was. -/
def reset (env : Env) (chain : PoolChain) (oldHead : Option Header) (newHead : Header) (pool : TxPool) :
    Except ResetErr TxPool := do
  let reinject ← chain.reinject oldHead newHead
  let trie ← need (chain.stateAt newHead.root) .noState
  return pool.install env (.new chain.db trie) newHead.gasLimit reinject

/-! ### Calls -/

section

omit [Crypto]

def setGasPrice (env : Env) (price : ℤ) (pool : TxPool) : TxPool :=
  let pool := { pool with gasPrice := price }
  pool.removeAll (env.priced.cap pool)

/-- The queue of an account is evicted if the account is not local and its last heartbeat is too old. -/
def evictAccount (now : ℕ) (pool : TxPool) (addr : Address) : TxPool :=
  if addr ∉ pool.locals ∧ now - (pool.beats.lookup addr).getD 0 > pool.config.lifetime then
    pool.removeAll (((pool.queue.lookup addr).map TxList.flatten).getD [])
  else pool

def evict (env : Env) (pool : TxPool) : TxPool := (env.evicted.1 pool.queue.keys).foldl (evictAccount env.now) pool

end

inductive Op
  | addTx (tx : Transaction) (loc : Bool)
  | addTxs (txs : List Transaction) (loc : Bool)
  | reset (chain : PoolChain) (oldHead : Option Header) (newHead : Header)
  /-- A `ChainHeadEvent`, after which the pool knows that the chain is a homestead. -/
  | chainHead (chain : PoolChain) (oldHead newHead : Header)
  | setGasPrice (price : ℤ)
  | evict

def step (pool : TxPool) (call : Env × Op) : TxPool :=
  let env := call.1
  match call.2 with
  | .addTx tx loc => pool.addTx env tx loc
  | .addTxs txs loc => pool.addTxsLocked env txs loc
  | .reset chain oldHead newHead => (pool.reset env chain oldHead newHead).toOption.getD pool
  | .chainHead chain oldHead newHead =>
    let pool := { pool with homestead := true }
    (pool.reset env chain (some oldHead) newHead).toOption.getD pool
  | .setGasPrice price => pool.setGasPrice env price
  | .evict => pool.evict env

def new (config : TxPoolConfig) (signer : Signer) (gasPrice : ℤ) (db : Hash → Option Bytes)
    (trie : Address → Option Account) (currentMaxGas : ℤ) : TxPool where
  config := config
  signer := signer
  gasPrice := gasPrice
  currentState := .new db trie
  pendingState := .manageState (.new db trie)
  currentMaxGas := currentMaxGas
  locals := []
  pending := ∅
  queue := ∅
  beats := ∅
  all := ∅
  homestead := false

/-! ### An example -/

namespace Sample

/-- Maps are iterated over in their order, and the heap of prices gives up what is below the price of the pool. -/
def env : Env where
  now := 0
  priced.underpriced _ _ := false
  priced.discard _ _ := []
  priced.cap pool := (GoMap.values pool.all).filter fun tx => tx.price < pool.gasPrice
  dirty := ⟨id, .refl⟩
  promoted := ⟨id, .refl⟩
  demoted := ⟨id, .refl⟩
  spammers := ⟨id, .refl⟩
  stale := ⟨id, .refl⟩
  evicted := ⟨id, .refl⟩

def transfer (nonce : UInt64) (price : ℕ) : Transaction where
  txtype := normalTx
  accountNonce := nonce
  price := price
  gasLimit := 21000
  recipient := some 7
  amount := 1
  payload := []
  v := 27
  r := 1
  s := 1

def rich (nonce : UInt64) (a : Address) : Option Account := if a = 1 then some ⟨nonce, 10 ^ 9, ∅, 0⟩ else none

def start (nonce : UInt64) : TxPool := .new ⟨10, 4, 4, 4, 4, 100⟩ (fun _ => some 1) 1 (fun _ => none) (rich nonce) 100000

end Sample

end TxPool

end GoWanchain.Core
