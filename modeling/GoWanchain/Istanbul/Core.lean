import GoWanchain.Istanbul.RoundState

/-!
# The consensus core

`core/core.go` and the handlers of the other files of `consensus/istanbul/core`, as one state
machine: `step` handles one event of `handleEvents`. The `Voter` is what decides and votes (state,
view, lock, vote sets); a `Core` adds the queues in which messages and requests wait, which
influence a vote only through the events they post.

A backend answer may change from one call to the next, so every event comes with its own
`Backend`, in which the questions that one event may ask twice are told apart by their call site.
The pop order of the priority queues (a heap on `float32` keys) is a choice of the backend too.
Timers may fire at any moment: `timeout` is always possible, and `futurePreprepare` whenever that
timer is set.
-/

namespace GoWanchain.Istanbul

inductive State
  | acceptRequest
  | preprepared
  | prepared
  | committed
deriving DecidableEq

def State.toNat : State → ℕ
  | .acceptRequest => 0
  | .preprepared => 1
  | .prepared => 2
  | .committed => 3

def State.cmp (s y : State) : Ordering := compare s.toNat y.toNat

theorem State.eq_preprepared {s : State} (h : s ≠ .acceptRequest) (hlt : s.cmp .prepared = .lt) : s = .preprepared := by
  revert h hlt
  cases s <;> decide

theorem State.eq_preprepared_or_prepared {s : State} (h : s ≠ .acceptRequest)
    (hlt : s.cmp .committed = .lt) : s = .preprepared ∨ s = .prepared := by
  revert h hlt
  cases s <;> decide

/-! ### The backend -/

/-- The calls of `IsHashLocked`. -/
inductive LockCall
  | handlePreprepare
  | handlePrepare
  | updateRoundState
  | startNewRound

/-- The calls of `LastProposal`. -/
inductive HeadCall
  | handleTimeoutMsg
  | startNewRound

inductive VerifyResult
  | ok
  | futureBlock
  | invalid

structure Backend where
  lastProposal : HeadCall → Block × Address
  validators : Block → ValidatorSet
  parentValidators : Block → ValidatorSet
  getProposer : ℕ → Address
  hasPropsal : Hash → ℕ → Bool
  verify : Block → VerifyResult
  hasBadProposal : LockCall → Hash → Bool
  commitFails : Block → List Bytes → Bool
  signFails : Bytes → Bool
  popMessage : List (Message × ℤ) → ℕ
  popRequest : List (Block × ℤ) → ℕ

def Backend.sign (P : Primitives) (B : Backend) (self : Address) (data : Bytes) : Option Bytes :=
  if B.signFails data then none else some (P.sign self data)

inductive Effect
  | broadcast (m : Message)
  | gossip (payload : Bytes)
  | commit (proposal : Block) (seals : List Bytes)
  | newRound
deriving DecidableEq

/-- The seal of a COMMIT, copied into 65 fresh bytes. -/
def Message.copiedSeal (m : Message) : Bytes :=
  (m.committedSeal ++ List.replicate istanbulExtraSeal 0).take istanbulExtraSeal

/-! ### The voter -/

structure Voter where
  address : Address
  state : State
  valSet : ValidatorSet
  waitingForRoundChange : Bool
  current : RoundState
  roundChangeSet : RoundChangeSet
  log : List (View × Effect)

namespace Voter

variable (P : Primitives) (B : Backend)

def currentView (v : Voter) : View := v.current.view

def isProposer (v : Voter) : Bool := v.valSet.isProposer v.address

@[simps]
def emit (v : Voter) (e : Effect) : Voter := { v with log := v.log ++ [(v.currentView, e)] }

/-- The proof of consensus that `finalizeMessage` adds: a COMMIT carries a seal over the current
proposal, whatever the COMMIT is about. `none` is a signing error. -/
def proofOfConsensus (v : Voter) (code : UInt64) : Option Bytes :=
  if code = msgCommit then
    match v.current.proposal with
    | some p => B.sign P v.address (prepareCommittedSeal (P.hash p))
    | none => some []
  else some []

/-- `finalizeMessage`; `none` is a signing error. -/
def finalizeMessage (v : Voter) (code : UInt64) (msg : Bytes) : Option Message :=
  match v.proofOfConsensus P B code with
  | none => none
  | some committedSeal =>
    let m : Message := ⟨code, msg, v.address, [], committedSeal⟩
    (B.sign P v.address (m.payloadNoSig P)).map fun signature => { m with signature := signature }

def broadcast (v : Voter) (code : UInt64) (msg : Bytes) : Voter :=
  match v.finalizeMessage P B code msg with
  | some m => v.emit (.broadcast m)
  | none => v

def sendPreprepare (v : Voter) (request : Block) : Voter :=
  if v.current.sequence = request.number ∧ v.isProposer then
    v.broadcast P B msgPreprepare (P.encodePreprepare ⟨v.currentView, request⟩)
  else v

def sendPrepare (v : Voter) : Voter :=
  match v.current.subject P with
  | some sub => v.broadcast P B msgPrepare (P.encodeSubject sub)
  | none => v

def broadcastCommit (v : Voter) (sub : Subject) : Voter :=
  v.broadcast P B msgCommit (P.encodeSubject sub)

def sendCommit (v : Voter) : Voter :=
  match v.current.subject P with
  | some sub => v.broadcastCommit P B sub
  | none => v

def sendCommitForOldBlock (v : Voter) (view : View) (digest : Hash) : Voter :=
  v.broadcastCommit P B ⟨view, digest⟩

/-- `checkMessage`; `none` is no error. -/
def checkMessage (v : Voter) (code : UInt64) (view : View) : Option Err :=
  if code = msgRoundChange then
    if view.sequence > v.currentView.sequence then some .futureMessage
    else if view.cmp v.currentView = .lt then some .oldMessage
    else none
  else if view.cmp v.currentView = .gt then some .futureMessage
  else if view.cmp v.currentView = .lt then some .oldMessage
  else if v.waitingForRoundChange then some .futureMessage
  else if v.state = .acceptRequest then
    if code > msgPreprepare then some .futureMessage else none
  else none

def checkRequestMsg (v : Voter) (request : Block) : Option Err :=
  if v.current.sequence > request.number then some .oldMessage
  else if v.current.sequence < request.number then some .futureMessage
  else none

/-- `verifyPrepare` and `verifyCommit`: the vote must be for the current subject. -/
def verifySubject (v : Voter) (sub : Subject) : Option Err :=
  if v.current.subject P = some sub then none else some .inconsistentSubject

@[simps]
def acceptPreprepare (v : Voter) (preprepare : Preprepare) : Voter :=
  { v with current := v.current.setPreprepare preprepare }

@[simps]
def acceptPrepare (v : Voter) (msg : Message) : Voter :=
  { v with current := { v.current with prepares := (v.current.prepares.add msg).1 } }

@[simps]
def acceptCommit (v : Voter) (msg : Message) : Voter :=
  { v with current := { v.current with commits := (v.current.commits.add msg).1 } }

@[simps]
def lockHash (v : Voter) : Voter := { v with current := v.current.lockHash P }

@[simps]
def unlockHash (v : Voter) : Voter := { v with current := v.current.unlockHash }

@[simps address state valSet waitingForRoundChange roundChangeSet log]
def updateRoundState (v : Voter) (view : View) (roundChange : Bool) : Voter :=
  { v with
    current :=
      if roundChange then
        if v.current.isHashLocked (B.hasBadProposal .updateRoundState) then
          .new view v.valSet v.current.lockedHash v.current.preprepare v.current.pendingRequest
        else .new view v.valSet 0 none v.current.pendingRequest
      else .new view v.valSet 0 none none }

def committedSeals (v : Voter) : List Bytes := v.current.commits.values.map Message.copiedSeal

end Voter

/-! ### The core -/

inductive InternalEvent
  | backlogEvent (src : Validator) (msg : Message)
  | requestEvent (proposal : Block)

structure Core extends Voter where
  backlogs : GoMap Validator (List (Message × ℤ))
  pendingRequests : List (Block × ℤ)
  posted : List InternalEvent
  futurePreprepareTimer : Option (Validator × Message)

namespace Core

variable (P : Primitives) (B : Backend)

def onVoter (f : Voter → Voter) (c : Core) : Core := { c with toVoter := f c.toVoter }

/-! ### Backlogs and pending requests -/

/-- The view of a message, read by the type its code stands for. -/
def viewOf (m : Message) : Option View :=
  if m.code = msgPreprepare then (P.decodePreprepare m.msg).map (·.view)
  else (P.decodeSubject m.msg).map (·.view)

def msgPriority (code : UInt64) : ℕ :=
  if code = msgPreprepare then 1 else if code = msgCommit then 2 else if code = msgPrepare then 3 else 0

/-- `toPriority` before its rounding to `float32`. -/
def toPriority (code : UInt64) (view : View) : ℤ :=
  if code = msgRoundChange then -(uint64 (uint64 view.sequence * 1000) : ℤ)
  else -(uint64 (uint64 view.sequence * 1000 + uint64 view.round * 10 + msgPriority code) : ℤ)

def storeBacklog (c : Core) (msg : Message) (src : Validator) : Core :=
  if src.address = c.address then c
  else
    let backlog := (c.backlogs.lookup src).getD []
    let backlog := match viewOf P msg with
      | some view => backlog ++ [(msg, toPriority msg.code view)]
      | none => backlog
    { c with backlogs := c.backlogs.insert src backlog }

/-- The inner loop of `processBacklog`: what stays in the backlog of `src`, and the events it posts.
The fuel is the length of the queue. -/
def drainBacklog (v : Voter) (src : Validator) : ℕ → List (Message × ℤ) → List (Message × ℤ) × List InternalEvent
  | 0, q => (q, [])
  | n + 1, q =>
    let i := B.popMessage q % q.length
    match q[i]? with
    | none => (q, [])
    | some (msg, prio) =>
      let rest := q.eraseIdx i
      match viewOf P msg with
      | none => drainBacklog v src n rest
      | some view =>
        match v.checkMessage msg.code view with
        | some .futureMessage => (rest ++ [(msg, prio)], [])
        | some _ => drainBacklog v src n rest
        | none =>
          let (q', evs) := drainBacklog v src n rest
          (q', .backlogEvent src msg :: evs)

def processBacklog (c : Core) : Core :=
  { c with
    backlogs := GoMap.mapValues (fun src q => (drainBacklog P B c.toVoter src q.length q).1) c.backlogs
    posted := c.posted ++ c.backlogs.entries.flatMap fun e =>
      (drainBacklog P B c.toVoter e.1 e.2.length e.2).2 }

def storeRequestMsg (c : Core) (request : Block) : Core :=
  { c with pendingRequests := c.pendingRequests ++ [(request, -(int64 request.number))] }

/-- The loop of `processPendingRequests`; the fuel is the length of the queue. -/
def drainRequests (v : Voter) : ℕ → List (Block × ℤ) → List (Block × ℤ) × List InternalEvent
  | 0, q => (q, [])
  | n + 1, q =>
    let i := B.popRequest q % q.length
    match q[i]? with
    | none => (q, [])
    | some (r, prio) =>
      let rest := q.eraseIdx i
      match v.checkRequestMsg r with
      | some .futureMessage => (rest ++ [(r, prio)], [])
      | some _ => drainRequests v n rest
      | none =>
        let (q', evs) := drainRequests v n rest
        (q', .requestEvent r :: evs)

def processPendingRequests (c : Core) : Core :=
  let (q, evs) := drainRequests B c.toVoter c.pendingRequests.length c.pendingRequests
  { c with pendingRequests := q, posted := c.posted ++ evs }

def setState (c : Core) (state : State) : Core :=
  let c := { c with state := state }
  let c := if state = .acceptRequest then c.processPendingRequests B else c
  c.processBacklog P B

/-- `newRoundChangeTimer` stops both timers and starts its own, which may fire at any moment. -/
def newRoundChangeTimer (c : Core) : Core := { c with futurePreprepareTimer := none }

/-! ### Rounds -/

def catchUpRound (c : Core) (view : View) : Core :=
  let c := { c with waitingForRoundChange := true }
  let c := c.onVoter (·.updateRoundState B view true)
  let c := { c with roundChangeSet := c.roundChangeSet.clear view.round }
  c.newRoundChangeTimer

def sendRoundChange (c : Core) (round : ℕ) : Core :=
  if c.currentView.round ≥ round then c
  else
    let c := c.catchUpRound B ⟨round, c.currentView.sequence⟩
    c.onVoter (·.broadcast P B msgRoundChange (P.encodeSubject ⟨c.currentView, 0⟩))

def sendNextRoundChange (c : Core) : Core := c.sendRoundChange P B (c.currentView.round + 1)

/-- What the proposer of a changed round sends: the locked proposal, or else the pending request. -/
def proposeAgain (c : Core) : Core :=
  if c.current.isHashLocked (B.hasBadProposal .startNewRound) then
    match c.current.proposal with
    | some p => c.onVoter (·.sendPreprepare P B p)
    | none => c
  else match c.current.pendingRequest with
    | some r => c.onVoter (·.sendPreprepare P B r)
    | none => c

/-- The second half of `startNewRound`, from the new view on. -/
def enterView (c : Core) (newView : View) (roundChange : Bool) (lastProposer : Address) : Core :=
  let c := { c with roundChangeSet := RoundChangeSet.new c.valSet }
  let c := c.onVoter (·.updateRoundState B newView roundChange)
  let c := { c with valSet := c.valSet.calcProposer lastProposer (uint64 newView.round) }
  let c := { c with waitingForRoundChange := false }
  let c := (c.setState P B .acceptRequest).onVoter (·.emit .newRound)
  let c := if roundChange && c.isProposer then c.proposeAgain P B else c
  c.newRoundChangeTimer

def startNewRound (c : Core) (round : ℕ) : Core :=
  let (lastProposal, lastProposer) := B.lastProposal .startNewRound
  if lastProposal.number ≥ c.current.sequence then
    let c := { c with valSet := B.validators lastProposal }
    c.enterView P B ⟨0, lastProposal.number + 1⟩ false lastProposer
  else if (lastProposal.number : ℤ) = int64 (int64 c.current.sequence - 1) then
    if round = 0 then c
    else if round < c.current.round then c
    else c.enterView P B ⟨round, c.current.sequence⟩ true lastProposer
  else c

/-- `New`; the round state is nil in the source, and `start` does not read it. -/
def new (address : Address) : Core where
  address := address
  state := .acceptRequest
  valSet := ⟨[], .roundRobin, none⟩
  waitingForRoundChange := false
  current := .new ⟨0, 0⟩ ⟨[], .roundRobin, none⟩ 0 none none
  roundChangeSet := .new ⟨[], .roundRobin, none⟩
  log := []
  backlogs := ∅
  pendingRequests := []
  posted := []
  futurePreprepareTimer := none

/-- `Start` of a fresh core: `startNewRound` with no round state yet. -/
def start (address : Address) : Core :=
  let (lastProposal, lastProposer) := B.lastProposal .startNewRound
  let c := { new address with valSet := B.validators lastProposal }
  c.enterView P B ⟨0, lastProposal.number + 1⟩ false lastProposer

def commit (c : Core) : Core :=
  let c := c.setState P B .committed
  match c.current.proposal with
  | none => c
  | some proposal =>
    let seals := c.committedSeals
    let c := c.onVoter (·.emit (.commit proposal seals))
    if B.commitFails proposal seals then
      (c.onVoter (·.unlockHash)).sendNextRoundChange P B
    else c

/-! ### Handlers -/

/-- Whether an old PRE-PREPARE is answered with a COMMIT: its sender was the proposer of its view, and
its block exists. -/
def answersOld (preprepare : Preprepare) (src : Validator) : Bool :=
  let valSet := (B.parentValidators preprepare.proposal).copy P
  let previousProposer := B.getProposer (uint64 (uint64 preprepare.proposal.number + 2 ^ 64 - 1))
  let valSet := valSet.calcProposer previousProposer (uint64 preprepare.view.round)
  valSet.isProposer src.address && B.hasPropsal (P.hash preprepare.proposal) preprepare.proposal.number

def handlePreprepare (c : Core) (msg : Message) (src : Validator) : Core × Option Err :=
  match P.decodePreprepare msg.msg with
  | none => (c, some .failedDecodePreprepare)
  | some preprepare =>
    match c.checkMessage msgPreprepare preprepare.view with
    | some err =>
      if err = .oldMessage then
        if answersOld P B preprepare src then
          (c.onVoter (·.sendCommitForOldBlock P B preprepare.view (P.hash preprepare.proposal)), none)
        else (c, some err)
      else (c, some err)
    | none =>
      if !c.valSet.isProposer src.address then (c, some .notFromProposer)
      else match B.verify preprepare.proposal with
        | .futureBlock => ({ c with futurePreprepareTimer := some (src, msg) }, some .futureBlock)
        | .invalid => (c.sendNextRoundChange P B, some .invalidProposal)
        | .ok =>
          if c.state = .acceptRequest then
            if c.current.isHashLocked (B.hasBadProposal .handlePreprepare) then
              if P.hash preprepare.proposal = c.current.lockedHash then
                let c := c.onVoter (·.acceptPreprepare preprepare)
                let c := c.setState P B .prepared
                (c.onVoter (·.sendCommit P B), none)
              else (c.sendNextRoundChange P B, none)
            else
              let c := c.onVoter (·.acceptPreprepare preprepare)
              let c := c.setState P B .preprepared
              (c.onVoter (·.sendPrepare P B), none)
          else (c, none)

def handlePrepare (c : Core) (msg : Message) : Core × Option Err :=
  match P.decodeSubject msg.msg with
  | none => (c, some .failedDecodePrepare)
  | some prepare =>
    match c.checkMessage msgPrepare prepare.view with
    | some err => (c, some err)
    | none =>
      match c.verifySubject P prepare with
      | some err => (c, some err)
      | none =>
        let c := c.onVoter (·.acceptPrepare msg)
        if ((c.current.isHashLocked (B.hasBadProposal .handlePrepare)
              ∧ prepare.digest = c.current.lockedHash)
            ∨ c.current.getPrepareOrCommitSize > 2 * c.valSet.F)
            ∧ c.state.cmp .prepared = .lt then
          let c := c.onVoter (·.lockHash P)
          let c := c.setState P B .prepared
          (c.onVoter (·.sendCommit P B), none)
        else (c, none)

def handleCommit (c : Core) (msg : Message) : Core × Option Err :=
  match P.decodeSubject msg.msg with
  | none => (c, some .failedDecodeCommit)
  | some commit =>
    match c.checkMessage msgCommit commit.view with
    | some err => (c, some err)
    | none =>
      match c.verifySubject P commit with
      | some err => (c, some err)
      | none =>
        let c := c.onVoter (·.acceptCommit msg)
        if (c.current.commits.size : ℤ) > 2 * c.valSet.F ∧ c.state.cmp .committed = .lt then
          ((c.onVoter (·.lockHash P)).commit P B, none)
        else (c, none)

def handleRoundChange (c : Core) (msg : Message) : Core × Option Err :=
  match P.decodeSubject msg.msg with
  | none => (c, some .invalidMessage)
  | some rc =>
    match c.checkMessage msgRoundChange rc.view with
    | some err => (c, some err)
    | none =>
      let cv := c.currentView
      let (rcs, res) := c.roundChangeSet.add rc.view.round msg
      let c := { c with roundChangeSet := rcs }
      match res with
      | .error err => (c, some err)
      | .ok num =>
        if c.waitingForRoundChange ∧ (num : ℤ) = c.valSet.F + 1 then
          if cv.round < rc.view.round then (c.sendRoundChange P B rc.view.round, none) else (c, none)
        else if (num : ℤ) = 2 * c.valSet.F + 1 ∧ (c.waitingForRoundChange ∨ cv.round < rc.view.round) then
          (c.startNewRound P B rc.view.round, none)
        else if cv.round < rc.view.round then (c, some .ignored)
        else (c, none)

def handleRequest (c : Core) (request : Option Block) : Core × Option Err :=
  match request with
  | none => (c, some .invalidMessage)
  | some proposal =>
    match c.checkRequestMsg proposal with
    | some err => (c, some err)
    | none =>
      let c := { c with current := { c.current with pendingRequest := some proposal } }
      if c.state = .acceptRequest then (c.onVoter (·.sendPreprepare P B proposal), none)
      else (c, none)

/-- Store the message if it is a future message. -/
def testBacklog (msg : Message) (src : Validator) (r : Core × Option Err) : Core × Option Err :=
  if r.2 = some .futureMessage then (r.1.storeBacklog P msg src, r.2) else r

def handleCheckedMsg (c : Core) (msg : Message) (src : Validator) : Core × Option Err :=
  if msg.code = msgPreprepare then testBacklog P msg src (c.handlePreprepare P B msg src)
  else if msg.code = msgPrepare then testBacklog P msg src (c.handlePrepare P B msg)
  else if msg.code = msgCommit then testBacklog P msg src (c.handleCommit P B msg)
  else if msg.code = msgRoundChange then testBacklog P msg src (c.handleRoundChange P B msg)
  else (c, some .invalidMessage)

def checkValidatorSignature (valSet : ValidatorSet) (data sig : Bytes) : Except Err Address :=
  match P.recover data sig with
  | none => .error .recover
  | some signer =>
    match valSet.getByAddress signer with
    | some (_, val) => .ok val.address
    | none => .error .unauthorizedAddress

/-- `message.FromPayload`: the address that the check returns is not read. -/
def fromPayload (valSet : ValidatorSet) (payload : Bytes) : Except Err Message :=
  match P.decodeMessage payload with
  | none => .error .rlp
  | some m =>
    match checkValidatorSignature P valSet (m.payloadNoSig P) m.signature with
    | .error err => .error err
    | .ok _ => .ok m

def handleMsg (c : Core) (payload : Bytes) : Core × Option Err :=
  match fromPayload P c.valSet payload with
  | .error err => (c, some err)
  | .ok msg =>
    match c.valSet.getByAddress msg.address with
    | none => (c, some .unauthorizedAddress)
    | some (_, src) => c.handleCheckedMsg P B msg src

def handleTimeoutMsg (c : Core) : Core :=
  let next :=
    if (B.lastProposal .handleTimeoutMsg).1.number ≥ c.current.sequence then c.startNewRound P B 0
    else c.sendNextRoundChange P B
  if !c.waitingForRoundChange then
    match c.roundChangeSet.maxRound (c.valSet.F + 1) with
    | some maxRound => if maxRound > c.current.round then c.sendRoundChange P B maxRound.toNat else next
    | none => next
  else next

def handleFinalCommitted (c : Core) : Core := c.startNewRound P B 0

def gossipIfOk (payload : Bytes) (r : Core × Option Err) : Core :=
  if r.2 = none then r.1.onVoter (·.emit (.gossip payload)) else r.1

def handleRequestEvent (c : Core) (request : Option Block) : Core :=
  let (c, err) := c.handleRequest P B request
  match request, err with
  | some proposal, some .futureMessage => c.storeRequestMsg proposal
  | _, _ => c

end Core

/-- The events of `handleEvents`. `posted i` delivers the `i`-th event that the core posted to itself
and that is still on its way. -/
inductive Event
  | request (proposal : Option Block)
  | message (payload : Bytes)
  | posted (i : ℕ)
  | futurePreprepare
  | timeout
  | finalCommitted

/-- One turn of `handleEvents`. -/
def step (P : Primitives) (B : Backend) (c : Core) : Event → Core
  | .request proposal => c.handleRequestEvent P B proposal
  | .message payload => Core.gossipIfOk payload (c.handleMsg P B payload)
  | .posted i =>
    let c' := { c with posted := c.posted.eraseIdx i }
    match c.posted[i]? with
    | none => c
    | some (.backlogEvent src msg) =>
      Core.gossipIfOk (P.encodeMessage msg) (c'.handleCheckedMsg P B msg src)
    | some (.requestEvent proposal) => c'.handleRequestEvent P B (some proposal)
  | .futurePreprepare =>
    match c.futurePreprepareTimer with
    | none => c
    | some (src, msg) =>
      { c with futurePreprepareTimer := none, posted := c.posted ++ [.backlogEvent src msg] }
  | .timeout => c.handleTimeoutMsg P B
  | .finalCommitted => c.handleFinalCommitted P B

end GoWanchain.Istanbul
