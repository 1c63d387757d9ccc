/-
# The tasks of an IBFT run

`ibft.rs`: the round task (`run_ibft_round_0` / `run_ibft_round_1` with the states
proposal, prepare and commit) and the two monitors of future rounds.

An async function is cut at its await points.  A constructor of a task type is an
await point together with the local variables that live across it; one step runs
the code from there to the next await point.  A task that waits for a lock or for a
broadcast can always step, a task that waits for a notification can step when one
is there.  An `expect` that fails ends the task in `panicked` with its message.
-/
import Tonic.MessageHandler

namespace Tonic

inductive RunState where
  | proposal
  | prepare
  | commit
  deriving DecidableEq

/-- What a run does that others can see, in the order it happens. -/
inductive Action where
  /-- The loop of `run` starts a round. -/
  | entered (view : View)
  | broadcast (message : IBFTMessage)
  /-- `verify_block` returned `Ok` for the raw block. -/
  | verifiedBlock (height : UInt64) (rawBlock : RawBlock)
  /-- `run` returns the block. -/
  | finalized (height : UInt64) (block : FinalizedBlock)
  deriving DecidableEq

variable (cfg : Config)

/-- What one step of a task leaves behind: where the task waits next, the store, the shared run
state, and what the step did. -/
structure TaskStep (Task : Type) where
  task : Task
  messages : ConsensusMessages
  runState : RunState
  actions : List Action

/-! ## The round task -/

inductive RoundTask where
  /-- Spawned, not yet polled. -/
  | start
  /-- `wait_rcc`: waiting for the lock of the round changes, or for a notification. -/
  | takeRoundChanges (rx : Receiver)
  | recvRoundChange (rx : Receiver) (rcCount : ℕ)
  /-- The proposer branch: broadcasting the proposal, then adding it to the store. -/
  | broadcastProposal (proposal : ProposalMessageSigned)
  | addProposal (proposal : ProposalMessageSigned)
  /-- The other branch: querying the proposal, waiting for one, querying again. -/
  | getProposal (rx : Receiver)
  | recvProposal (rx : Receiver)
  | getProposalAgain
  | broadcastPrepare (prepare : PrepareMessageSigned)
  | addPrepare (prepare : PrepareMessageSigned)
  /-- `run_prepare`: counting the stored prepares, or waiting for a notification. -/
  | countPrepares (digest : Digest) (rx : Receiver)
  | recvPrepare (digest : Digest) (rx : Receiver) (prepareCount : ℕ)
  | broadcastCommit (commit : CommitMessageSigned)
  | addCommit (commit : CommitMessageSigned)
  /-- `run_commit`: taking the stored seals, or waiting for a notification. -/
  | takeSeals (digest : Digest) (rx : Receiver)
  | recvCommit (digest : Digest) (rx : Receiver) (commitCount : ℕ)
  /-- The seals were sent to `run`. -/
  | finished (commitSeals : CommitSeals)
  | failed (err : IBFTError)
  | panicked (why : String)
  deriving DecidableEq

/-- `Vec::swap_remove`: the element at a position, and the rest with the last element moved
there. -/
def swapRemove {α : Type} (xs : List α) (pos : ℕ) : List α :=
  match xs.getLast? with
  | none => xs
  | some last => (xs.set pos last).dropLast

/-- The end of `wait_rcc`: the certificate, and the block of the first round change in the list
that has a prepared one.  The error is the panic message of the `let .. else`. -/
def composeRoundChangeCertificate (roundChanges : List RoundChangeMessageSigned) :
    Except String (RoundChangeCertificate × Option RawBlock) :=
  let preparedProposedPos :=
    roundChanges.findIdx? (fun roundChange => roundChange.latestPreparedProposed.isSome)
  match preparedProposedPos with
  | some pos =>
    match roundChanges[pos]?.map RoundChangeMessageSigned.intoMetadata with
    | some (some proposedBlock, metadata) =>
      let metadataList := (swapRemove roundChanges pos).map (fun rc => rc.intoMetadata.2)
      .ok ({ roundChangeMessages := metadataList ++ [metadata] }, some proposedBlock.rawBlock)
    | _ => .error "Impossible to not have block while having prepared proposed"
  | none =>
    .ok ({ roundChangeMessages := roundChanges.map (fun rc => rc.intoMetadata.2) }, none)

namespace RoundTask

variable (env : Env) (view : View) (runState : RunState) (msgs : ConsensusMessages)

/-- Sign the proposal of a block and broadcast it; hashing a block of `2 ^ 32` bytes or more
panics in the codec. -/
def propose (rawBlock : RawBlock) (rcc : Option RoundChangeCertificate) : RoundTask :=
  if 2 ^ 32 ≤ rawBlock.length then .panicked "Consensus serialization can not fail"
  else
    .broadcastProposal
      ((ProposalMessage.new cfg.crypto view rawBlock rcc).intoSigned cfg.crypto cfg.key)

/-- Build a block and propose it. -/
def buildAndPropose (rcc : Option RoundChangeCertificate) : RoundTask :=
  match env.buildBlock view.height with
  | .error err => .failed (.blockBuild err)
  | .ok rawBlock => propose cfg view rawBlock rcc

/-- First poll: up to the first await of `run_proposal_0` or `run_proposal_1`. -/
def pollStart : RoundTask :=
  if cfg.validatorManager.isProposer cfg.address view then
    if view.round = 0 then buildAndPropose cfg env view none
    else .takeRoundChanges msgs.roundChangeTx.subscribe
  else .getProposal msgs.proposalTx.subscribe

/-- `wait_rcc` once its loop has ended, and the proposal built from its result. -/
def proposeFromRoundChanges : Option (List RoundChangeMessageSigned) → RoundTask
  | none => .panicked "Must have value when reached quorum"
  | some roundChanges =>
    match composeRoundChangeCertificate roundChanges with
    | .error why => .panicked why
    | .ok (rcc, some rawBlock) => propose cfg view rawBlock (some rcc)
    | .ok (rcc, none) => buildAndPropose cfg env view (some rcc)

/-- Act on the digest that a query of the proposal returned. -/
def prepareDigest (missing : RoundTask) : Option (Except IBFTError Digest) → RoundTask
  | none => missing
  | some (.error err) => .failed err
  | some (.ok digest) =>
    .broadcastPrepare ((PrepareMessage.new view digest).intoSigned cfg.crypto cfg.key)

/-- The loop of `run_prepare` after a count: wait on, or go on to the commit. -/
def prepareCounted (digest : Digest) (rx : Receiver) (prepareCount : ℕ) : RoundTask :=
  if prepareCount < cfg.validatorManager.quorum view.height - 1 then
    .recvPrepare digest rx prepareCount
  else
    .broadcastCommit
      ((CommitMessage.new cfg.crypto cfg.key view digest).intoSigned cfg.crypto cfg.key)

/-- The loop of `run_commit` after a count: wait on, or return the seals. -/
def sealsTaken (digest : Digest) (rx : Receiver) : Option CommitSeals × ℕ → RoundTask
  | (commitSeals, commitCount) =>
    if commitCount < cfg.validatorManager.quorum view.height then .recvCommit digest rx commitCount
    else
      match commitSeals with
      | none => .panicked "Must have value when reached quorum"
      | some commitSeals => .finished commitSeals

/-- `verify_block` calls that return `Ok` while the store is queried for the proposal. -/
def blockChecks (proposalView : View) : List Action :=
  match msgs.unverifiedProposal proposalView with
  | none => []
  | some proposal =>
    if callsVerifyBlock cfg proposalView proposal = true ∧
        env.verifyBlock proposal.proposedBlock.rawBlock = .ok () then
      [.verifiedBlock proposalView.height proposal.proposedBlock.rawBlock]
    else []

/-- The step of a task that changes nothing but where it waits. -/
def goto (task : RoundTask) : TaskStep RoundTask :=
  { task, messages := msgs, runState, actions := [] }

/-- One step of the round task.  `none`: the task waits for a notification that is not there, or
has ended. -/
def step : RoundTask → Option (TaskStep RoundTask)
  | .start => some (goto runState msgs (pollStart cfg env view msgs))
  | .takeRoundChanges rx =>
    let ((roundChanges, rcCount), messages) :=
      msgs.takeValidRoundChangeMessages env view (roundChangeVerifyFn cfg view.height)
        (cfg.validatorManager.quorum view.height)
    some (goto runState messages
      (if rcCount < cfg.validatorManager.quorum view.height then .recvRoundChange rx rcCount
       else proposeFromRoundChanges cfg env view roundChanges))
  | .recvRoundChange rx rcCount =>
    match msgs.roundChangeTx.recv rx with
    | .pending => none
    | .lagged =>
      some (goto runState msgs (.panicked "Round change subscriber channel should not close"))
    | .notified newRcView =>
      some (goto runState msgs
        (if newRcView = view then
          if rcCount + 1 = cfg.validatorManager.quorum view.height then .takeRoundChanges (rx + 1)
          else .recvRoundChange (rx + 1) (rcCount + 1)
         else .recvRoundChange (rx + 1) rcCount))
  | .broadcastProposal proposal =>
    some { task := .addProposal proposal, messages := msgs, runState,
           actions := [.broadcast (.proposal proposal)] }
  | .addProposal proposal =>
    let messages := msgs.addProposalMessage proposal cfg.address
    some (goto .prepare messages
      (.countPrepares proposal.proposedBlockDigest messages.prepareTx.subscribe))
  | .getProposal rx =>
    let (digest, messages) := msgs.getValidProposalDigest view (proposalVerifyFn cfg env view)
    some { task := prepareDigest cfg view (.recvProposal rx) digest, messages, runState,
           actions := blockChecks cfg env msgs view }
  | .recvProposal rx =>
    match msgs.proposalTx.recv rx with
    | .pending => none
    | .lagged =>
      some (goto runState msgs (.panicked "Proposal subscriber channel should not close"))
    | .notified proposalView =>
      some (goto runState msgs
        (if proposalView = view then .getProposalAgain else .recvProposal (rx + 1)))
  | .getProposalAgain =>
    let (digest, messages) := msgs.getValidProposalDigest view (proposalVerifyFn cfg env view)
    some { task := prepareDigest cfg view
             (.panicked "At this state, nothing else should be pruning or taking the proposal")
             digest,
           messages, runState, actions := blockChecks cfg env msgs view }
  | .broadcastPrepare prepare =>
    some { task := .addPrepare prepare, messages := msgs, runState,
           actions := [.broadcast (.prepare prepare)] }
  | .addPrepare prepare =>
    let messages := msgs.addPrepareMessage prepare cfg.address
    some (goto .prepare messages
      (.countPrepares prepare.proposedBlockDigest messages.prepareTx.subscribe))
  | .countPrepares digest rx =>
    let (prepareCount, messages) := msgs.getValidPrepareCount view
      (fun prepare => prepare.proposedBlockDigest = digest)
    some (goto runState messages (prepareCounted cfg view digest rx prepareCount))
  | .recvPrepare digest rx prepareCount =>
    match msgs.prepareTx.recv rx with
    | .pending => none
    | .lagged =>
      some (goto runState msgs (.panicked "Prepare subscriber channel should not close"))
    | .notified newPrepareView =>
      some (goto runState msgs
        (if newPrepareView = view then
          if prepareCount + 1 = cfg.validatorManager.quorum view.height - 1 then
            .countPrepares digest (rx + 1)
          else .recvPrepare digest (rx + 1) (prepareCount + 1)
         else .recvPrepare digest (rx + 1) prepareCount))
  | .broadcastCommit commit =>
    some { task := .addCommit commit, messages := msgs, runState,
           actions := [.broadcast (.commit commit)] }
  | .addCommit commit =>
    let messages := msgs.addCommitMessage commit cfg.address
    some (goto .commit messages
      (.takeSeals commit.proposedBlockDigest messages.commitTx.subscribe))
  | .takeSeals digest rx =>
    let (taken, messages) := msgs.takeValidCommitSeals env view
      (fun commit => commit.proposedBlockDigest = digest) (cfg.validatorManager.quorum view.height)
    some (goto runState messages (sealsTaken cfg view digest rx taken))
  | .recvCommit digest rx commitCount =>
    match msgs.commitTx.recv rx with
    | .pending => none
    | .lagged =>
      some (goto runState msgs (.panicked "Commit subscriber channel should not close"))
    | .notified newCommitView =>
      some (goto runState msgs
        (if newCommitView = view then
          if commitCount + 1 = cfg.validatorManager.quorum view.height then
            .takeSeals digest (rx + 1)
          else .recvCommit digest (rx + 1) (commitCount + 1)
         else .recvCommit digest (rx + 1) commitCount))
  | .finished _ | .failed _ | .panicked _ => none

end RoundTask

/-! ## The monitors -/

/-- `wait_future_rcc`. -/
inductive FutureRccTask where
  | start
  | countByRound (rx : Receiver)
  /-- The initial scan waits for the lock to recount the round `idx`. -/
  | scan (rx : Receiver) (messageCountByRound : List ℕ) (idx : ℕ)
  | recv (rx : Receiver) (messageCountByRound : List ℕ)
  /-- The loop waits for the lock to recount the round of a notification. -/
  | recount (rx : Receiver) (messageCountByRound : List ℕ) (newView : View)
  | sent (round : UInt8)
  | panicked (why : String)
  deriving DecidableEq

/-- `wait_future_proposal`. -/
inductive FutureProposalTask where
  | start
  | hasByRound (rx : Receiver)
  /-- The initial scan waits for the lock to verify the proposal of the round `idx`. -/
  | scan (rx : Receiver) (roundHasProposal : List Bool) (idx : ℕ)
  | recv (rx : Receiver)
  /-- The loop waits for the lock to verify the proposal of a notification. -/
  | verify (rx : Receiver) (newView : View)
  | sent (round : UInt8)
  | panicked (why : String)
  deriving DecidableEq

/-- The next index below `k` that an initial scan stops at: indices are visited downwards until
the round of the view, and only those that satisfy the test are queried. -/
def nextScan (view : View) (test : ℕ → Bool) : ℕ → Option ℕ
  | 0 => none
  | k + 1 =>
    if k ≤ view.round.toNat then none
    else if test k then some k
    else nextScan view test k

namespace FutureRccTask

variable (view : View) (runState : RunState) (msgs : ConsensusMessages)

def goto (task : FutureRccTask) : TaskStep FutureRccTask :=
  { task, messages := msgs, runState, actions := [] }

/-- Go on with the scan below `k`, or start to wait for notifications. -/
def scanBelow (rx : Receiver) (counts : List ℕ) (k : ℕ) : FutureRccTask :=
  let quorum := cfg.validatorManager.quorum view.height
  match nextScan view (fun idx => quorum ≤ counts[idx]?.getD 0) k with
  | some idx => .scan rx counts idx
  | none => .recv rx counts

def step : FutureRccTask → Option (TaskStep FutureRccTask)
  | .start => some (goto runState msgs (.countByRound msgs.roundChangeTx.subscribe))
  | .countByRound rx =>
    match msgs.roundChangeCountByRound view.height with
    | none => some (goto runState msgs (.panicked "index out of bounds"))
    | some counts => some (goto runState msgs (scanBelow cfg view rx counts roundArraySize))
  | .scan rx counts idx =>
    let roundView : View := { height := view.height, round := UInt8.ofNat idx }
    let (count, messages) := msgs.getValidRoundChangeCount roundView
      (roundChangeVerifyFn cfg view.height)
    some (goto runState messages
      (if cfg.validatorManager.quorum view.height ≤ count then .sent (UInt8.ofNat idx)
       else scanBelow cfg view rx (counts.set idx count) idx))
  | .recv rx counts =>
    match msgs.roundChangeTx.recv rx with
    | .pending => none
    | .lagged => some (goto runState msgs (.panicked "Round change subscription should not close"))
    | .notified newView =>
      if newView.height = view.height ∧ view.round < newView.round then
        match counts[newView.round.toNat]? with
        | none => some (goto runState msgs (.panicked "index out of bounds"))
        | some count =>
          let counts := counts.set newView.round.toNat (count + 1)
          some (goto runState msgs
            (if cfg.validatorManager.quorum view.height ≤ count + 1 then
              .recount (rx + 1) counts newView
             else .recv (rx + 1) counts))
      else some (goto runState msgs (.recv (rx + 1) counts))
  | .recount rx counts newView =>
    let (count, messages) := msgs.getValidRoundChangeCount newView
      (roundChangeVerifyFn cfg view.height)
    some (goto runState messages
      (if cfg.validatorManager.quorum view.height ≤ count then .sent newView.round
       else .recv rx (counts.set newView.round.toNat count)))
  | .sent _ | .panicked _ => none

end FutureRccTask

namespace FutureProposalTask

variable (env : Env) (view : View) (runState : RunState) (msgs : ConsensusMessages)

def goto (task : FutureProposalTask) : TaskStep FutureProposalTask :=
  { task, messages := msgs, runState, actions := [] }

/-- Go on with the scan below `k`, or start to wait for notifications. -/
def scanBelow (rx : Receiver) (present : List Bool) (k : ℕ) : FutureProposalTask :=
  match nextScan view (fun idx => present[idx]?.getD false) k with
  | some idx => .scan rx present idx
  | none => .recv rx

/-- Verify the proposal of a future view: jump there if it is valid. -/
def verifyFuture (newView : View) (next : FutureProposalTask) : TaskStep FutureProposalTask :=
  let (digest, messages) := msgs.getValidProposalDigest newView (proposalVerifyFn cfg env newView)
  { task :=
      match digest with
      | some (.ok _) => .sent newView.round
      | _ => next
    messages, runState, actions := RoundTask.blockChecks cfg env msgs newView }

def step : FutureProposalTask → Option (TaskStep FutureProposalTask)
  | .start => some (goto runState msgs (.hasByRound msgs.proposalTx.subscribe))
  | .hasByRound rx =>
    match msgs.hasProposalByRound view.height with
    | none => some (goto runState msgs (.panicked "index out of bounds"))
    | some present => some (goto runState msgs (scanBelow view rx present roundArraySize))
  | .scan rx present idx =>
    some (verifyFuture cfg env runState msgs { height := view.height, round := UInt8.ofNat idx }
      (scanBelow view rx present idx))
  | .recv rx =>
    match msgs.proposalTx.recv rx with
    | .pending => none
    | .lagged => some (goto runState msgs (.panicked "Proposal channel should not close"))
    | .notified newView =>
      some (goto runState msgs
        (if newView.height = view.height ∧ view.round < newView.round then
          .verify (rx + 1) newView
         else .recv (rx + 1)))
  | .verify rx newView => some (verifyFuture cfg env runState msgs newView (.recv rx))
  | .sent _ | .panicked _ => none

end FutureProposalTask

end Tonic
