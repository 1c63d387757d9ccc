/-
# The engine: a run, the handler and the store under one scheduler

`IBFT::run` with its `select!`, `handle_round_finish` and `handle_timeout`
(`ibft.rs`), and `ConsensusEngine::run_height` around it (`engine.rs`).  A node is
an engine with its store, the message its handler is about to add, and its run.
An event is a scheduler's choice: which task goes on to its next await point, or
which branch of `select!` is taken, so the runs of a node are the interleavings of
its tasks at await points.

`biased` orders the branches of `select!` only within one poll; a branch may become
ready right after it was polled, so every ready branch may be the one taken.
-/
import Tonic.Transition
import Tonic.Ibft

namespace Tonic

/-! ## Runs -/

/-- Where the task that executes `run_height` waits. -/
inductive RunPhase where
  /-- `start_ibft_round` adds the own round change to the store. -/
  | addOwnRoundChange (roundChange : RoundChangeMessageSigned)
  | select
  /-- `handle_round_finish`. -/
  | takeFinalProposal (commitSeals : CommitSeals)
  | broadcastBlock (block : FinalizedBlock)
  /-- `run_height` prunes the store once `run` has returned a block. -/
  | prune (block : FinalizedBlock)
  /-- `handle_timeout`. -/
  | timeoutTakeProposal
  | timeoutTakePrepares (proposal : ProposalMessageSigned)
  | broadcastRoundChange (roundChange : RoundChangeMessageSigned)
  | returned (result : Option FinalizedBlock)
  | panicked (why : String)
  deriving DecidableEq

/-- A call of `run_height`.  A task is `none` before it is spawned and after it is aborted. -/
structure Run where
  height : UInt64
  round : UInt8
  latestSelfRoundChange : Option RoundChangeMessageSigned
  /-- `SharedRunState` of the current round. -/
  runState : RunState
  phase : RunPhase
  roundTask : Option RoundTask
  futureProposalTask : Option FutureProposalTask
  futureRccTask : Option FutureRccTask
  /-- What the run has done so far; the program does not read it. -/
  log : List Action
  /-- The store when the run began; the program does not read it. -/
  initialMessages : ConsensusMessages

def Run.view (run : Run) : View := { height := run.height, round := run.round }

namespace Run

variable (cfg : Config)

/-- The three tasks of the round are aborted. -/
def abort (run : Run) : Run :=
  { run with roundTask := none, futureProposalTask := none, futureRccTask := none }

/-- The head of the loop of `run`, up to its first await. -/
def enterRound (run : Run) (round : UInt8) : Run :=
  if maxRound < round then
    { run.abort with
      phase := .panicked "Not producing blocks for a long time, chain is dead" }
  else
    let view : View := { height := run.height, round }
    let entered : Run :=
      { run with
        round
        runState := .proposal
        phase := .select
        roundTask := some .start
        futureProposalTask := some .start
        futureRccTask := some .start
        log := run.log ++ [.entered view] }
    if round = 0 then entered
    else
      match run.latestSelfRoundChange with
      | none => entered
      | some roundChange =>
        -- Add self round change to messages only if view matches and we are proposer
        if roundChange.view = view ∧ cfg.validatorManager.isProposer cfg.address view = true then
          { entered with phase := .addOwnRoundChange roundChange, roundTask := none }
        else entered

/-- The call of `run`, up to its first await. -/
def start (msgs : ConsensusMessages) (height : UInt64) : Run :=
  let run : Run :=
    { height, round := 0, latestSelfRoundChange := none, runState := .proposal, phase := .select
      roundTask := none, futureProposalTask := none, futureRccTask := none
      log := [], initialMessages := msgs }
  if cfg.validatorManager.quorum height = 0 then
    { run with phase := .panicked "Quorum must be greater than 0" }
  else run.enterRound cfg 0

/-- The next round change of `handle_timeout` when the round is not in the commit state. -/
def nextRoundChange (run : Run) : RoundChangeMessageSigned :=
  match run.latestSelfRoundChange with
  | some roundChange => roundChange.updateAndResign cfg.crypto cfg.key (run.round + 1)
  | none =>
    (RoundChangeMessage.new { height := run.height, round := run.round + 1 } none).intoSigned
      cfg.crypto cfg.key

/-- The next round change of `handle_timeout` in the commit state. -/
def preparedRoundChange (run : Run) (proposal : ProposalMessageSigned)
    (prepares : List PrepareMessageSigned) : RoundChangeMessageSigned :=
  (RoundChangeMessage.new { height := run.height, round := run.round + 1 }
    (some (PreparedProposed.new proposal prepares))).intoSigned cfg.crypto cfg.key

/-- The timeout branch of `select!` and `handle_timeout` up to its first await. -/
def onTimeout (run : Run) : Run :=
  match run.runState with
  | .commit => { run.abort with phase := .timeoutTakeProposal }
  | _ => { run.abort with phase := .broadcastRoundChange (run.nextRoundChange cfg) }

end Run

/-! ## Nodes -/

/-- An engine.  `pending` is the message the handler has checked and waits to add. -/
structure Node where
  messages : ConsensusMessages
  /-- The finalized height the handler knows. -/
  height : UInt64
  pending : Option (IBFTMessage × Address)
  run : Option Run
  /-- The earlier runs and the messages received so far; the program does not read them. -/
  past : List Run
  received : List IBFTMessage

inductive Event where
  /-- The handler takes a message from the network and checks it. -/
  | receive (message : IBFTMessage)
  /-- The handler gets the lock and adds the checked message. -/
  | addPending
  /-- `run_height` is called. -/
  | runHeight (height : UInt64)
  /-- A task of the round goes on to its next await. -/
  | round (env : Env)
  | futureProposal (env : Env)
  | futureRcc
  /-- The task of `run_height` goes on to its next await. -/
  | main (env : Env)
  /-- The branches of `select!`. -/
  | cancel
  | roundFinished
  | futureProposalReady
  | futureRccReady
  | timeout

namespace Node

variable (cfg : Config)

def init (height : UInt64) : Node where
  messages := ConsensusMessages.new cfg.address
  height
  pending := none
  run := none
  past := []
  received := []

/-- The handler takes the next message: it is dropped or waits to be added. -/
def receive (n : Node) (message : IBFTMessage) : Option Node :=
  match n.pending with
  | some _ => none
  | none =>
    let pending :=
      match checkConsensusMessage cfg n.height message with
      | .ok (some sender) => some (message, sender)
      | _ => none
    some { n with pending, received := message :: n.received }

def addPending (n : Node) : Option Node :=
  match n.pending with
  | none => none
  | some (message, sender) =>
    some { n with messages := n.messages.addMessage sender message, pending := none }

/-- `run_height` may be called when no earlier call is under way. -/
def runHeight (n : Node) (height : UInt64) : Option Node :=
  match n.run with
  | none => some { n with run := some (Run.start cfg n.messages height) }
  | some old =>
    match old.phase with
    | .returned _ | .panicked _ =>
      some { n with run := some (Run.start cfg n.messages height), past := n.past ++ [old] }
    | _ => none

/-- A step of the round task. -/
def stepRound (n : Node) (run : Run) (env : Env) : Option Node := do
  let task ← run.roundTask
  let s ← task.step cfg env run.view run.runState n.messages
  return { n with
    messages := s.messages
    run := some { run with
      roundTask := some s.task, runState := s.runState, log := run.log ++ s.actions } }

/-- A step of the monitor of future proposals. -/
def stepFutureProposal (n : Node) (run : Run) (env : Env) : Option Node := do
  let task ← run.futureProposalTask
  let s ← task.step cfg env run.view run.runState n.messages
  return { n with
    messages := s.messages
    run := some { run with futureProposalTask := some s.task, log := run.log ++ s.actions } }

/-- A step of the monitor of future round change certificates. -/
def stepFutureRcc (n : Node) (run : Run) : Option Node := do
  let task ← run.futureRccTask
  let s ← task.step cfg run.view run.runState n.messages
  return { n with
    messages := s.messages
    run := some { run with futureRccTask := some s.task, log := run.log ++ s.actions } }

/-- A step of the task of `run_height` outside of `select!`. -/
def stepMain (n : Node) (run : Run) (env : Env) : Option Node :=
  match run.phase with
  | .addOwnRoundChange roundChange =>
    some { n with
      messages := n.messages.addRoundChangeMessage roundChange cfg.address
      run := some { run with phase := .select, roundTask := some .start } }
  | .takeFinalProposal commitSeals =>
    let (proposal, messages) := n.messages.takeProposalMessage run.view
    let phase :=
      match proposal with
      | none => RunPhase.panicked "Proposal must exist when round finished"
      | some proposal => .broadcastBlock (FinalizedBlock.new proposal.proposedBlock commitSeals)
    some { n with messages, run := some { run with phase } }
  | .broadcastBlock block =>
    -- `run` returns the block; `run_height` goes on with `update_height`.
    let run := { run with log := run.log ++ [Action.finalized run.height block] }
    if n.height < run.height then
      some { n with height := run.height, run := some { run with phase := .prune block } }
    else
      some { n with run := some { run with
        phase := .panicked "Updated height must always be higher than the current height" } }
  | .prune block =>
    -- The sum wraps, as in a release build.  With overflow checks it panics at height `u64::MAX`.
    some { n with
      messages := n.messages.prune (n.height + 1)
      run := some { run with phase := .returned (some block) } }
  | .timeoutTakeProposal =>
    let (proposal, messages) := n.messages.takeProposalMessage run.view
    let phase :=
      match proposal with
      | none => RunPhase.panicked "Proposal must exist when past prepare state"
      | some proposal => .timeoutTakePrepares proposal
    some { n with messages, run := some { run with phase } }
  | .timeoutTakePrepares proposal =>
    let (prepares, messages) := n.messages.takeValidPrepareMessages env run.view
      (fun prepare => prepare.proposedBlockDigest = proposal.proposedBlockDigest)
    let phase :=
      if prepares.length < cfg.validatorManager.quorum run.height - 1 then
        RunPhase.panicked ("Got " ++ toString prepares.length ++ " prepares while prepare quorum is "
          ++ toString (cfg.validatorManager.quorum run.height - 1) ++ " in timeout handler")
      else .broadcastRoundChange (run.preparedRoundChange cfg proposal prepares)
    some { n with messages, run := some { run with phase } }
  | .broadcastRoundChange roundChange =>
    let run := { run with
      latestSelfRoundChange := some roundChange
      log := run.log ++ [Action.broadcast (.roundChange roundChange)] }
    some { n with run := some (run.enterRound cfg (run.round + 1)) }
  | _ => none

/-- The branches of `select!`. -/
def stepSelect (n : Node) (run : Run) (ev : Event) : Option Node :=
  if run.phase = .select then
    match ev with
    | .cancel => some { n with run := some { run.abort with phase := .returned none } }
    | .roundFinished =>
      match run.roundTask with
      | some (.finished commitSeals) =>
        some { n with run := some { run.abort with phase := .takeFinalProposal commitSeals } }
      | _ => none
    | .futureProposalReady =>
      match run.futureProposalTask with
      | some (.sent newRound) => some { n with run := some (run.abort.enterRound cfg newRound) }
      | _ => none
    | .futureRccReady =>
      match run.futureRccTask with
      | some (.sent newRound) => some { n with run := some (run.abort.enterRound cfg newRound) }
      | _ => none
    | .timeout => some { n with run := some (run.onTimeout cfg) }
    | _ => none
  else none

def step (n : Node) : Event → Option Node
  | .receive message => n.receive cfg message
  | .addPending => n.addPending
  | .runHeight height => n.runHeight cfg height
  | .round env => n.run.bind fun run => n.stepRound cfg run env
  | .futureProposal env => n.run.bind fun run => n.stepFutureProposal cfg run env
  | .futureRcc => n.run.bind fun run => n.stepFutureRcc cfg run
  | .main env => n.run.bind fun run => n.stepMain cfg run env
  | ev => n.run.bind fun run => n.stepSelect cfg run ev

/-- All runs of a node, oldest first. -/
def runs (n : Node) : List Run := n.past ++ n.run.toList

end Node

end Tonic
