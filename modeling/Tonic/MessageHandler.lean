/-
# The handler of incoming messages

`messages.rs`: `MessageHandler::handle_consensus_message`.  The checks run without
a pause; the addition behind them waits for the lock of its map, so the two halves
are separate functions and other tasks may run in between.
-/
import Tonic.ConsensusMessages

namespace Tonic

variable (cfg : Config)

/-- The checks before a message is added, for a handler that knows `finalized` as the finalized
height.  `ok none` drops the message silently, `ok (some sender)` goes on to add it. -/
def checkConsensusMessage (finalized : UInt64) : IBFTMessage → Except String (Option Address)
  | .proposal proposal =>
    let view := proposal.view
    if view.height ≤ finalized then .ok none
    else if maxRound < view.round then .error "Received proposal with too high round"
    else do
      let sender ← proposal.recoverSigner cfg.crypto
      if sender = cfg.address then .error "Received self signed proposal"
      else if cfg.validatorManager.isProposer sender view = false then
        .error "Received proposal from non-proposer"
      else .ok (some sender)
  | .prepare prepare =>
    let view := prepare.view
    if view.height ≤ finalized then .ok none
    else if maxRound < view.round then .error "Received prepare with too high round"
    else do
      let sender ← prepare.recoverSigner cfg.crypto
      if sender = cfg.address then .error "Received self signed prepare"
      else if cfg.validatorManager.isValidator sender view.height = false then
        .error "Prepare sender is not validator"
      else if cfg.validatorManager.isProposer sender view = true then
        .error "Proposer should not send prepare messages"
      else .ok (some sender)
  | .commit commit =>
    let view := commit.view
    if view.height ≤ finalized then .ok none
    else if maxRound < view.round then .error "Received commit with too high round"
    else do
      let sender ← commit.recoverSigner cfg.crypto
      if sender = cfg.address then .error "Received self signed commit"
      else if cfg.validatorManager.isValidator sender view.height = false then
        .error "Commit sender is not validator"
      else do
        let sealSender ← commit.recoverCommitSealSigner cfg.crypto
        if sender ≠ sealSender then
          .error "Commit seal signer is different from message signer"
        else .ok (some sender)
  | .roundChange roundChange =>
    let view := roundChange.view
    if view.height ≤ finalized then .ok none
    else if view.round = 0 then .error "Received round change with round 0"
    else if maxRound < view.round then .error "Received round change with too high round"
    else do
      let sender ← roundChange.recoverSigner cfg.crypto
      if sender = cfg.address then .error "Received self signed round change"
      else if cfg.validatorManager.isValidator sender view.height = false then
        .error "Round change sender is not validator"
      else .ok (some sender)

/-- The addition behind the checks. -/
def ConsensusMessages.addMessage (msgs : ConsensusMessages) (sender : Address) :
    IBFTMessage → ConsensusMessages
  | .proposal proposal => msgs.addProposalMessage proposal sender
  | .prepare prepare => msgs.addPrepareMessage prepare sender
  | .commit commit => msgs.addCommitMessage commit sender
  | .roundChange roundChange => msgs.addRoundChangeMessage roundChange sender

/-- The view of a message. -/
def IBFTMessage.view : IBFTMessage → View
  | .proposal m => m.view
  | .prepare m => m.view
  | .commit m => m.view
  | .roundChange m => m.view

/-- The signer of a message. -/
def IBFTMessage.recoverSigner (c : Crypto) : IBFTMessage → Except String Address
  | .proposal m => m.recoverSigner c
  | .prepare m => m.recoverSigner c
  | .commit m => m.recoverSigner c
  | .roundChange m => m.recoverSigner c

/-! ## What the checks guarantee -/

/-- What is known of a message of a sender that may be stored: by kind, as the handler checks it
for peers and as a node's own messages satisfy it. -/
def IBFTMessage.Admissible (sender : Address) : IBFTMessage → Prop
  | .proposal m => cfg.validatorManager.isProposer sender m.view = true
  | .prepare m =>
    cfg.validatorManager.isValidator sender m.view.height = true ∧
      cfg.validatorManager.isProposer sender m.view = false
  | .commit m =>
    cfg.validatorManager.isValidator sender m.view.height = true ∧
      m.recoverCommitSealSigner cfg.crypto = .ok sender
  | .roundChange m =>
    cfg.validatorManager.isValidator sender m.view.height = true ∧ m.view.round ≠ 0

/-- The handler goes on to add a message exactly when it is above the finalized height, within
the round limit, signed by someone else, and admissible for its kind. -/
theorem checkConsensusMessage_eq_some_iff {finalized : UInt64} {m : IBFTMessage}
    {sender : Address} :
    checkConsensusMessage cfg finalized m = .ok (some sender) ↔
      finalized < m.view.height ∧ m.view.round ≤ maxRound ∧
        m.recoverSigner cfg.crypto = .ok sender ∧ sender ≠ cfg.address ∧
        m.Admissible cfg sender := by
  cases m with
  | proposal m =>
    simp only [checkConsensusMessage, IBFTMessage.view, IBFTMessage.recoverSigner,
      IBFTMessage.Admissible]
    cases hrec : m.recoverSigner cfg.crypto with
    | error e => simp only [bind, Except.bind]; grind
    | ok a => simp only [bind, Except.bind]; grind
  | prepare m =>
    simp only [checkConsensusMessage, IBFTMessage.view, IBFTMessage.recoverSigner,
      IBFTMessage.Admissible]
    cases hrec : m.recoverSigner cfg.crypto with
    | error e => simp only [bind, Except.bind]; grind
    | ok a => simp only [bind, Except.bind]; grind
  | commit m =>
    simp only [checkConsensusMessage, IBFTMessage.view, IBFTMessage.recoverSigner,
      IBFTMessage.Admissible]
    cases hrec : m.recoverSigner cfg.crypto with
    | error e => simp only [bind, Except.bind]; grind
    | ok a =>
      cases hseal : m.recoverCommitSealSigner cfg.crypto with
      | error e => simp only [bind, Except.bind]; grind
      | ok b => simp only [bind, Except.bind]; grind
  | roundChange m =>
    simp only [checkConsensusMessage, IBFTMessage.view, IBFTMessage.recoverSigner,
      IBFTMessage.Admissible]
    cases hrec : m.recoverSigner cfg.crypto with
    | error e => simp only [bind, Except.bind]; grind
    | ok a => simp only [bind, Except.bind]; grind

end Tonic
