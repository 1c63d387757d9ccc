/-
# The message store

`messages.rs`: `ConsensusMessages` with its five maps and four notification
channels.  The nested maps `HeightMap<ViewMap<..>>` are maps keyed by a height, by
a view or by a view and a sender: an empty inner map cannot be told from a missing
one by any operation.  Every operation runs under the lock of its map and is one
function here.  A notification channel is the list of all notifications ever sent;
a receiver is the number of notifications it has read or joined after.
-/
import Tonic.FirstWinsMap
import Tonic.Verify

namespace Tonic

/-! ## Notification channels -/

def channelSize : ℕ := 128

/-- `broadcast::Sender<View>`: everything sent so far, oldest first. -/
structure Channel where
  sent : List View

abbrev Receiver := ℕ

namespace Channel

def new : Channel := ⟨[]⟩

def send (ch : Channel) (view : View) : Channel := ⟨ch.sent ++ [view]⟩

def subscribe (ch : Channel) : Receiver := ch.sent.length

/-- `recv` at a receiver: nothing there yet, the `Lagged` error, or the next notification. -/
inductive Recv where
  | pending
  | lagged
  | notified (view : View)
  deriving DecidableEq

def recv (ch : Channel) (rx : Receiver) : Recv :=
  if channelSize < ch.sent.length - rx then .lagged
  else
    match ch.sent[rx]? with
    | none => .pending
    | some view => .notified view

end Channel

/-! ## The store -/

structure ConsensusMessages where
  selfAddress : Address
  /-- Proposal messages for round 0, by height. -/
  proposal0Messages : FirstWinsMap UInt64 ProposalMessageSigned
  /-- Proposal messages for round > 0 with the cached result of their verification. -/
  proposal1Messages : FirstWinsMap View (ProposalMessageSigned × Option (Except IBFTError Unit))
  prepareMessages : FirstWinsMap (View × Address) PrepareMessageSigned
  commitMessages : FirstWinsMap (View × Address) CommitMessageSigned
  /-- Round changes with the flag that caches a successful verification. -/
  roundChangeMessages : FirstWinsMap (View × Address) (RoundChangeMessageSigned × Bool)
  proposalTx : Channel
  prepareTx : Channel
  commitTx : Channel
  roundChangeTx : Channel

namespace ConsensusMessages

def new (address : Address) : ConsensusMessages where
  selfAddress := address
  proposal0Messages := .empty
  proposal1Messages := .empty
  prepareMessages := .empty
  commitMessages := .empty
  roundChangeMessages := .empty
  proposalTx := .new
  prepareTx := .new
  commitTx := .new
  roundChangeTx := .new

variable (msgs : ConsensusMessages)

/-- Prunes messages less than height. -/
def prune (height : UInt64) : ConsensusMessages :=
  { msgs with
    proposal0Messages := msgs.proposal0Messages.retain (fun h _ => height ≤ h)
    proposal1Messages := msgs.proposal1Messages.retain (fun v _ => height ≤ v.height)
    prepareMessages := msgs.prepareMessages.retain (fun k _ => height ≤ k.1.height)
    commitMessages := msgs.commitMessages.retain (fun k _ => height ≤ k.1.height)
    roundChangeMessages := msgs.roundChangeMessages.retain (fun k _ => height ≤ k.1.height) }

/-! ### Additions -/

/-- The proposal stored for a view. -/
def storedProposal (view : View) : Option ProposalMessageSigned :=
  if view.round = 0 then msgs.proposal0Messages.get? view.height
  else (msgs.proposal1Messages.get? view).map Prod.fst

/-- Adds a proposal message if not already exists for the view, and broadcasts it. -/
def addProposalMessage (proposal : ProposalMessageSigned) (sender : Address) :
    ConsensusMessages :=
  let view := proposal.view
  if msgs.storedProposal view = none then
    if view.round = 0 then
      { msgs with
        proposal0Messages := msgs.proposal0Messages.insertVacant view.height proposal
        proposalTx := msgs.proposalTx.send view }
    else
      { msgs with
        -- Insert as valid if coming from self
        proposal1Messages := msgs.proposal1Messages.insertVacant view
          (proposal, if msgs.selfAddress = sender then some (.ok ()) else none)
        proposalTx := msgs.proposalTx.send view }
  else msgs

/-- Adds a prepare message if not already exists for the view and sender, and broadcasts it. -/
def addPrepareMessage (prepare : PrepareMessageSigned) (sender : Address) : ConsensusMessages :=
  let view := prepare.view
  if msgs.prepareMessages.get? (view, sender) = none then
    { msgs with
      prepareMessages := msgs.prepareMessages.insertVacant (view, sender) prepare
      prepareTx := msgs.prepareTx.send view }
  else msgs

/-- Adds a commit message if not already exists for the view and sender, and broadcasts it. -/
def addCommitMessage (commit : CommitMessageSigned) (sender : Address) : ConsensusMessages :=
  let view := commit.view
  if msgs.commitMessages.get? (view, sender) = none then
    { msgs with
      commitMessages := msgs.commitMessages.insertVacant (view, sender) commit
      commitTx := msgs.commitTx.send view }
  else msgs

/-- Adds a round change message if not already exists for the view and sender, and broadcasts
it. -/
def addRoundChangeMessage (roundChange : RoundChangeMessageSigned) (sender : Address) :
    ConsensusMessages :=
  let view := roundChange.view
  if msgs.roundChangeMessages.get? (view, sender) = none then
    { msgs with
      -- Insert as valid if coming from self
      roundChangeMessages := msgs.roundChangeMessages.insertVacant (view, sender)
        (roundChange, sender = msgs.selfAddress)
      roundChangeTx := msgs.roundChangeTx.send view }
  else msgs

/-! ### Proposals -/

/-- Verifies the proposal message for the given view with the given verify function, and returns
its digest.  Returns `none` if a proposal for the view doesn't exist. -/
def getValidProposalDigest (view : View)
    (verifyFn : ProposalMessageSigned → Except IBFTError Unit) :
    Option (Except IBFTError Digest) × ConsensusMessages :=
  if view.round = 0 then
    match msgs.proposal0Messages.get? view.height with
    | none => (none, msgs)
    | some proposal =>
      (some ((verifyFn proposal).map (fun _ => proposal.proposedBlockDigest)), msgs)
  else
    match msgs.proposal1Messages.get? view with
    | none => (none, msgs)
    | some (proposal, some result) =>
      (some (result.map (fun _ => proposal.proposedBlockDigest)), msgs)
    | some (proposal, none) =>
      let result := verifyFn proposal
      (some (result.map (fun _ => proposal.proposedBlockDigest)),
        { msgs with
          proposal1Messages := msgs.proposal1Messages.filterMapVal
            (fun v entry => if v = view then some (entry.1, some result) else some entry) })

/-- The proposal on which `getValidProposalDigest` would call the verify function. -/
def unverifiedProposal (view : View) : Option ProposalMessageSigned :=
  if view.round = 0 then msgs.proposal0Messages.get? view.height
  else
    match msgs.proposal1Messages.get? view with
    | some (proposal, none) => some proposal
    | _ => none

/-- Takes the proposal message for the given view. -/
def takeProposalMessage (view : View) : Option ProposalMessageSigned × ConsensusMessages :=
  if view.round = 0 then
    (msgs.proposal0Messages.get? view.height,
      { msgs with
        proposal0Messages := msgs.proposal0Messages.retain (fun h _ => h ≠ view.height) })
  else
    ((msgs.proposal1Messages.get? view).map Prod.fst,
      { msgs with
        proposal1Messages := msgs.proposal1Messages.retain (fun v _ => v ≠ view) })

/-- The existence of a proposal in each round, proposals known to be invalid counted as missing.
`none` is the panic of indexing the array out of bounds. -/
def hasProposalByRound (height : UInt64) : Option (List Bool) :=
  let present := msgs.proposal1Messages.select (fun view entry =>
    if view.height = height then
      match entry.2 with
      | some (.error _) => none
      | _ => some view.round
    else none)
  if present.all (fun round => round.toNat < roundArraySize) then
    some ((List.range roundArraySize).map (fun idx => present.contains (UInt8.ofNat idx)))
  else none

/-! ### Prepares -/

/-- The entries of a view in a map by view and sender. -/
def viewEntries {T : Type} (m : FirstWinsMap (View × Address) T) (view : View) :
    List (Address × T) :=
  m.select (fun key value => if key.1 = view then some (key.2, value) else none)

/-- Drops the entries of a view that fail a test. -/
def retainView {T : Type} (m : FirstWinsMap (View × Address) T) (view : View) (p : T → Bool) :
    FirstWinsMap (View × Address) T :=
  m.retain (fun key value => decide (key.1 ≠ view) || p value)

/-- Verifies and prunes the prepare messages for the given view with the given verify function,
and returns the final count. -/
def getValidPrepareCount (view : View) (verifyFn : PrepareMessageSigned → Bool) :
    ℕ × ConsensusMessages :=
  let prepareMessages := retainView msgs.prepareMessages view verifyFn
  ((viewEntries prepareMessages view).length, { msgs with prepareMessages })

/-- Takes valid prepare messages for the given view verified with the verify function. -/
def takeValidPrepareMessages (env : Env) (view : View) (verifyFn : PrepareMessageSigned → Bool) :
    List PrepareMessageSigned × ConsensusMessages :=
  (env.intoValues (viewEntries (retainView msgs.prepareMessages view verifyFn) view),
    { msgs with prepareMessages := retainView msgs.prepareMessages view (fun _ => false) })

/-! ### Commits -/

/-- Verifies and prunes the commit messages for the given view with the given verify function.
Consumes commits and returns seals (if valid message count is >= quorum), and returns the valid
message count. -/
def takeValidCommitSeals (env : Env) (view : View) (verifyFn : CommitMessageSigned → Bool)
    (quorum : ℕ) : (Option CommitSeals × ℕ) × ConsensusMessages :=
  let commitMessages := retainView msgs.commitMessages view verifyFn
  let count := (viewEntries commitMessages view).length
  if quorum ≤ count then
    ((some ((env.intoValues (viewEntries commitMessages view)).map CommitMessageSigned.commitSeal),
        count),
      { msgs with commitMessages := retainView commitMessages view (fun _ => false) })
  else ((none, count), { msgs with commitMessages })

/-! ### Round changes -/

/-- Prune invalid messages and mark valid messages, in one view. -/
def retainVerified (view : View) (verifyFn : RoundChangeMessageSigned → Bool) :
    FirstWinsMap (View × Address) (RoundChangeMessageSigned × Bool) :=
  msgs.roundChangeMessages.filterMapVal (fun key entry =>
    if key.1 = view then
      if entry.2 then some entry
      else if verifyFn entry.1 then some (entry.1, true)
      else none
    else some entry)

/-- Verifies and prunes the round change messages for the given view with the given verify
function.  Takes round changes (if valid message count is >= quorum), and returns the valid
message count. -/
def takeValidRoundChangeMessages (env : Env) (view : View)
    (verifyFn : RoundChangeMessageSigned → Bool) (quorum : ℕ) :
    (Option (List RoundChangeMessageSigned) × ℕ) × ConsensusMessages :=
  let roundChangeMessages := msgs.retainVerified view verifyFn
  let count := (viewEntries roundChangeMessages view).length
  if quorum ≤ count then
    ((some ((env.intoValues (viewEntries roundChangeMessages view)).map Prod.fst), count),
      { msgs with roundChangeMessages := retainView roundChangeMessages view (fun _ => false) })
  else ((none, count), { msgs with roundChangeMessages })

/-- The message count of each round as index in the resulting array.  `none` is the panic of
indexing the array out of bounds. -/
def roundChangeCountByRound (height : UInt64) : Option (List ℕ) :=
  let rounds := msgs.roundChangeMessages.select (fun key _ =>
    if key.1.height = height then some key.1.round else none)
  if rounds.all (fun round => round.toNat < roundArraySize) then
    some ((List.range roundArraySize).map (fun idx =>
      (viewEntries msgs.roundChangeMessages { height, round := UInt8.ofNat idx }).length))
  else none

/-- Verifies and prunes the round change messages for the given view with the given verify
function, and returns the final count. -/
def getValidRoundChangeCount (view : View) (verifyFn : RoundChangeMessageSigned → Bool) :
    ℕ × ConsensusMessages :=
  let roundChangeMessages := msgs.retainVerified view verifyFn
  ((viewEntries roundChangeMessages view).length, { msgs with roundChangeMessages })

end ConsensusMessages

end Tonic
