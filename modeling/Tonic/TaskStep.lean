/-
# Where a step takes the round task

The wait loops of the round task are all of one form: polled at a receiver, the task
panics if the receiver has fallen behind, or counts the notification and waits on or
queries the store again.  The messages it broadcasts are built at few of its await
points.  Both are found here by cases of the step function, once for all invariants.
-/
import Tonic.Ibft

namespace Tonic

variable {cfg : Config} {env : Env} {view : View} {runState : RunState} {msgs : ConsensusMessages}

/-! ## Receivers -/

/-- More notifications were sent since the last read than the channel keeps. -/
def Channel.Lags (ch : Channel) (rx : Receiver) : Prop := channelSize < ch.sent.length - rx

instance (ch : Channel) (rx : Receiver) : Decidable (ch.Lags rx) :=
  inferInstanceAs (Decidable (_ < _))

/-- `recv` fails exactly at a receiver that has fallen behind. -/
theorem Channel.recv_eq_lagged_iff {ch : Channel} {rx : Receiver} :
    ch.recv rx = .lagged ↔ ch.Lags rx := by
  unfold Channel.recv Channel.Lags
  split
  next h => exact ⟨fun _ => h, fun _ => rfl⟩
  next h =>
    constructor
    · intro hrecv
      cases hsent : ch.sent[rx]? with
      | none => simp [hsent] at hrecv
      | some view => simp [hsent] at hrecv
    · exact fun hlags => absurd hlags h

/-- The texts of the `expect`s behind a `recv`. -/
def recvMessages : List String :=
  ["Proposal subscriber channel should not close", "Prepare subscriber channel should not close",
    "Commit subscriber channel should not close",
    "Round change subscriber channel should not close",
    "Round change subscription should not close", "Proposal channel should not close"]

namespace RoundTask

/-- The channel and the receiver at which the task waits for a notification. -/
def waiting (msgs : ConsensusMessages) : RoundTask → Option (Channel × Receiver)
  | .recvRoundChange rx _ => some (msgs.roundChangeTx, rx)
  | .recvProposal rx => some (msgs.proposalTx, rx)
  | .recvPrepare _ rx _ => some (msgs.prepareTx, rx)
  | .recvCommit _ rx _ => some (msgs.commitTx, rx)
  | _ => none

variable (cfg) in
/-- Where a notification takes a waiting task. -/
def notified (view newView : View) : RoundTask → RoundTask
  | .recvRoundChange rx rcCount =>
    if newView = view then
      if rcCount + 1 = cfg.validatorManager.quorum view.height then .takeRoundChanges (rx + 1)
      else .recvRoundChange (rx + 1) (rcCount + 1)
    else .recvRoundChange (rx + 1) rcCount
  | .recvProposal rx => if newView = view then .getProposalAgain else .recvProposal (rx + 1)
  | .recvPrepare digest rx prepareCount =>
    if newView = view then
      if prepareCount + 1 = cfg.validatorManager.quorum view.height - 1 then
        .countPrepares digest (rx + 1)
      else .recvPrepare digest (rx + 1) (prepareCount + 1)
    else .recvPrepare digest (rx + 1) prepareCount
  | .recvCommit digest rx commitCount =>
    if newView = view then
      if commitCount + 1 = cfg.validatorManager.quorum view.height then .takeSeals digest (rx + 1)
      else .recvCommit digest (rx + 1) (commitCount + 1)
    else .recvCommit digest (rx + 1) commitCount
  | task => task

/-- **A poll at a receiver** panics where the receiver lags, and else reads a notification. -/
theorem step_of_waiting {task : RoundTask} {s : TaskStep RoundTask} {ch : Channel} {rx : Receiver}
    (hs : task.step cfg env view runState msgs = some s) (hwait : task.waiting msgs = some (ch, rx)) :
    (ch.recv rx = .lagged ∧
        ∃ why, why ∈ recvMessages ∧ s = goto runState msgs (.panicked why)) ∨
      ∃ v, ch.recv rx = .notified v ∧ s = goto runState msgs (task.notified cfg view v) := by
  cases task with
  | recvRoundChange | recvProposal | recvPrepare | recvCommit =>
    cases hwait
    simp only [step] at hs
    split at hs
    · cases hs
    next hrecv =>
      cases hs
      exact Or.inl ⟨hrecv, _, by decide, rfl⟩
    next v hrecv =>
      cases hs
      exact Or.inr ⟨v, hrecv, rfl⟩
  | _ => cases hwait

/-! ## Broadcasts -/

/-- The message that the round task is about to broadcast. -/
def outgoing : RoundTask → Option IBFTMessage
  | .broadcastProposal p => some (.proposal p)
  | .broadcastPrepare m => some (.prepare m)
  | .broadcastCommit m => some (.commit m)
  | _ => none

theorem eq_broadcastProposal {task : RoundTask} {p : ProposalMessageSigned}
    (h : task.outgoing = some (.proposal p)) : task = .broadcastProposal p := by
  cases task <;> simp_all [outgoing]

theorem eq_broadcastPrepare {task : RoundTask} {m : PrepareMessageSigned}
    (h : task.outgoing = some (.prepare m)) : task = .broadcastPrepare m := by
  cases task <;> simp_all [outgoing]

theorem eq_broadcastCommit {task : RoundTask} {m : CommitMessageSigned}
    (h : task.outgoing = some (.commit m)) : task = .broadcastCommit m := by
  cases task <;> simp_all [outgoing]

theorem outgoing_notified {task : RoundTask} (h : task.outgoing = none) (v : View) :
    (task.notified cfg view v).outgoing = none := by
  cases task with
  | recvRoundChange | recvPrepare | recvCommit =>
    simp only [notified]
    split
    · split <;> rfl
    · rfl
  | recvProposal =>
    simp only [notified]
    split <;> rfl
  | _ => exact h

/-- The await points at which a message is built. -/
def Builds : RoundTask → IBFTMessage → Prop
  | .start, .proposal _ | .takeRoundChanges _, .proposal _ => True
  | .getProposal _, .prepare _ | .getProposalAgain, .prepare _ => True
  | .countPrepares _ _, .commit _ => True
  | _, _ => False

/-- A step that comes to broadcast a message has built it. -/
theorem builds_of_step {task : RoundTask} {s : TaskStep RoundTask} {m : IBFTMessage}
    (hs : task.step cfg env view runState msgs = some s) (hm : s.task.outgoing = some m) :
    task.Builds m := by
  cases task with
  | start =>
    cases hs
    simp only [goto, pollStart, buildAndPropose, propose] at hm
    repeat' split at hm
    all_goals cases hm
    all_goals trivial
  | takeRoundChanges rx =>
    cases hs
    simp only [goto, proposeFromRoundChanges, buildAndPropose, propose] at hm
    repeat' split at hm
    all_goals cases hm
    all_goals trivial
  | getProposal | getProposalAgain =>
    cases hs
    simp only [prepareDigest] at hm
    split at hm <;> cases hm
    trivial
  | countPrepares digest rx =>
    cases hs
    simp only [goto, prepareCounted] at hm
    split at hm <;> cases hm
    trivial
  | takeSeals digest rx =>
    cases hs
    simp only [goto, sealsTaken] at hm
    repeat' split at hm
    all_goals cases hm
  | recvRoundChange | recvProposal | recvPrepare | recvCommit =>
    rcases step_of_waiting hs rfl with ⟨-, why, -, rfl⟩ | ⟨v, -, rfl⟩
    · cases hm
    · simp only [goto] at hm
      rw [outgoing_notified (by rfl)] at hm
      cases hm
  | broadcastProposal | broadcastPrepare | broadcastCommit | addProposal | addPrepare
  | addCommit =>
    cases hs
    cases hm
  | finished | failed | panicked => cases hs

end RoundTask

end Tonic
