/-
# A node comes to rest

Between two messages from the network, a node can only do so much: whatever order its tasks,
its handler and its timers are scheduled in, it takes finitely many steps.  In particular no
wait loop spins on its notifications, and no two tasks wake each other for ever.

The measure has four levels.  The message that waits to be added counts most, since adding it
may notify every task.  Then comes the phase of the run: rounds only go up, up to `maxRound`,
and each ends.  Then the stage of the round task, which is left for good whenever the task adds
a message.  The last level is what the three tasks have not read or looked at yet: within a
stage nothing is notified any more.
-/
import Tonic.Settling
import Tonic.StoreStep
import Tonic.CountingLoops
import Tonic.ModelCrypto

namespace Tonic

open Transition

variable {cfg : Config} {msgs msgs' : ConsensusMessages} {view : View} {env : Env}
  {runState : RunState}

/-! ## Unread notifications -/

/-- How many notifications the receiver has not read. -/
def Channel.unread (ch : Channel) (rx : Receiver) : ℕ := ch.sent.length - rx

theorem Channel.unread_subscribe (ch : Channel) : ch.unread ch.subscribe = 0 := Nat.sub_self _

theorem Channel.unread_notified {ch : Channel} {rx : Receiver} {v : View}
    (h : ch.recv rx = .notified v) : ch.unread rx = ch.unread (rx + 1) + 1 := by
  have hlt : rx + 1 ≤ ch.sent.length := (Channel.pendingAt_notified (v := v) h).1
  show ch.sent.length - rx = ch.sent.length - (rx + 1) + 1
  exact (Nat.sub_add_cancel (Nat.sub_pos_of_lt hlt)).symm.trans (by rw [Nat.sub_sub])

/-- Nothing was notified. -/
structure Silent (msgs msgs' : ConsensusMessages) : Prop where
  proposal : msgs'.proposalTx = msgs.proposalTx
  prepare : msgs'.prepareTx = msgs.prepareTx
  commit : msgs'.commitTx = msgs.commitTx
  roundChange : msgs'.roundChangeTx = msgs.roundChangeTx

namespace Silent

theorem refl (msgs : ConsensusMessages) : Silent msgs msgs := ⟨rfl, rfl, rfl, rfl⟩

theorem query (v : View) (f : ProposalMessageSigned → Except IBFTError Unit) :
    Silent msgs (msgs.getValidProposalDigest v f).2 := by
  unfold ConsensusMessages.getValidProposalDigest
  split
  · split <;> exact refl _
  · split <;> exact ⟨rfl, rfl, rfl, rfl⟩

theorem takeSeals (v : View) (f : CommitMessageSigned → Bool) (quorum : ℕ) :
    Silent msgs (msgs.takeValidCommitSeals env v f quorum).2 := by
  unfold ConsensusMessages.takeValidCommitSeals
  simp only
  split <;> exact ⟨rfl, rfl, rfl, rfl⟩

theorem takeRoundChanges (v : View) (f : RoundChangeMessageSigned → Bool) (quorum : ℕ) :
    Silent msgs (msgs.takeValidRoundChangeMessages env v f quorum).2 := by
  unfold ConsensusMessages.takeValidRoundChangeMessages
  simp only
  split <;> exact ⟨rfl, rfl, rfl, rfl⟩

end Silent

/-! ## The round task -/

namespace RoundTask

/-- The stages of the round task, counted down.  The two await points of a wait loop are one
stage. -/
def stage : RoundTask → ℕ
  | .start => 9
  | .takeRoundChanges _ | .recvRoundChange _ _ => 8
  | .getProposal _ | .recvProposal _ => 8
  | .broadcastProposal _ | .getProposalAgain => 7
  | .addProposal _ | .broadcastPrepare _ => 6
  | .addPrepare _ => 5
  | .countPrepares _ _ | .recvPrepare _ _ _ => 4
  | .broadcastCommit _ => 3
  | .addCommit _ => 2
  | .takeSeals _ _ | .recvCommit _ _ _ => 1
  | .finished _ | .failed _ | .panicked _ => 0

/-- What is left to do in a wait loop.  A query follows a notification, and another notification
follows a query. -/
def work (msgs : ConsensusMessages) : RoundTask → ℕ
  | .takeRoundChanges rx => 2 * msgs.roundChangeTx.unread rx + 1
  | .recvRoundChange rx _ => 2 * msgs.roundChangeTx.unread rx
  | .getProposal rx => 2 * msgs.proposalTx.unread rx + 1
  | .recvProposal rx => 2 * msgs.proposalTx.unread rx
  | .countPrepares _ rx => 2 * msgs.prepareTx.unread rx + 1
  | .recvPrepare _ rx _ => 2 * msgs.prepareTx.unread rx
  | .takeSeals _ rx => 2 * msgs.commitTx.unread rx + 1
  | .recvCommit _ rx _ => 2 * msgs.commitTx.unread rx
  | _ => 0

theorem work_of_silent (h : Silent msgs msgs') (task : RoundTask) :
    task.work msgs' = task.work msgs := by
  unfold work
  rw [h.proposal, h.prepare, h.commit, h.roundChange]

/-- What a step leaves: a later stage, or less to do in the same one. -/
def Advances (msgs : ConsensusMessages) (task : RoundTask) (s : TaskStep RoundTask) : Prop :=
  s.task.stage < task.stage ∨
    (s.task.stage = task.stage ∧ Silent msgs s.messages ∧
      s.task.work s.messages < task.work msgs)

theorem stage_propose (rawBlock : RawBlock) (rcc : Option RoundChangeCertificate) :
    (propose cfg view rawBlock rcc).stage ≤ 7 := by
  unfold propose
  split <;> simp [stage]

theorem stage_buildAndPropose (rcc : Option RoundChangeCertificate) :
    (buildAndPropose cfg env view rcc).stage ≤ 7 := by
  unfold buildAndPropose
  split
  · simp [stage]
  · exact stage_propose _ _

theorem stage_pollStart : (pollStart cfg env view msgs).stage ≤ 8 := by
  unfold pollStart
  split
  · split
    · exact (stage_buildAndPropose _).trans (by omega)
    · exact le_rfl
  · exact le_rfl

theorem stage_proposeFromRoundChanges (roundChanges : Option (List RoundChangeMessageSigned)) :
    (proposeFromRoundChanges cfg env view roundChanges).stage ≤ 7 := by
  unfold proposeFromRoundChanges
  split
  · simp [stage]
  · split
    · simp [stage]
    · exact stage_propose _ _
    · exact stage_buildAndPropose _

theorem stage_sealsReady (seals : Option CommitSeals) : (sealsReady seals).stage = 0 := by
  cases seals <;> rfl

/-- A query that sends the task to wait in the same loop. -/
theorem advances_of_wait {task wait : RoundTask} {actions : List Action}
    (hstage : wait.stage = task.stage) (hsilent : Silent msgs msgs')
    (hwork : wait.work msgs < task.work msgs) :
    Advances msgs task { task := wait, messages := msgs', runState, actions } := by
  right
  refine ⟨hstage, hsilent, ?_⟩
  rw [← work_of_silent hsilent wait] at hwork
  exact hwork

/-- A notification that keeps the task in its loop. -/
theorem advances_of_recv {task again wait wait' : RoundTask} {ch : Channel} {rx : Receiver}
    {v : View} {p q : Prop} [Decidable p] [Decidable q]
    (hrecv : ch.recv rx = .notified v) (htask : task.work msgs = 2 * ch.unread rx)
    (hagain : again.stage = task.stage ∧ again.work msgs = 2 * ch.unread (rx + 1) + 1)
    (hwait : wait.stage = task.stage ∧ wait.work msgs = 2 * ch.unread (rx + 1))
    (hwait' : wait'.stage = task.stage ∧ wait'.work msgs = 2 * ch.unread (rx + 1)) :
    Advances msgs task
      (goto runState msgs (if p then if q then again else wait else wait')) := by
  have hunread := Channel.unread_notified hrecv
  right
  refine ⟨?_, .refl msgs, ?_⟩
  · show (if p then if q then again else wait else wait').stage = task.stage
    split
    · split
      · exact hagain.1
      · exact hwait.1
    · exact hwait'.1
  · show (if p then if q then again else wait else wait').work msgs < task.work msgs
    rw [htask, hunread]
    split
    · split
      · rw [hagain.2]
        omega
      · rw [hwait.2]
        omega
    · rw [hwait'.2]
      omega

/-- **A step of the round task** goes on to a later stage or works off its wait loop. -/
theorem advances_of_step {task : RoundTask} {s : TaskStep RoundTask}
    (hs : task.step cfg env view runState msgs = some s) : Advances msgs task s := by
  cases task with
  | start =>
    cases hs
    left
    exact Nat.lt_succ_of_le stage_pollStart
  | broadcastProposal | broadcastPrepare | broadcastCommit =>
    cases hs
    left
    simp [stage]
  | addProposal | addPrepare | addCommit =>
    cases hs
    left
    simp [goto, stage]
  | takeRoundChanges rx =>
    cases hs
    let quorum := cfg.validatorManager.quorum view.height
    let taken := msgs.takeValidRoundChangeMessages env view (roundChangeVerifyFn cfg view.height)
      quorum
    -- A query notifies nobody, so as much is unread as before.
    have hsilent : Silent msgs taken.2 := .takeRoundChanges _ _ _
    show Advances msgs _ (goto runState taken.2 (if taken.1.2 < quorum then
      .recvRoundChange rx taken.1.2 else proposeFromRoundChanges cfg env view taken.1.1))
    split
    next =>
      exact advances_of_wait rfl hsilent (Nat.lt_succ_self _)
    next =>
      left
      exact Nat.lt_succ_of_le (stage_proposeFromRoundChanges _)
  | getProposal rx =>
    cases hs
    let result := msgs.getValidProposalDigest view (proposalVerifyFn cfg env view)
    have hsilent : Silent msgs result.2 := .query _ _
    show Advances msgs (.getProposal rx)
      { task := prepareDigest cfg view (.recvProposal rx) result.1
        messages := result.2, runState, actions := blockChecks cfg env msgs view }
    unfold prepareDigest
    split
    next =>
      exact advances_of_wait rfl hsilent (Nat.lt_succ_self _)
    next =>
      left
      simp [stage]
    next =>
      left
      simp [stage]
  | getProposalAgain =>
    cases hs
    left
    show (prepareDigest cfg view (.panicked _) _).stage < 7
    unfold prepareDigest
    split <;> simp [stage]
  | countPrepares digest rx =>
    cases hs
    show Advances msgs _ (goto runState _ (prepareCounted cfg view digest rx _))
    unfold prepareCounted
    split
    next =>
      exact advances_of_wait rfl ⟨rfl, rfl, rfl, rfl⟩ (Nat.lt_succ_self _)
    next =>
      left
      simp [goto, stage]
  | takeSeals digest rx =>
    cases hs
    let taken := msgs.takeValidCommitSeals env view (fun m => m.proposedBlockDigest = digest)
      (cfg.validatorManager.quorum view.height)
    have hsilent : Silent msgs taken.2 := .takeSeals _ _ _
    show Advances msgs _ (goto runState taken.2 (sealsTaken cfg view digest rx taken.1))
    rw [sealsTaken_eq]
    split
    next =>
      exact advances_of_wait rfl hsilent (Nat.lt_succ_self _)
    next =>
      left
      show (sealsReady taken.1.1).stage < 1
      rw [stage_sealsReady]
      exact Nat.one_pos
  | recvProposal rx =>
    rcases step_of_waiting hs rfl with ⟨-, why, -, rfl⟩ | ⟨v, hrecv, rfl⟩
    · left
      simp [goto, stage]
    · have hunread := Channel.unread_notified hrecv
      show Advances msgs _ (goto runState msgs (if v = view then _ else _))
      split
      next =>
        left
        simp [goto, stage]
      next =>
        right
        refine ⟨rfl, .refl msgs, ?_⟩
        simp only [goto, work, hunread]
        omega
  | recvRoundChange | recvPrepare | recvCommit =>
    rcases step_of_waiting hs rfl with ⟨-, why, -, rfl⟩ | ⟨v, hrecv, rfl⟩
    · left
      simp [goto, stage]
    · exact advances_of_recv hrecv rfl ⟨rfl, rfl⟩ ⟨rfl, rfl⟩ ⟨rfl, rfl⟩
  | finished | failed | panicked => cases hs

end RoundTask

/-! ## The monitors -/

namespace FutureRccTask

/-- What the monitor has not looked at.  A scan still has the rounds below its index in front of
it, and all notifications. -/
def work (msgs : ConsensusMessages) : FutureRccTask → ℕ
  | .start => roundArraySize + 4
  | .countByRound rx => 2 * msgs.roundChangeTx.unread rx + (roundArraySize + 3)
  | .scan rx _ idx => 2 * msgs.roundChangeTx.unread rx + (idx + 2)
  | .recv rx _ => 2 * msgs.roundChangeTx.unread rx + 1
  | .recount rx _ _ => 2 * msgs.roundChangeTx.unread rx + 2
  | .sent _ | .panicked _ => 0

theorem work_of_silent (h : Silent msgs msgs') (task : FutureRccTask) :
    task.work msgs' = task.work msgs := by
  unfold work
  rw [h.roundChange]

theorem work_scanBelow (rx : Receiver) (counts : List ℕ) (k : ℕ) :
    (scanBelow cfg view rx counts k).work msgs < 2 * msgs.roundChangeTx.unread rx + (k + 2) := by
  unfold scanBelow
  simp only
  split
  next idx hscan =>
    obtain ⟨-, hlt, -⟩ := nextScan_some hscan
    show 2 * msgs.roundChangeTx.unread rx + (idx + 2) < _
    omega
  next =>
    show 2 * msgs.roundChangeTx.unread rx + 1 < _
    omega

/-- **A step of the monitor** has less in front of it, and notifies nobody. -/
theorem work_of_step {task : FutureRccTask} {s : TaskStep FutureRccTask}
    (hs : task.step cfg view runState msgs = some s) :
    Silent msgs s.messages ∧ s.task.work s.messages < task.work msgs := by
  suffices h : Silent msgs s.messages ∧ s.task.work msgs < task.work msgs from
    ⟨h.1, by rw [work_of_silent h.1]; exact h.2⟩
  cases task with
  | start =>
    cases hs
    refine ⟨.refl msgs, ?_⟩
    show 2 * msgs.roundChangeTx.unread msgs.roundChangeTx.subscribe + (roundArraySize + 3) <
      roundArraySize + 4
    rw [Channel.unread_subscribe]
    omega
  | countByRound rx =>
    simp only [step] at hs
    split at hs
    · cases hs
      exact ⟨.refl msgs, Nat.succ_pos _⟩
    next counts hcounts =>
      cases hs
      refine ⟨.refl msgs, (work_scanBelow rx counts roundArraySize).trans ?_⟩
      simp only [work]
      omega
  | scan rx counts idx =>
    cases hs
    refine ⟨⟨rfl, rfl, rfl, rfl⟩, ?_⟩
    show (if _ then _ else _ : FutureRccTask).work msgs < _
    split
    · exact Nat.succ_pos _
    · exact work_scanBelow rx _ idx
  | recv rx counts =>
    simp only [step] at hs
    split at hs
    · cases hs
    · cases hs
      exact ⟨.refl msgs, Nat.succ_pos _⟩
    next newView hrecv =>
      -- A notification counts twice: it may lead to one query more.
      have hunread := Channel.unread_notified hrecv
      split at hs
      next =>
        split at hs
        · cases hs
          exact ⟨.refl msgs, Nat.succ_pos _⟩
        · cases hs
          refine ⟨.refl msgs, ?_⟩
          show (if _ then _ else _ : FutureRccTask).work msgs < _
          split <;> (simp only [work, hunread]; omega)
      next =>
        cases hs
        refine ⟨.refl msgs, ?_⟩
        simp only [goto, work, hunread]
        omega
  | recount rx counts newView =>
    cases hs
    refine ⟨⟨rfl, rfl, rfl, rfl⟩, ?_⟩
    show (if _ then _ else _ : FutureRccTask).work msgs < _
    split
    · exact Nat.succ_pos _
    · exact Nat.lt_succ_self _
  | sent | panicked => cases hs

end FutureRccTask

namespace FutureProposalTask

/-- What the monitor has not looked at, as for round changes. -/
def work (msgs : ConsensusMessages) : FutureProposalTask → ℕ
  | .start => roundArraySize + 4
  | .hasByRound rx => 2 * msgs.proposalTx.unread rx + (roundArraySize + 3)
  | .scan rx _ idx => 2 * msgs.proposalTx.unread rx + (idx + 2)
  | .recv rx => 2 * msgs.proposalTx.unread rx + 1
  | .verify rx _ => 2 * msgs.proposalTx.unread rx + 2
  | .sent _ | .panicked _ => 0

theorem work_of_silent (h : Silent msgs msgs') (task : FutureProposalTask) :
    task.work msgs' = task.work msgs := by
  unfold work
  rw [h.proposal]

theorem work_scanBelow (rx : Receiver) (present : List Bool) (k : ℕ) :
    (scanBelow view rx present k).work msgs < 2 * msgs.proposalTx.unread rx + (k + 2) := by
  unfold scanBelow
  split
  next idx hscan =>
    obtain ⟨-, hlt, -⟩ := nextScan_some hscan
    show 2 * msgs.proposalTx.unread rx + (idx + 2) < _
    omega
  next =>
    show 2 * msgs.proposalTx.unread rx + 1 < _
    omega

theorem work_verifyFuture {newView : View} {next : FutureProposalTask} {k : ℕ} (hk : 0 < k)
    (hnext : next.work msgs < k) :
    (verifyFuture cfg env runState msgs newView next).task.work msgs < k := by
  unfold verifyFuture
  simp only
  split
  · exact hk
  · exact hnext

/-- **A step of the monitor** has less in front of it, and notifies nobody. -/
theorem work_of_step {task : FutureProposalTask} {s : TaskStep FutureProposalTask}
    (hs : task.step cfg env view runState msgs = some s) :
    Silent msgs s.messages ∧ s.task.work s.messages < task.work msgs := by
  suffices h : Silent msgs s.messages ∧ s.task.work msgs < task.work msgs from
    ⟨h.1, by rw [work_of_silent h.1]; exact h.2⟩
  cases task with
  | start =>
    cases hs
    refine ⟨.refl msgs, ?_⟩
    show 2 * msgs.proposalTx.unread msgs.proposalTx.subscribe + (roundArraySize + 3) <
      roundArraySize + 4
    rw [Channel.unread_subscribe]
    omega
  | hasByRound rx =>
    simp only [step] at hs
    split at hs
    · cases hs
      exact ⟨.refl msgs, Nat.succ_pos _⟩
    next present hpresent =>
      cases hs
      refine ⟨.refl msgs, (work_scanBelow rx present roundArraySize).trans ?_⟩
      simp only [work]
      omega
  | scan rx present idx =>
    cases hs
    exact ⟨.query _ _, work_verifyFuture (Nat.succ_pos _) (work_scanBelow rx present idx)⟩
  | recv rx =>
    simp only [step] at hs
    split at hs
    · cases hs
    · cases hs
      exact ⟨.refl msgs, Nat.succ_pos _⟩
    next newView hrecv =>
      have hunread := Channel.unread_notified hrecv
      cases hs
      refine ⟨.refl msgs, ?_⟩
      show (if _ then _ else _ : FutureProposalTask).work msgs < _
      split <;> (simp only [work, hunread]; omega)
  | verify rx newView =>
    cases hs
    exact ⟨.query _ _, work_verifyFuture (Nat.succ_pos _) (Nat.lt_succ_self _)⟩
  | sent | panicked => cases hs

end FutureProposalTask

/-! ## The phases of a run -/

namespace Run

/-- The phases of a run, counted down: the round first, then the phase within it. -/
def phaseRank (run : Run) : ℕ :=
  let rounds := roundArraySize - run.round.toNat
  match run.phase with
  | .addOwnRoundChange _ => 10 * rounds + 9
  | .select => 10 * rounds + 8
  | .timeoutTakeProposal => 10 * rounds + 3
  | .timeoutTakePrepares _ => 10 * rounds + 2
  | .broadcastRoundChange _ => 10 * rounds + 1
  | .takeFinalProposal _ => 3
  | .broadcastBlock _ => 2
  | .prune _ => 1
  | .returned _ | .panicked _ => 0

/-- A later round has fewer rounds after it. -/
theorem phaseRank_enterRound (cfg : Config) (run : Run) {round : UInt8} {k : ℕ}
    (hlt : round.toNat < roundArraySize → 10 * (roundArraySize - round.toNat) + 9 < k)
    (hk : 0 < k) : (run.enterRound cfg round).phaseRank < k := by
  unfold enterRound
  split
  next => exact hk
  next hle =>
    have hround := hlt (toNat_lt_roundArraySize (UInt8.not_lt.mp hle))
    have hselect : 10 * (roundArraySize - round.toNat) + 8 < k := by omega
    simp only
    split
    · exact hselect
    · split
      · exact hselect
      · split
        · exact hround
        · exact hselect

/-- The stage of the round task; before it is spawned and after it is aborted there is none. -/
def stage (run : Run) : ℕ := (run.roundTask.map RoundTask.stage).getD 0

/-- What the three tasks have not read or looked at. -/
def work (msgs : ConsensusMessages) (run : Run) : ℕ :=
  (run.roundTask.map (RoundTask.work msgs)).getD 0 +
    (run.futureProposalTask.map (FutureProposalTask.work msgs)).getD 0 +
    (run.futureRccTask.map (FutureRccTask.work msgs)).getD 0

variable {run run' : Run} {ev : Event} {K : Knowledge}

theorem toNat_round_le (h : run.Inv cfg K) : run.round.toNat < roundArraySize :=
  toNat_lt_roundArraySize h.round_le

/-- What a step of a run leaves: a later phase, or a later stage in the same phase, or less
work in the same stage. -/
structure Advances (msgs msgs' : ConsensusMessages) (run run' : Run) : Prop where
  phase_le : run'.phaseRank ≤ run.phaseRank
  stage_le : run'.phaseRank = run.phaseRank → run'.stage ≤ run.stage
  work_lt : run'.phaseRank = run.phaseRank → run'.stage = run.stage →
    run'.work msgs' < run.work msgs

theorem Advances.of_phase (h : run'.phaseRank < run.phaseRank) : Advances msgs msgs' run run' where
  phase_le := h.le
  stage_le heq := absurd heq h.ne
  work_lt heq := absurd heq h.ne

theorem Advances.round {task : RoundTask} {s : TaskStep RoundTask}
    (htask : run.roundTask = some task) (hs : task.Advances msgs s) :
    Advances msgs s.messages run
      { run with roundTask := some s.task, runState := s.runState, log := run.log ++ s.actions } where
  phase_le := le_rfl
  stage_le _ := by
    simp only [stage, htask, Option.map_some, Option.getD_some]
    rcases hs with hlt | ⟨heq, -, -⟩
    · exact hlt.le
    · exact heq.le
  work_lt _ hstage := by
    simp only [stage, htask, Option.map_some, Option.getD_some] at hstage
    rcases hs with hlt | ⟨-, hsilent, hlt⟩
    · exact absurd hstage hlt.ne
    · simp only [work, htask, Option.map_some, Option.getD_some]
      rw [funext (FutureProposalTask.work_of_silent hsilent),
        funext (FutureRccTask.work_of_silent hsilent)]
      omega

theorem Advances.futureProposal {task : FutureProposalTask} {s : TaskStep FutureProposalTask}
    (htask : run.futureProposalTask = some task)
    (hs : Silent msgs s.messages ∧ s.task.work s.messages < task.work msgs) :
    Advances msgs s.messages run
      { run with futureProposalTask := some s.task, log := run.log ++ s.actions } where
  phase_le := le_rfl
  stage_le _ := le_rfl
  work_lt _ _ := by
    obtain ⟨hsilent, hlt⟩ := hs
    simp only [work, htask, Option.map_some, Option.getD_some]
    rw [funext (RoundTask.work_of_silent hsilent), funext (FutureRccTask.work_of_silent hsilent)]
    omega

theorem Advances.futureRcc {task : FutureRccTask} {s : TaskStep FutureRccTask}
    (htask : run.futureRccTask = some task)
    (hs : Silent msgs s.messages ∧ s.task.work s.messages < task.work msgs) :
    Advances msgs s.messages run
      { run with futureRccTask := some s.task, log := run.log ++ s.actions } where
  phase_le := le_rfl
  stage_le _ := le_rfl
  work_lt _ _ := by
    obtain ⟨hsilent, hlt⟩ := hs
    simp only [work, htask, Option.map_some, Option.getD_some]
    rw [funext (RoundTask.work_of_silent hsilent),
      funext (FutureProposalTask.work_of_silent hsilent)]
    omega

/-- A jump goes to a later round. -/
theorem Advances.jump (hinv : run.Inv cfg K) (hselect : run.phase = .select) {round : UInt8}
    (hlt : run.round < round) : Advances msgs msgs' run (run.abort.enterRound cfg round) := by
  have hround := toNat_round_le hinv
  have hlater := UInt8.lt_iff_toNat_lt.mp hlt
  apply of_phase
  rw [show run.phaseRank = 10 * (roundArraySize - run.round.toNat) + 8 by
    rw [phaseRank, hselect]]
  apply phaseRank_enterRound
  · intro hlast
    omega
  · omega

end Run

variable {run run' : Run} {ev : Event} {K : Knowledge}

/-- **Every step of a run advances it.** -/
theorem RunStep.advances (h : RunStep cfg msgs run ev msgs' run') (hinv : run.Inv cfg K) :
    Run.Advances msgs msgs' run run' := by
  have hround := Run.toNat_round_le hinv
  -- The rank of the phase that the step leaves is known in each case.
  have hrank : ∀ {phase : RunPhase}, run.phase = phase →
      run.phaseRank = Run.phaseRank { run with phase := phase } := by
    intro phase hphase
    rw [← hphase]
  cases h with
  | round htask hs => exact .round htask (RoundTask.advances_of_step hs)
  | futureProposal htask hs => exact .futureProposal htask (FutureProposalTask.work_of_step hs)
  | futureRcc htask hs => exact .futureRcc htask (FutureRccTask.work_of_step hs)
  | addOwnRoundChange hphase | finalProposalMissing hphase | takeFinalProposal hphase
  | prune hphase | timeoutProposalMissing hphase | timeoutTakeProposal hphase =>
    apply Run.Advances.of_phase
    rw [hrank hphase]
    simp [Run.phaseRank]
  | broadcastBlock hphase hnext =>
    apply Run.Advances.of_phase
    rw [hrank hphase]
    rcases hnext with rfl | ⟨why, rfl⟩ <;> simp [Run.phaseRank]
  | timeoutTakePrepares hphase hnext =>
    apply Run.Advances.of_phase
    rw [hrank hphase]
    rcases hnext with ⟨why, rfl⟩ | ⟨-, rfl⟩ <;> simp [Run.phaseRank]
  | broadcastRoundChange hphase =>
    have hnext := UInt8.lt_iff_toNat_lt.mp (lt_add_one_of_le_maxRound hinv.round_le)
    apply Run.Advances.of_phase
    rw [hrank hphase]
    apply Run.phaseRank_enterRound
    · intro hlast
      simp only [Run.phaseRank]
      omega
    · simp only [Run.phaseRank]
      omega
  | cancel hphase | timeoutCommit hphase | timeoutEarly hphase =>
    apply Run.Advances.of_phase
    rw [hrank hphase]
    simp [Run.phaseRank, Run.abort]
  | roundFinished hphase =>
    apply Run.Advances.of_phase
    rw [hrank hphase]
    simp only [Run.phaseRank]
    omega
  | futureProposalReady hphase htask => exact .jump hinv hphase (hinv.proposalTask _ htask).1
  | futureRccReady hphase htask => exact .jump hinv hphase (hinv.rccTask _ htask).1

/-! ## Nodes -/

/-- The events that need nothing from outside: not a message from the network and not a call of
`run_height`. -/
def Event.Internal : Event → Prop
  | .receive _ | .runHeight _ => False
  | _ => True

variable {n n' : Node}

/-- The measure of a node. -/
def Node.measure (n : Node) : Levels :=
  levels n.pending.toList.length ((n.run.map Run.phaseRank).getD 0) ((n.run.map Run.stage).getD 0)
    ((n.run.map (Run.work n.messages)).getD 0)

/-- **One internal step** decreases the measure. -/
theorem Node.Inv.measure_lt (h : n.Inv cfg) (hown : ev.Internal) (hstep : NodeStep cfg n ev n') :
    n'.measure < n.measure := by
  cases hstep with
  | receive | runHeight => exact absurd hown id
  | addPending hpending =>
    apply levels_lt_first
    rw [hpending]
    exact Nat.one_pos
  | @run ev run run' msgs height hrun hrunstep =>
    have hadv := hrunstep.advances (h.run run hrun)
    simp only [measure, hrun, Option.map_some, Option.getD_some]
    rcases Nat.lt_or_eq_of_le hadv.phase_le with hphase | hphase
    · exact levels_lt_second rfl hphase
    · rcases Nat.lt_or_eq_of_le (hadv.stage_le hphase) with hstage | hstage
      · exact levels_lt_third rfl hphase hstage
      · exact levels_lt_fourth rfl hphase hstage (hadv.work_lt hphase hstage)

theorem Node.ends_of_reachable {height : UInt64}
    (h : Reachable (Node.step cfg) (Node.init cfg height) n) :
    Ends (Node.step cfg) Event.Internal n :=
  ends_of_measure (I := Node.Inv cfg) Node.measure (fun _ _ _ hinv _ hstep => hinv.step hstep)
    (fun _ _ _ hinv hown hstep => hinv.measure_lt hown (nodeStep_of_step hstep))
    (Node.inv_of_reachable h)

/-- **No livelock**: left alone in a reachable state, a node takes finitely many steps, whatever
order its tasks, its handler and its timers are scheduled in. -/
theorem no_livelock {height : UInt64} (h : Reachable (Node.step cfg) (Node.init cfg height) n)
    (nodes : ℕ → Node) (hzero : nodes 0 = n) :
    ∃ i, ¬ OwnStep (Node.step cfg) Event.Internal (nodes i) (nodes (i + 1)) :=
  (Node.ends_of_reachable h).not_forever nodes hzero

/-- A validator that has begun a height and is left alone polls its tasks until they wait. -/
def pollingNode (i : ℕ) : Node :=
  (exec (Node.step fourConfig) (Node.init fourConfig 0) (waitingEvents.take (i + 1))).getD
    waitingNode

theorem exec_pollingNode {i : ℕ} (hi : i < 7) :
    exec (Node.step fourConfig) (Node.init fourConfig 0) (waitingEvents.take (i + 1)) =
      some (pollingNode i) := by
  have hsome : ∀ i < 7, (exec (Node.step fourConfig) (Node.init fourConfig 0)
      (waitingEvents.take (i + 1))).isSome = true := by
    decide +kernel
  obtain ⟨n, hn⟩ := Option.isSome_iff_exists.mp (hsome i hi)
  rw [pollingNode, hn, Option.getD_some]

theorem pollingNode_ownStep {i : ℕ} (hi : i < 6) :
    OwnStep (Node.step fourConfig) Event.Internal (pollingNode i) (pollingNode (i + 1)) := by
  have hlt : i + 1 < waitingEvents.length := by
    show i + 1 < 7
    omega
  obtain ⟨n, hn, hstep⟩ := exec_take_succ hlt (exec_pollingNode hlt)
  rw [exec_pollingNode (Nat.lt_of_succ_lt hlt)] at hn
  cases hn
  have hinternal : ∀ e ∈ waitingEvents.tail, e.Internal := by simp [waitingEvents, Event.Internal]
  exact ⟨_, hinternal _ (List.mem_of_getElem? (i := i) (by simp [hlt])), hstep⟩

/-- Its first six steps are its own, and not all that follow. -/
theorem no_livelock_polling :
    (∀ i < 6, OwnStep (Node.step fourConfig) Event.Internal (pollingNode i) (pollingNode (i + 1))) ∧
      ∃ i, ¬ OwnStep (Node.step fourConfig) Event.Internal (pollingNode i)
        (pollingNode (i + 1)) :=
  ⟨fun _ => pollingNode_ownStep,
    no_livelock ⟨_, exec_pollingNode (by decide)⟩ pollingNode rfl⟩

end Tonic
