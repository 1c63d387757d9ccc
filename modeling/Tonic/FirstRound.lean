/-
# A first round without trouble

What a run does when nothing goes wrong at its height: the node keeps up with its messages,
nobody cancels the run, the round does not time out, and the block service builds a block
and accepts it.  If the proposal that the node has stored for the first round is the one of
this block and no quorum asks for a later round, the run stays in the first round, votes for
the block only, and what its peers have sent for the round stays stored until the run has
its seals.
-/
import Tonic.Quiescence
import Tonic.CancelledRuns
import Tonic.RoundJumps
import Tonic.FirstMessage
import Tonic.Heights

namespace Tonic

open Transition

variable {cfg : Config} {n n' : Node} {run run' : Run} {ev : Event} {env : Env} {height : UInt64}
  {b : RawBlock} {msgs msgs' : ConsensusMessages} {K K' : Knowledge} {trusted : Address → Prop}

/-- The view in which a height begins. -/
def firstView (height : UInt64) : View := { height, round := 0 }

/-! ## Messages for the block -/

/-- The message is about the block in round 0. -/
def IBFTMessage.IsFor (c : Crypto) (b : RawBlock) : IBFTMessage → Prop
  | .proposal p =>
    p.proposedBlock = { rawBlock := b, round := 0 } ∧ p.proposedBlockDigest = digestBlock c b 0
  | .prepare m => m.proposedBlockDigest = digestBlock c b 0
  | .commit m => m.proposedBlockDigest = digestBlock c b 0
  | .roundChange _ => False

/-- The proposal stored for the first round is the one of the block. -/
def ProposesBlock (c : Crypto) (msgs : ConsensusMessages) (height : UInt64) (b : RawBlock) : Prop :=
  ∀ p, msgs.storedProposal (firstView height) = some p → (IBFTMessage.proposal p).IsFor c b

/-- The block service builds the block at the height, and accepts it. -/
def Env.Serves (env : Env) (height : UInt64) (b : RawBlock) : Prop :=
  env.buildBlock height = .ok b ∧ env.verifyBlock b = .ok ()

theorem ProposesBlock.getValidProposalDigest (h : ProposesBlock cfg.crypto msgs height b)
    (henv : env.Serves height b) :
    (msgs.getValidProposalDigest (firstView height)
        (proposalVerifyFn cfg env (firstView height))).1 = none ∨
      (msgs.getValidProposalDigest (firstView height)
        (proposalVerifyFn cfg env (firstView height))).1 = some (.ok (digestBlock cfg.crypto b 0)) := by
  have hround : (firstView height).round = 0 := rfl
  rw [ConsensusMessages.getValidProposalDigest, if_pos hround]
  cases hget : msgs.proposal0Messages.get? (firstView height).height with
  | none => exact Or.inl rfl
  | some p =>
    right
    obtain ⟨hblock, hdigest⟩ : (IBFTMessage.proposal p).IsFor cfg.crypto b := by
      apply h p
      rw [ConsensusMessages.storedProposal, if_pos hround]
      exact hget
    have hchecked : p.verifyBlockDigest cfg.crypto = true := by
      show decide (p.proposedBlock.digest cfg.crypto = p.proposedBlockDigest) = true
      rw [hblock, hdigest]
      exact decide_eq_true rfl
    have hverify : proposalVerifyFn cfg env (firstView height) p = .ok () := by
      rw [proposalVerifyFn, if_pos hround, proposal0VerifyFn, hchecked, hblock]
      simp [henv.2]
    simp only [hverify, ← hdigest]
    rfl

/-! ## The round task -/

/-- The round task goes on with the block, and without an error. -/
structure RoundTask.Calm (c : Crypto) (b : RawBlock) (task : RoundTask) : Prop where
  waits : task.awaitsRoundChanges = false
  digest : ∀ d, task.digest? = some d → d = digestBlock c b 0
  proposal : ∀ p, task = .broadcastProposal p ∨ task = .addProposal p →
    (IBFTMessage.proposal p).IsFor c b
  not_failed : ∀ err, task ≠ .failed err
  fits : task ≠ .panicked serializationMessage

namespace RoundTask

/-- A task that waits for a proposal or has ended. -/
theorem Calm.of_quiet {c : Crypto} {task : RoundTask} (hwaits : task.awaitsRoundChanges = false)
    (hdigest : task.digest? = none) (hproposal : ∀ p, task ≠ .broadcastProposal p ∧ task ≠ .addProposal p)
    (hfailed : ∀ err, task ≠ .failed err) (hfits : task ≠ .panicked serializationMessage) :
    task.Calm c b where
  waits := hwaits
  digest d hd := by
    rw [hdigest] at hd
    cases hd
  proposal p hp := by
    rcases hp with hp | hp
    · exact absurd hp (hproposal p).1
    · exact absurd hp (hproposal p).2
  not_failed := hfailed
  fits := hfits

/-- A task that is driven by the digest of the block. -/
theorem Calm.of_digest {c : Crypto} {task : RoundTask} (hwaits : task.awaitsRoundChanges = false)
    (hdigest : task.digest? = some (digestBlock c b 0)) : task.Calm c b where
  waits := hwaits
  digest d hd := by
    rw [hdigest] at hd
    exact (Option.some.inj hd).symm
  proposal p hp := by
    rcases hp with rfl | rfl <;> cases hdigest
  not_failed err heq := by
    rw [heq] at hdigest
    cases hdigest
  fits heq := by
    rw [heq] at hdigest
    cases hdigest

theorem calm_start (c : Crypto) : (start : RoundTask).Calm c b :=
  .of_quiet rfl rfl (by simp) (by simp) (by simp)

theorem calm_pollStart (henv : env.Serves height b) (hlen : b.length < 2 ^ 32) :
    (pollStart cfg env (firstView height) msgs).Calm cfg.crypto b := by
  unfold pollStart
  split
  · rw [if_pos (show (firstView height).round = 0 from rfl), buildAndPropose,
      show env.buildBlock (firstView height).height = .ok b from henv.1]
    simp only
    rw [propose, if_neg (not_le.mpr hlen)]
    refine ⟨rfl, (fun d hd => by cases hd), ?_, by simp, by simp⟩
    intro p hp
    rcases hp with hp | hp
    · cases hp
      exact ⟨rfl, rfl⟩
    · cases hp
  · exact .of_quiet rfl rfl (by simp) (by simp) (by simp)

theorem calm_prepareDigest (h : ProposesBlock cfg.crypto msgs height b) (henv : env.Serves height b)
    {missing : RoundTask} (hmissing : missing.Calm cfg.crypto b) :
    (prepareDigest cfg (firstView height) missing (msgs.getValidProposalDigest (firstView height)
      (proposalVerifyFn cfg env (firstView height))).1).Calm cfg.crypto b := by
  rcases h.getValidProposalDigest henv with hnone | hsome
  · rw [hnone]
    exact hmissing
  · rw [hsome]
    exact .of_digest rfl rfl

/-- **One step of the round task** in the first round goes on with the block. -/
theorem Calm.step {task : RoundTask} {runState : RunState} {s : TaskStep RoundTask}
    (h : task.Calm cfg.crypto b)
    (hs : task.step cfg env (firstView height) runState msgs = some s)
    (hstored : ProposesBlock cfg.crypto msgs height b) (henv : env.Serves height b)
    (hlen : b.length < 2 ^ 32) : s.task.Calm cfg.crypto b := by
  -- A lagging receiver panics with another text than the serializer.
  have hrecv : ∀ {why : String}, why ∈ recvMessages → (panicked why).Calm cfg.crypto b := by
    intro why hwhy
    refine .of_quiet rfl rfl (by simp) (by simp) ?_
    intro heq
    rw [RoundTask.panicked.inj heq] at hwhy
    revert hwhy
    decide
  cases task with
  | start =>
    cases hs
    exact calm_pollStart henv hlen
  | takeRoundChanges | recvRoundChange => cases h.waits
  | broadcastProposal p =>
    cases hs
    refine ⟨rfl, (fun d hd => by cases hd), ?_, by simp, by simp⟩
    rintro q (heq | heq)
    · cases heq
    · cases heq
      exact h.proposal p (Or.inl rfl)
  | addProposal p =>
    cases hs
    have hp := h.proposal p (Or.inr rfl)
    exact .of_digest rfl (congrArg some hp.2)
  | getProposal rx =>
    cases hs
    exact calm_prepareDigest hstored henv (.of_quiet rfl rfl (by simp) (by simp) (by simp))
  | getProposalAgain =>
    cases hs
    refine calm_prepareDigest hstored henv (.of_quiet rfl rfl (by simp) (by simp) ?_)
    intro heq
    exact absurd (RoundTask.panicked.inj heq) (by decide)
  | recvProposal rx =>
    rcases step_of_waiting hs rfl with ⟨-, why, hwhy, rfl⟩ | ⟨v, -, rfl⟩
    · exact hrecv hwhy
    · simp only [goto, notified]
      split <;> exact .of_quiet rfl rfl (by simp) (by simp) (by simp)
  | broadcastPrepare m | broadcastCommit m =>
    cases hs
    exact .of_digest rfl (congrArg some (h.digest _ rfl))
  | addPrepare m | addCommit m =>
    cases hs
    exact .of_digest rfl (congrArg some (h.digest _ rfl))
  | countPrepares d rx =>
    cases hs
    have hd := h.digest d rfl
    simp only [goto, prepareCounted]
    split <;> exact .of_digest rfl (congrArg some hd)
  | recvPrepare d rx count | recvCommit d rx count =>
    have hd := h.digest d rfl
    rcases step_of_waiting hs rfl with ⟨-, why, hwhy, rfl⟩ | ⟨v, -, rfl⟩
    · exact hrecv hwhy
    · simp only [goto, notified]
      repeat' split
      all_goals exact .of_digest rfl (congrArg some hd)
  | takeSeals d rx =>
    cases hs
    have hd := h.digest d rfl
    simp only [goto, sealsTaken]
    split
    · exact .of_digest rfl (congrArg some hd)
    · split
      · refine .of_quiet rfl rfl (by simp) (by simp) ?_
        intro heq
        exact absurd (RoundTask.panicked.inj heq) (by decide)
      · exact .of_quiet rfl rfl (by simp) (by simp) (by simp)
  | finished | failed | panicked => cases hs

end RoundTask

/-! ## The run -/

/-- The run is in its round, or ends it with the block. -/
def RunPhase.Calm (b : RawBlock) : RunPhase → Prop
  | .select | .takeFinalProposal _ => True
  | .broadcastBlock block | .prune block | .returned (some block) =>
    block.rawBlock = b ∧ block.proof.round = 0
  | _ => False

/-- The run does not leave its first round, and has committed to the block when it ends it. -/
structure Run.Calm (cfg : Config) (b : RawBlock) (K : Knowledge) (run : Run) : Prop where
  round_eq : run.round = 0
  phase : run.phase.Calm b
  task : ∀ task, run.roundTask = some task → task.Calm cfg.crypto b
  /-- The monitors have found no later round to go to. -/
  monitors : ∀ round, run.futureProposalTask ≠ some (.sent round) ∧
    run.futureRccTask ≠ some (.sent round)
  committed : run.phase ≠ .select →
    .broadcast (.commit (cfg.ownCommit run.view (digestBlock cfg.crypto b 0))) ∈ K.history

theorem Run.Calm.view_eq (h : run.Calm cfg b K) (hheight : run.height = height) :
    run.view = firstView height := by
  rw [Run.view, h.round_eq, hheight]
  rfl

theorem Run.Calm.mono (hK : K ≤ K') (h : run.Calm cfg b K) : run.Calm cfg b K' :=
  ⟨h.round_eq, h.phase, h.task, h.monitors, fun hne => hK.1 (h.committed hne)⟩

theorem Run.calm_start (hquorum : cfg.validatorManager.quorum height ≠ 0) :
    (Run.start cfg msgs height).Calm cfg b K := by
  unfold Run.start
  simp only
  rw [if_neg hquorum, Run.enterRound, if_neg (by decide)]
  simp only
  rw [if_pos trivial]
  refine ⟨rfl, trivial, ?_, by simp, fun hne => absurd rfl hne⟩
  intro task htask
  cases htask
  exact RoundTask.calm_start _

/-- The events of a first round without trouble: no receiver lags, the run is neither cancelled nor
does it time out, and the block service serves the block. -/
structure Node.Undisturbed (height : UInt64) (b : RawBlock) (n : Node) (ev : Event) : Prop where
  keepsUp : n.KeepsUp ev
  patient : ∀ run, n.run = some run → run.height = height → ev ≠ .timeout ∧ ev ≠ .cancel
  served : ∀ env, ev.env? = some env → env.Serves height b

/-- What a node knows of its height while nothing goes wrong. -/
structure Node.Sheltered (cfg : Config) (trusted : Address → Prop) (height : UInt64) (b : RawBlock)
    (n : Node) : Prop where
  known : n.AssertionsKnown cfg
  quorum_ne : cfg.validatorManager.quorum height ≠ 0
  drive : ∀ run, n.run = some run → run.height = height → run.Drive cfg n.messages
  proposal : ProposesBlock cfg.crypto n.messages height b
  prepare : ∀ a m, trusted a → n.messages.prepareMessages.Stores (firstView height, a) m →
    (IBFTMessage.prepare m).IsFor cfg.crypto b
  commit : ∀ a m, trusted a → n.messages.commitMessages.Stores (firstView height, a) m →
    (IBFTMessage.commit m).IsFor cfg.crypto b
  /-- The node has spoken for the block only. -/
  speaks : ∀ m, .broadcast m ∈ n.history → m.view.height = height →
    m.view.round = 0 ∧ m.IsFor cfg.crypto b
  /-- No quorum asks for a later round. -/
  noQuorum : ∀ v : View, v.height = height → v.round ≠ 0 → ∀ f,
    (ConsensusMessages.viewEntries (n.messages.retainVerified v f) v).length <
      cfg.validatorManager.quorum height
  /-- No proposal of a later round is accepted. -/
  noProposal : ∀ v : View, v.height = height → v.round ≠ 0 → ∀ env d,
    (n.messages.getValidProposalDigest v (proposalVerifyFn cfg env v)).1 ≠ some (.ok d)
  once : n.RunsOnce height
  height_le : ∀ run ∈ n.runs, run.height ≤ height
  finalized : n.height < height ∨ ∃ run ∈ n.runs, run.height = height ∧ run.phase.updated = true

/-- A run that is not done finds its height new. -/
theorem Node.Sheltered.height_lt (h : n.Sheltered cfg trusted height b) (hrun : run ∈ n.runs)
    (hheight : run.height = height) (hphase : run.phase.updated = false) : n.height < height := by
  rcases h.finalized with hlt | ⟨run', hrun', hheight', hupdated⟩
  · exact hlt
  · rw [h.once.eq hrun hrun' hheight hheight', hupdated] at hphase
    cases hphase

theorem UInt8.ne_zero_of_lt {r r' : UInt8} (h : r < r') : r' ≠ 0 := by
  rintro rfl
  exact absurd h (UInt8.not_lt.mpr UInt8.zero_le)

/-- **One step of the monitors** finds no later round to go to. -/
theorem Node.Sheltered.monitors_runStep (h : n.Sheltered cfg trusted height b)
    (hrun : n.run = some run) (hheight : run.height = height) (hcalm : run.Calm cfg b n.knowledge)
    (hstep : RunStep cfg n.messages run ev msgs' run') (round : UInt8) :
    run'.futureProposalTask ≠ some (.sent round) ∧ run'.futureRccTask ≠ some (.sent round) := by
  have hinv := h.known.store.inv.run run hrun
  have hold := hcalm.monitors round
  -- Monitors that have just been spawned have found nothing yet.
  have hspawned : run'.Spawned → run'.futureProposalTask ≠ some (.sent round) ∧
      run'.futureRccTask ≠ some (.sent round) := by
    intro hnew
    refine ⟨?_, ?_⟩
    · intro htask
      cases hnew.futureProposal _ htask
    · intro htask
      cases hnew.futureRcc _ htask
  cases hstep with
  | @futureProposal env task s htask hs =>
    refine ⟨?_, hold.2⟩
    intro heq
    -- The monitor would have accepted a proposal of a later round.
    have htaskInv := hinv.proposalTask task htask
    obtain ⟨v, d, rfl, hd, -⟩ := FutureProposalTask.sent_of_step htaskInv hs (Option.some.inj heq)
    have hlater := (FutureProposalTask.step_spec h.known.store.inv.round_le_of_storedProposal
      htaskInv hs).1
    rw [Option.some.inj heq] at hlater
    exact h.noProposal _ hheight (UInt8.ne_zero_of_lt hlater.1) env d hd
  | @futureRcc task s htask hs =>
    refine ⟨hold.1, ?_⟩
    intro heq
    -- The monitor would have counted a quorum of round changes.
    have hcount := FutureRccTask.sent_of_step hs (Option.some.inj heq)
      (fun rx counts v hrecount => h.known.store.recounts run hrun rx counts v (hrecount ▸ htask))
    have hlater := (FutureRccTask.step_spec (hinv.rccTask task htask) hs).1
    rw [Option.some.inj heq] at hlater
    have hfew := h.noQuorum { height := run.height, round } hheight (UInt8.ne_zero_of_lt hlater.1)
      (roundChangeVerifyFn cfg run.height)
    rw [← hheight] at hfew
    exact absurd hcount (not_le.mpr hfew)
  | broadcastRoundChange | futureProposalReady | futureRccReady =>
    exact hspawned (Run.spawned_enterRound cfg _ _)
  | cancel | roundFinished | timeoutCommit | timeoutEarly => exact hspawned (Run.spawned_abort run _)
  | _ => exact hold

/-- **One step of the run** leaves it in the first round. -/
theorem Node.Sheltered.calm_runStep (h : n.Sheltered cfg trusted height b) (hrun : n.run = some run)
    (hheight : run.height = height) (hcalm : run.Calm cfg b n.knowledge)
    (hev : n.Undisturbed height b ev) (hlen : b.length < 2 ^ 32) (hK : n.knowledge ≤ K')
    (hstep : RunStep cfg n.messages run ev msgs' run')
    (hnext : run.HandsOver ev → ∀ why, run'.phase ≠ .panicked why) : run'.Calm cfg b K' := by
  have hinv := h.known.store.inv.run run hrun
  have hview := hcalm.view_eq hheight
  have hold := hcalm.mono hK
  have hphase := hcalm.phase
  have hpatient := hev.patient run hrun hheight
  have hmonitors := h.monitors_runStep hrun hheight hcalm hstep
  cases hstep with
  | @round env task s htask hs =>
    rw [hview] at hs
    refine ⟨hold.round_eq, hold.phase, ?_, hmonitors, hold.committed⟩
    intro task' htask'
    cases htask'
    exact (hcalm.task task htask).step hs h.proposal (hev.served env rfl) hlen
  | futureProposal | futureRcc =>
    exact ⟨hold.round_eq, hold.phase, hold.task, hmonitors, hold.committed⟩
  | addOwnRoundChange hp | timeoutProposalMissing hp | timeoutTakeProposal hp
  | timeoutTakePrepares hp | broadcastRoundChange hp =>
    rw [hp] at hphase
    exact absurd hphase id
  | finalProposalMissing hp hnone =>
    exact absurd hnone
      (Run.Relies.stored (h.drive run hrun hheight) hinv (Or.inl ⟨_, hp⟩))
  | @takeFinalProposal env seals p hp hstored =>
    rw [hview] at hstored
    obtain ⟨hblock, -⟩ := h.proposal p hstored
    refine ⟨hold.round_eq, ?_, hold.task, hmonitors, fun _ => hold.committed (by simp [hp])⟩
    show (FinalizedBlock.new p.proposedBlock seals).rawBlock = b ∧
      (FinalizedBlock.new p.proposedBlock seals).proof.round = 0
    rw [hblock]
    exact ⟨rfl, rfl⟩
  | broadcastBlock hp hphase' =>
    rw [hp] at hphase
    refine ⟨hold.round_eq, ?_, hold.task, hmonitors, fun _ => hold.committed (by simp [hp])⟩
    rcases hphase' with rfl | ⟨why, rfl⟩
    · exact hphase
    · exact absurd rfl (hnext ⟨_, _, rfl, hp⟩ why)
  | prune hp =>
    rw [hp] at hphase
    exact ⟨hold.round_eq, hphase, hold.task, hmonitors, fun _ => hold.committed (by simp [hp])⟩
  | cancel => exact absurd rfl hpatient.2
  | timeoutCommit | timeoutEarly => exact absurd rfl hpatient.1
  | roundFinished hp htask =>
    refine ⟨hold.round_eq, trivial, (fun task htask => by cases htask), hmonitors, fun _ => ?_⟩
    obtain ⟨-, -, d, -, hsent, -⟩ := hinv.select_of_task htask
    -- The commit behind the seals is for the block.
    have hfor := (h.speaks _ hsent (by rw [← hheight]; rfl)).2
    have hd : d = digestBlock cfg.crypto b 0 := hfor
    rw [hd] at hsent
    exact hK.1 hsent
  | futureProposalReady hp htask => exact absurd htask (hcalm.monitors _).1
  | futureRccReady hp htask => exact absurd htask (hcalm.monitors _).2

/-- **One step of the node** leaves the run of the height in the first round. -/
theorem Node.Sheltered.calm_step (h : n.Sheltered cfg trusted height b)
    (hcalm : ∀ run, n.run = some run → run.height = height → run.Calm cfg b n.knowledge)
    (hev : n.Undisturbed height b ev) (hlen : b.length < 2 ^ 32)
    (hstep : n.step cfg ev = some n') :
    ∀ run, n'.run = some run → run.height = height → run.Calm cfg b n'.knowledge := by
  have hcases := nodeStep_of_step hstep
  have hK := hcases.knowledge_le
  intro run' hrun' hheight'
  cases hcases with
  | receive | addPending => exact (hcalm run' hrun' hheight').mono hK
  | @runHeight height' past hpast =>
    cases hrun'
    rw [(Run.start_same cfg n.messages height').1] at hheight'
    rw [hheight']
    exact Run.calm_start h.quorum_ne
  | @run ev run new msgs newHeight hrun hrunstep =>
    cases hrun'
    have hheight : run.height = height := hrunstep.same.1.symm.trans hheight'
    refine h.calm_runStep hrun hheight (hcalm run hrun hheight) hev hlen hK hrunstep ?_
    rintro ⟨env, block, rfl, hphase⟩ why hwhy
    obtain ⟨run₁, hrun₁, -, -, -, hcases⟩ := Node.broadcastBlock_of_step hrun hphase hstep
    cases hrun₁
    rcases hcases with ⟨-, -, hprune⟩ | ⟨hle, -⟩
    · rw [hwhy] at hprune
      cases hprune
    · refine absurd ?_ hle
      rw [hheight]
      exact h.height_lt (List.mem_append_right _ (Option.mem_toList.mpr hrun)) hheight
        (by rw [hphase]; rfl)

/-! ## What the node says -/

/-- A message that a step adds to what the node has broadcast is one that its run was about to
broadcast. -/
theorem Node.Inv.broadcast_cases (hinv : n.Inv cfg) (h : NodeStep cfg n ev n') {m : IBFTMessage}
    (hm : .broadcast m ∈ n'.history) :
    .broadcast m ∈ n.history ∨ ∃ run, n.run = some run ∧
      ((∃ task, run.roundTask = some task ∧ task.outgoing = some m) ∨
        ∃ rc, m = .roundChange rc ∧ run.phase = .broadcastRoundChange rc) := by
  obtain ⟨r, hr, hlog⟩ := List.mem_flatMap.mp hm
  cases h with
  | receive | addPending => exact Or.inl hm
  | @runHeight height past hpast =>
    left
    rcases List.mem_append.mp hr with hr | hr
    · subst hpast
      exact Node.mem_history hr hlog
    · cases Option.mem_toList.mp hr
      rcases (Node.inv_start cfg n.knowledge n.messages height).2 with hnil | hentered
      · rw [hnil] at hlog
        cases hlog
      · rw [hentered] at hlog
        cases List.mem_singleton.mp hlog
  | @run ev run run' msgs height hrun hrunstep =>
    rcases List.mem_append.mp hr with hr | hr
    · exact Or.inl (Node.mem_history (List.mem_append_left _ hr) hlog)
    · cases Option.mem_toList.mp hr
      rcases hrunstep.broadcast_mem_log hinv.round_le_of_storedProposal (hinv.run run hrun) hlog with
        hlog | hout | hround
      · left
        exact Node.mem_history (List.mem_append_right _ (Option.mem_toList.mpr hrun)) hlog
      · exact Or.inr ⟨run, hrun, Or.inl hout⟩
      · exact Or.inr ⟨run, hrun, Or.inr hround⟩

/-- What a task is about to broadcast is of its view. -/
theorem Run.Inv.view_of_outgoing (h : run.Inv cfg K) {task : RoundTask}
    (htask : run.roundTask = some task) {m : IBFTMessage} (hout : task.outgoing = some m) :
    m.view = run.view := by
  have hinv := (h.select_of_task htask).2
  cases task with
  | broadcastProposal | broadcastPrepare | broadcastCommit =>
    cases hout
    exact hinv.2.2.2
  | _ => cases hout

theorem RoundTask.Calm.isFor_of_outgoing {c : Crypto} {task : RoundTask} (h : task.Calm c b)
    {m : IBFTMessage} (hout : task.outgoing = some m) : m.IsFor c b := by
  cases task with
  | broadcastProposal p =>
    cases hout
    exact h.proposal p (Or.inl rfl)
  | broadcastPrepare | broadcastCommit =>
    cases hout
    exact h.digest _ rfl
  | _ => cases hout

/-- **One step of the node** speaks for the block, if at all. -/
theorem Node.Sheltered.speaks_step (h : n.Sheltered cfg trusted height b)
    (hcalm : ∀ run, n.run = some run → run.height = height → run.Calm cfg b n.knowledge)
    (hstep : n.step cfg ev = some n') :
    ∀ m, .broadcast m ∈ n'.history → m.view.height = height →
      m.view.round = 0 ∧ m.IsFor cfg.crypto b := by
  intro m hm hheight
  have hinv := h.known.store.inv
  rcases hinv.broadcast_cases (nodeStep_of_step hstep) hm with
    hold | ⟨run, hrun, ⟨task, htask, hout⟩ | ⟨rc, rfl, hphase⟩⟩
  · exact h.speaks m hold hheight
  · have hview := (hinv.run run hrun).view_of_outgoing htask hout
    have hrunCalm := hcalm run hrun (by rw [hview] at hheight; exact hheight)
    refine ⟨?_, (hrunCalm.task task htask).isFor_of_outgoing hout⟩
    rw [hview]
    exact hrunCalm.round_eq
  · have hphaseInv := (hinv.run run hrun).phase
    rw [hphase] at hphaseInv
    obtain ⟨-, -, hview⟩ := hphaseInv
    have hrunHeight : run.height = height := by
      rw [← hheight, show (IBFTMessage.roundChange rc).view = rc.view from rfl, hview]
      rfl
    have hcalmPhase := (hcalm run hrun hrunHeight).phase
    rw [hphase] at hcalmPhase
    exact absurd hcalmPhase id

end Tonic
