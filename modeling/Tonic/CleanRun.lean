/-
# Runs that start without own messages

A run is clean when the store it began with held no message of the node itself for its
height.  If besides no one else may propose in a view in which the node proposes, then
every proposal of the node that is stored for the height is one the run has broadcast,
the slot of its own proposals is free, and its rounds stay driven.
-/
import Tonic.Drive

namespace Tonic

open Transition

variable {cfg : Config} {n n' : Node} {msgs msgs' : ConsensusMessages} {run run' : Run}
  {ev : Event} {K K' : Knowledge}

/-! ## What all steps have in common -/

/-- Logs grow at the end. -/
theorem RunStep.log_append (h : RunStep cfg msgs run ev msgs' run') :
    ∃ actions, run'.log = run.log ++ actions := by
  have hsame : ∃ actions, run.log = run.log ++ actions := ⟨[], (List.append_nil _).symm⟩
  cases h with
  | round | futureProposal | futureRcc | broadcastBlock => exact ⟨_, rfl⟩
  | broadcastRoundChange =>
    rcases Run.log_enterRound cfg _ _ with heq | ⟨-, heq⟩
    · exact ⟨_, heq⟩
    · exact ⟨_, heq.trans (List.append_assoc _ _ _)⟩
  | futureProposalReady | futureRccReady =>
    rcases Run.log_enterRound cfg run.abort _ with heq | ⟨-, heq⟩
    · rw [heq]
      exact hsame
    · exact ⟨_, heq⟩
  | _ => exact hsame

theorem RunStep.votesAt_subset (h : RunStep cfg msgs run ev msgs' run') (v : View) :
    votesAt run.log v ⊆ votesAt run'.log v := by
  obtain ⟨actions, hlog⟩ := h.log_append
  rw [hlog, votesAt_append]
  exact List.subset_append_left _ _

/-- What a step may add to the log of a run. -/
inductive Logged (run : Run) : Action → Prop where
  | entered (v : View) : Logged run (.entered v)
  | vote {m : IBFTMessage} {vote : Vote} (hvote : m.vote? = some vote) : Logged run (.broadcast m)
  | verifiedBlock (height : UInt64) (b : RawBlock) : Logged run (.verifiedBlock height b)
  | finalized {block : FinalizedBlock} (hphase : run.phase = .broadcastBlock block) :
      Logged run (.finalized run.height block)
  | roundChange {rc : RoundChangeMessageSigned} (hphase : run.phase = .broadcastRoundChange rc) :
      Logged run (.broadcast (.roundChange rc))

theorem Logged.of_blockChecks {env : Env} {v : View} {a : Action}
    (h : a ∈ RoundTask.blockChecks cfg env msgs v) : Logged run a := by
  rcases RoundTask.blockChecks_shape cfg msgs env v with hnil | ⟨b, hb⟩
  · rw [hnil] at h
    cases h
  · rw [hb] at h
    rw [List.mem_singleton.mp h]
    exact .verifiedBlock _ _

theorem RoundTask.broadcast_notMem_blockChecks (env : Env) (v : View) (m : IBFTMessage) :
    .broadcast m ∉ blockChecks cfg env msgs v := by
  intro hmem
  rcases blockChecks_shape cfg msgs env v with hnil | ⟨b, hb⟩
  · rw [hnil] at hmem
    cases hmem
  · rw [hb] at hmem
    cases List.mem_singleton.mp hmem

theorem Logged.of_round {task : RoundTask} {env : Env} {view : View} {runState : RunState}
    {s : TaskStep RoundTask} (hstep : task.step cfg env view runState msgs = some s) {a : Action}
    (h : a ∈ s.actions) : Logged run a := by
  cases task with
  | start | takeRoundChanges | addProposal | addPrepare | countPrepares | addCommit | takeSeals =>
    cases hstep
    cases h
  | broadcastProposal | broadcastPrepare | broadcastCommit =>
    cases hstep
    rw [List.mem_singleton.mp h]
    exact .vote rfl
  | getProposal | getProposalAgain =>
    cases hstep
    exact .of_blockChecks h
  | recvRoundChange | recvProposal | recvPrepare | recvCommit =>
    simp only [RoundTask.step] at hstep
    split at hstep <;> cases hstep <;> cases h
  | finished | failed | panicked => cases hstep

theorem Logged.of_futureProposal {task : FutureProposalTask} {env : Env} {view : View}
    {runState : RunState} {s : TaskStep FutureProposalTask}
    (hstep : task.step cfg env view runState msgs = some s) {a : Action}
    (h : a ∈ s.actions) : Logged run a := by
  cases task with
  | start =>
    cases hstep
    cases h
  | scan | verify =>
    cases hstep
    exact .of_blockChecks h
  | hasByRound | recv =>
    simp only [FutureProposalTask.step] at hstep
    split at hstep <;> cases hstep <;> cases h
  | sent | panicked => cases hstep

theorem FutureRccTask.actions_of_step {task : FutureRccTask} {view : View} {runState : RunState}
    {s : TaskStep FutureRccTask} (hstep : task.step cfg view runState msgs = some s) :
    s.actions = [] := by
  cases task with
  | start | scan | recount =>
    cases hstep
    rfl
  | countByRound | recv =>
    simp only [FutureRccTask.step] at hstep
    repeat' split at hstep
    all_goals cases hstep
    all_goals rfl
  | sent | panicked => cases hstep

/-- What is new in a log is of one of these kinds. -/
theorem RunStep.logged (h : RunStep cfg msgs run ev msgs' run') {a : Action}
    (hmem : a ∈ run'.log) : a ∈ run.log ∨ Logged run a := by
  have henter : ∀ {run₁ : Run} {round : UInt8}, a ∈ (run₁.enterRound cfg round).log →
      a ∈ run₁.log ∨ Logged run a := by
    intro run₁ round hmem
    rcases Run.log_enterRound cfg run₁ round with heq | ⟨-, heq⟩
    · exact Or.inl (heq ▸ hmem)
    · rw [heq] at hmem
      refine (List.mem_append.mp hmem).imp id fun hmem => ?_
      rw [List.mem_singleton.mp hmem]
      exact .entered _
  cases h with
  | round htask hs => exact (List.mem_append.mp hmem).imp id (.of_round hs)
  | futureProposal htask hs => exact (List.mem_append.mp hmem).imp id (.of_futureProposal hs)
  | futureRcc htask hs =>
    rw [FutureRccTask.actions_of_step hs, List.append_nil] at hmem
    exact Or.inl hmem
  | broadcastBlock hphase =>
    refine (List.mem_append.mp hmem).imp id fun hmem => ?_
    rw [List.mem_singleton.mp hmem]
    exact .finalized hphase
  | broadcastRoundChange hphase =>
    rcases henter hmem with hmem | hlogged
    · refine (List.mem_append.mp hmem).imp id fun hmem => ?_
      rw [List.mem_singleton.mp hmem]
      exact .roundChange hphase
    · exact Or.inr hlogged
  | futureProposalReady | futureRccReady => exact henter hmem
  | _ => exact Or.inl hmem

/-- The round task broadcasts the message it holds, and no other. -/
theorem RoundTask.outgoing_of_mem {task : RoundTask} {env : Env} {view : View}
    {runState : RunState} {s : TaskStep RoundTask} {m : IBFTMessage}
    (hstep : task.step cfg env view runState msgs = some s) (hmem : .broadcast m ∈ s.actions) :
    task.outgoing = some m := by
  cases task with
  | start | takeRoundChanges | addProposal | addPrepare | countPrepares | addCommit | takeSeals =>
    cases hstep
    cases hmem
  | broadcastProposal | broadcastPrepare | broadcastCommit =>
    cases hstep
    cases List.mem_singleton.mp hmem
    rfl
  | getProposal | getProposalAgain =>
    cases hstep
    exact absurd hmem (broadcast_notMem_blockChecks _ _ _)
  | recvRoundChange | recvProposal | recvPrepare | recvCommit =>
    simp only [step] at hstep
    split at hstep <;> cases hstep <;> cases hmem
  | finished | failed | panicked => cases hstep

/-- A proposal is built from a new block in round 0, or from taken round changes. -/
theorem RoundTask.broadcastProposal_of_step {task : RoundTask} {env : Env} {view : View}
    {runState : RunState} {s : TaskStep RoundTask} {p : ProposalMessageSigned}
    (hstep : task.step cfg env view runState msgs = some s)
    (hs : s.task = .broadcastProposal p) :
    (task = .start ∧ view.round = 0 ∧ ∃ b, env.buildBlock view.height = .ok b ∧
        p = cfg.ownProposal view b none) ∨
      ((∃ rx, task = .takeRoundChanges rx) ∧ cfg.validatorManager.quorum view.height ≤
        (ConsensusMessages.viewEntries
          (msgs.retainVerified view (roundChangeVerifyFn cfg view.height)) view).length) := by
  cases task with
  | start =>
    refine Or.inl ⟨rfl, ?_⟩
    cases hstep
    simp only [goto, pollStart] at hs
    split at hs
    · split at hs
      next hround =>
        -- A failed build and an oversized block lead to no broadcast.
        simp only [buildAndPropose] at hs
        split at hs
        · cases hs
        next b hb =>
          simp only [propose] at hs
          split at hs
          · cases hs
          · cases hs
            exact ⟨hround, b, hb, rfl⟩
      next => cases hs
    · cases hs
  | takeRoundChanges rx =>
    refine Or.inr ⟨⟨rx, rfl⟩, ?_⟩
    cases hstep
    simp only [goto] at hs
    split at hs
    · cases hs
    next hlen =>
      rw [← msgs.takeValidRoundChangeMessages_count env view _
        (cfg.validatorManager.quorum view.height)]
      exact not_lt.mp hlen
  | _ => cases RoundTask.builds_of_step hstep (congrArg RoundTask.outgoing hs)

/-- Where a broadcast in the log of a run comes from. -/
theorem RunStep.broadcast_mem_log (h : RunStep cfg msgs run ev msgs' run')
    (hmax : ∀ v p, msgs.storedProposal v = some p → v.round ≤ maxRound) (hinv : run.Inv cfg K)
    {m : IBFTMessage} (hmem : .broadcast m ∈ run'.log) :
    .broadcast m ∈ run.log ∨
      (∃ task, run.roundTask = some task ∧ task.outgoing = some m) ∨
      ∃ rc, m = .roundChange rc ∧ run.phase = .broadcastRoundChange rc := by
  -- Entering a round logs no broadcast.
  have henter : ∀ {run₁ : Run} {round : UInt8},
      .broadcast m ∈ (run₁.enterRound cfg round).log → .broadcast m ∈ run₁.log := by
    intro run₁ round hmem
    rcases Run.log_enterRound cfg run₁ round with heq | ⟨-, heq⟩
    · exact heq ▸ hmem
    · rw [heq] at hmem
      simpa using hmem
  cases h with
  | round htask hs =>
    rcases List.mem_append.mp hmem with hmem | hmem
    · exact Or.inl hmem
    · exact Or.inr (Or.inl ⟨_, htask, RoundTask.outgoing_of_mem hs hmem⟩)
  | futureProposal htask hs =>
    rcases List.mem_append.mp hmem with hmem | hmem
    · exact Or.inl hmem
    · rcases (FutureProposalTask.step_spec hmax (hinv.proposalTask _ htask) hs).2 with
        ⟨hnil, -⟩ | ⟨v, -, hchecks, -⟩
      · rw [hnil] at hmem
        cases hmem
      · rw [hchecks] at hmem
        exact absurd hmem (RoundTask.broadcast_notMem_blockChecks _ _ _)
  | futureRcc htask hs =>
    rw [FutureRccTask.actions_of_step hs, List.append_nil] at hmem
    exact Or.inl hmem
  | broadcastBlock => exact Or.inl (by simpa using hmem)
  | broadcastRoundChange hphase =>
    rcases List.mem_append.mp (henter hmem) with hmem | hmem
    · exact Or.inl hmem
    · cases List.mem_singleton.mp hmem
      exact Or.inr (Or.inr ⟨_, rfl, hphase⟩)
  | futureProposalReady | futureRccReady => exact Or.inl (henter hmem)
  | _ => exact Or.inl hmem

/-- A step of a run adds no proposal but its own. -/
theorem RunStep.storedProposal (h : RunStep cfg msgs run ev msgs' run')
    (hmax : ∀ v p, msgs.storedProposal v = some p → v.round ≤ maxRound) (hinv : run.Inv cfg K)
    {v : View} {q : ProposalMessageSigned} (hq : msgs'.storedProposal v = some q) :
    msgs.storedProposal v = some q ∨ (run.roundTask = some (.addProposal q) ∧ v = q.view) := by
  cases h with
  | @round env task s htask hs =>
    -- Of all steps of the round task only this one adds a proposal.
    by_cases hadd : ∃ p, task = .addProposal p
    · obtain ⟨p, rfl⟩ := hadd
      cases hs
      change (msgs.addProposalMessage p cfg.address).storedProposal v = some q at hq
      rw [ConsensusMessages.storedProposal_addProposalMessage] at hq
      split at hq
      next hnew =>
        cases hq
        exact Or.inr ⟨htask, hnew.2⟩
      next => exact Or.inl hq
    · rw [RoundTask.storedProposal_step hs (fun p hp => hadd ⟨p, hp⟩)] at hq
      exact Or.inl hq
  | @futureProposal env task s htask hs =>
    rcases (FutureProposalTask.step_spec hmax (hinv.proposalTask task htask) hs).2 with
      ⟨-, hmsgs⟩ | ⟨w, -, -, hmsgs⟩
    · rw [hmsgs] at hq
      exact Or.inl hq
    · rw [hmsgs, ConsensusMessages.storedProposal_getValidProposalDigest] at hq
      exact Or.inl hq
  | @futureRcc task s htask hs =>
    rcases (FutureRccTask.step_spec (hinv.rccTask task htask) hs).2.2 with hmsgs | ⟨w, hmsgs⟩
    · rw [hmsgs] at hq
      exact Or.inl hq
    · rw [hmsgs] at hq
      exact Or.inl hq
  | addOwnRoundChange =>
    rw [ConsensusMessages.storedProposal_addRoundChangeMessage] at hq
    exact Or.inl hq
  | finalProposalMissing | takeFinalProposal | timeoutProposalMissing | timeoutTakeProposal =>
    exact Or.inl (ConsensusMessages.storedProposal_takeProposalMessage hq)
  | prune => exact Or.inl (ConsensusMessages.storedProposal_prune hq)
  | timeoutTakePrepares => exact Or.inl hq
  | _ => exact Or.inl hq

/-- What a node knows only grows. -/
theorem NodeStep.knowledge_le (h : NodeStep cfg n ev n') : n.knowledge ≤ n'.knowledge := by
  cases h with
  | receive => exact ⟨fun _ ha => ha, List.subset_cons_self _ _⟩
  | addPending => exact ⟨fun _ ha => ha, fun _ hm => hm⟩
  | runHeight hpast =>
    refine Knowledge.le_of_history ?_ rfl
    change n.history ⊆ Node.history _
    subst hpast
    rw [Node.history_of_run (n := { n with run := some (Run.start cfg n.messages _), past := n.runs })
      rfl]
    exact List.subset_append_left _ _
  | @run ev run run' msgs height hrun hstep =>
    obtain ⟨actions, hlog⟩ := hstep.log_append
    exact (Node.Advances.knowledge_le ⟨hrun, rfl, rfl, rfl, rfl, hlog⟩)

/-- A property of runs that a growing knowledge keeps, a new run has, and every step of the current
run keeps, is kept for all runs. -/
theorem NodeStep.forall_runs {P : Knowledge → Run → Prop}
    (h : NodeStep cfg n ev n') (hmono : ∀ {K K' run}, K ≤ K' → P K run → P K' run)
    (hstart : ∀ height, P n'.knowledge (Run.start cfg n.messages height))
    (hstep : ∀ run run', n.run = some run → n'.run = some run' →
      RunStep cfg n.messages run ev n'.messages run' → P n.knowledge run → P n'.knowledge run')
    (hold : ∀ run ∈ n.runs, P n.knowledge run) : ∀ run ∈ n'.runs, P n'.knowledge run := by
  have hK := h.knowledge_le
  intro run hmem
  cases h with
  | receive | addPending => exact hmono hK (hold run hmem)
  | runHeight hpast =>
    rcases List.mem_append.mp hmem with hmem | hmem
    · subst hpast
      exact hmono hK (hold run hmem)
    · cases Option.mem_toList.mp hmem
      exact hstart _
  | @run ev old new msgs height hrun hrunstep =>
    rcases List.mem_append.mp hmem with hmem | hmem
    · exact hmono hK (hold run (List.mem_append_left _ hmem))
    · cases Option.mem_toList.mp hmem
      refine hstep old _ hrun rfl hrunstep (hold old (List.mem_append_right _ ?_))
      rw [hrun]
      exact List.mem_singleton_self _

/-! ## Clean runs -/

variable (cfg) in
/-- The store holds no message of the node itself for the height. -/
structure NoOwnMessages (msgs : ConsensusMessages) (height : UInt64) : Prop where
  proposal : ∀ v p, v.height = height → msgs.storedProposal v = some p →
    p.recoverSigner cfg.crypto ≠ .ok cfg.address
  prepare : ∀ v m, v.height = height → ¬ msgs.prepareMessages.Stores (v, cfg.address) m
  commit : ∀ v m, v.height = height → ¬ msgs.commitMessages.Stores (v, cfg.address) m
  roundChange : ∀ v m, v.height = height → ¬ msgs.roundChangeMessages.Stores (v, cfg.address) m

variable (cfg) in
/-- Nobody else is a proposer in a view in which the node is one. -/
def SoleProposer : Prop :=
  ∀ v a, cfg.validatorManager.isProposer cfg.address v = true →
    cfg.validatorManager.isProposer a v = true → a = cfg.address

variable (cfg) in
/-- A view has at most one proposer. -/
def ValidatorManager.UniqueProposer (vm : ValidatorManager) : Prop :=
  ∀ v a b, vm.isProposer a v = true → vm.isProposer b v = true → a = b

theorem ValidatorManager.UniqueProposer.soleProposer
    (h : cfg.validatorManager.UniqueProposer) : SoleProposer cfg :=
  fun v _ hself ha => h v _ _ ha hself

variable (cfg) in
/-- Own proposals stored for the height are votes of the run. -/
def Run.Fresh (msgs : ConsensusMessages) (run : Run) : Prop :=
  ∀ v q, v.height = run.height → msgs.storedProposal v = some q →
    q.recoverSigner cfg.crypto = .ok cfg.address →
    .propose q.proposedBlockDigest ∈ votesAt run.log v

theorem OwnProposal.recoverSigner {p : ProposalMessageSigned} (h : OwnProposal cfg p) :
    p.recoverSigner cfg.crypto = .ok cfg.address := by
  obtain ⟨b, rcc, hown⟩ := h.eq_own
  rw [hown]
  exact ProposalMessage.recoverSigner_intoSigned _ _ _

theorem OwnProposal.verifyBlockDigest {p : ProposalMessageSigned} (h : OwnProposal cfg p) :
    p.verifyBlockDigest cfg.crypto = true := by
  obtain ⟨b, rcc, hown⟩ := h.eq_own
  rw [hown]
  exact ProposalMessage.verifyBlockDigest_new _ _ _ _ _

/-- The proposal stored for a view of the node is one it has broadcast. -/
theorem StoreInv.sent_of_proposer (hstore : StoreInv cfg K msgs) (hsole : SoleProposer cfg)
    {v : View} (hprop : cfg.validatorManager.isProposer cfg.address v = true)
    {q : ProposalMessageSigned} (hq : msgs.storedProposal v = some q) :
    .broadcast (.proposal q) ∈ K.history := by
  obtain ⟨rfl, a, horigin⟩ := hstore.proposal v q hq
  cases horigin with
  | peer _ hne _ hadm => exact absurd (hsole _ a hprop hadm) hne
  | own _ hsent => exact hsent

/-- Every proposal stored for a view of the node is its own. -/
theorem StoreInv.ownProposal_of_proposer (hstore : StoreInv cfg K msgs)
    (hactions : ∀ a ∈ K.history, ActionOk cfg K a) (hsole : SoleProposer cfg) {v : View}
    (hprop : cfg.validatorManager.isProposer cfg.address v = true) {q : ProposalMessageSigned}
    (hq : msgs.storedProposal v = some q) : OwnProposal cfg q :=
  hactions _ (hstore.sent_of_proposer hsole hprop hq)

theorem Run.Fresh.slotFree (h : run.Fresh cfg msgs) (hstore : StoreInv cfg K msgs)
    (hactions : ∀ a ∈ K.history, ActionOk cfg K a) (hsole : SoleProposer cfg)
    (hinv : run.Inv cfg K) (ev : Event) : run.SlotFree msgs ev := by
  cases ev with
  | round env =>
    intro p htask q hq
    obtain ⟨-, -, hvotes, hview, hsent⟩ := hinv.select_of_task htask
    have hown : OwnProposal cfg p := hactions _ hsent
    have hqown := hstore.ownProposal_of_proposer hactions hsole hown.isProposer hq
    have hmem := h p.view q (by rw [hview]; rfl) hq hqown.recoverSigner
    rw [hview, hvotes] at hmem
    simpa using hmem
  | _ => trivial

theorem Run.Fresh.step (h : run.Fresh cfg msgs)
    (hmax : ∀ v p, msgs.storedProposal v = some p → v.round ≤ maxRound) (hinv : run.Inv cfg K)
    (hstep : RunStep cfg msgs run ev msgs' run') : run'.Fresh cfg msgs' := by
  intro v q hheight hq hrec
  rw [hstep.same.1] at hheight
  refine hstep.votesAt_subset v ?_
  rcases hstep.storedProposal hmax hinv hq with hold | ⟨htask, rfl⟩
  · exact h v q hheight hold hrec
  · obtain ⟨-, -, hvotes, hview, -⟩ := hinv.select_of_task htask
    rw [hview, hvotes]
    exact List.mem_singleton_self _

variable (cfg) in
/-- What holds of a clean run and the store. -/
def Node.Clean (n : Node) : Prop :=
  ∀ run, n.run = some run → NoOwnMessages cfg run.initialMessages run.height →
    run.Fresh cfg n.messages ∧ run.Drive cfg n.messages

theorem Run.start_same (cfg : Config) (msgs : ConsensusMessages) (height : UInt64) :
    (Run.start cfg msgs height).height = height ∧
      (Run.start cfg msgs height).initialMessages = msgs := by
  unfold Run.start
  simp only
  split
  · exact ⟨rfl, rfl⟩
  · exact ⟨(Run.enterRound_same _ _ _).1, (Run.enterRound_same _ _ _).2.1⟩

theorem Run.start_drive (msgs : ConsensusMessages) (height : UInt64)
    (hinv : (Run.start cfg msgs height).Inv cfg K) :
    (Run.start cfg msgs height).Drive cfg msgs' := by
  unfold Run.start at hinv ⊢
  simp only at hinv ⊢
  split
  · exact .of_no_votes (by simp) (fun hp => False.elim hp)
  next hq =>
    rw [if_neg hq] at hinv
    exact Run.Drive.enterRound hinv

/-- A current run stays clean. -/
theorem Node.Clean.step (hsole : SoleProposer cfg) (h : n.Clean cfg) (hinv : n.Inv cfg)
    (hinv' : n'.Inv cfg) (hstep : NodeStep cfg n ev n') : n'.Clean cfg := by
  intro run hrun hclean
  cases hstep with
  | receive => exact h run hrun hclean
  | @addPending m sender hpending =>
    obtain ⟨hfresh, hdrive⟩ := h run hrun hclean
    refine ⟨fun v q hheight hq hrec => ?_,
      hdrive.of_storedProposal fun p hp => ConsensusMessages.storedProposal_addMessage_of_some hp⟩
    rcases ConsensusMessages.storedProposal_addMessage hq with hold | ⟨rfl, rfl⟩
    · exact hfresh v q hheight hold hrec
    · -- The handler admits no message of the node itself.
      obtain ⟨-, hne, hrec'⟩ := hinv.pending _ _ hpending
      rw [IBFTMessage.recoverSigner, hrec] at hrec'
      exact absurd (Except.ok.inj hrec').symm hne
  | @runHeight height past hpast =>
    cases hrun
    obtain ⟨hheight, hinitial⟩ := Run.start_same cfg n.messages height
    refine ⟨fun v q hv hq hrec => ?_, Run.start_drive _ _ (hinv'.run _ rfl)⟩
    rw [hinitial, hheight] at hclean
    exact absurd hrec (hclean.proposal v q (hv.trans hheight) hq)
  | @run ev old new msgs height hold hrunstep =>
    cases hrun
    obtain ⟨hheight, hinitial⟩ := hrunstep.same
    rw [hheight, hinitial] at hclean
    obtain ⟨hfresh, hdrive⟩ := h old hold hclean
    have hrunInv := hinv.run old hold
    exact ⟨hfresh.step hinv.round_le_of_storedProposal hrunInv hrunstep,
      hdrive.step hinv.store hinv.actions hinv.round_le_of_storedProposal hrunInv
        (hinv'.run run rfl) hrunstep
        (hfresh.slotFree hinv.store hinv.actions hsole hrunInv ev)⟩

/-! ## The first run of a height is clean -/

/-- A node that has not run a height has no own message for it in its store. -/
theorem Node.Inv.noOwnMessages (h : n.Inv cfg) {height : UInt64}
    (hnew : ∀ run ∈ n.runs, run.height ≠ height) : NoOwnMessages cfg n.messages height := by
  have hnone : ∀ m : IBFTMessage, m.view.height = height →
      Action.broadcast m ∉ n.history := by
    intro m hm hmem
    obtain ⟨run, hrun, hlog⟩ := List.mem_flatMap.mp hmem
    exact hnew run hrun (((h.logOk hrun).height_eq _ hlog).symm.trans hm)
  have horigin : ∀ m : IBFTMessage, m.view.height = height →
      ¬ Origin cfg n.knowledge m cfg.address := by
    intro m hm horigin
    cases horigin with
    | peer _ hne => exact hne rfl
    | own _ hsent => exact hnone m hm hsent
  refine ⟨fun v p hv hp hrec => ?_, fun v m hv hm => ?_, fun v m hv hm => ?_,
    fun v m hv hm => ?_⟩
  · obtain ⟨rfl, a, hp⟩ := h.store.proposal v p hp
    cases hp with
    | peer _ hne hrec' =>
      rw [IBFTMessage.recoverSigner, hrec] at hrec'
      exact hne (Except.ok.inj hrec').symm
    | own _ hsent => exact hnone (.proposal p) hv hsent
  · obtain ⟨rfl, hsent⟩ := h.store.prepare v _ m hm
    exact horigin (.prepare m) hv hsent
  · obtain ⟨rfl, hsent⟩ := h.store.commit v _ m hm
    exact horigin (.commit m) hv hsent
  · obtain ⟨m, flag⟩ := m
    obtain ⟨rfl, hsent⟩ := h.store.roundChange v _ m flag hm
    exact horigin (.roundChange m) hv hsent

/-- The heights of the runs with the stores they began with. -/
def Node.beginnings (n : Node) : List (UInt64 × ConsensusMessages) :=
  n.runs.map fun run => (run.height, run.initialMessages)

variable (cfg) in
/-- A run at a height that no earlier run had began on a store without own messages for it. -/
def FirstRunsClean (beginnings : List (UInt64 × ConsensusMessages)) : Prop :=
  ∀ earlier height msgs later, beginnings = earlier ++ (height, msgs) :: later →
    (∀ b ∈ earlier, b.1 ≠ height) → NoOwnMessages cfg msgs height

theorem FirstRunsClean.concat {bs : List (UInt64 × ConsensusMessages)} {height : UInt64}
    {msgs : ConsensusMessages} (h : FirstRunsClean cfg bs)
    (hnew : (∀ b ∈ bs, b.1 ≠ height) → NoOwnMessages cfg msgs height) :
    FirstRunsClean cfg (bs ++ [(height, msgs)]) := by
  intro earlier height' msgs' later heq hearlier
  rcases List.eq_nil_or_concat later with rfl | ⟨later, last, rfl⟩
  · obtain ⟨rfl, hlast⟩ := List.append_inj' heq rfl
    cases hlast
    exact hnew hearlier
  · rw [List.concat_eq_append, ← List.cons_append, ← List.append_assoc] at heq
    exact h earlier height' msgs' later (List.append_inj' heq rfl).1 hearlier

theorem FirstRunsClean.step (hinv : n.Inv cfg) (hstep : NodeStep cfg n ev n')
    (h : FirstRunsClean cfg n.beginnings) : FirstRunsClean cfg n'.beginnings := by
  cases hstep with
  | receive | addPending => exact h
  | @runHeight height past hpast =>
    subst hpast
    obtain ⟨hheight, hinitial⟩ := Run.start_same cfg n.messages height
    have hconcat := h.concat fun hnew : ∀ b ∈ n.beginnings, b.1 ≠ height =>
      hinv.noOwnMessages fun run hrun => hnew _ (List.mem_map.mpr ⟨run, hrun, rfl⟩)
    simpa [Node.beginnings, Node.runs, hheight, hinitial] using hconcat
  | @run ev old new msgs height hrun hrunstep =>
    obtain ⟨hheight, hinitial⟩ := hrunstep.same
    simpa [Node.beginnings, Node.runs, hrun, hheight, hinitial] using h

/-- The node has run the height once at most. -/
def Node.RunsOnce (n : Node) (height : UInt64) : Prop :=
  (n.runs.filter (fun run => run.height = height)).length ≤ 1

instance (n : Node) (height : UInt64) : Decidable (n.RunsOnce height) :=
  inferInstanceAs (Decidable (_ ≤ 1))

theorem Node.RunsOnce.eq {height : UInt64} (h : n.RunsOnce height) (hrun : run ∈ n.runs)
    (hrun' : run' ∈ n.runs) (hheight : run.height = height) (hheight' : run'.height = height) :
    run = run' := by
  have hmem : run ∈ n.runs.filter (fun run => run.height = height) := by simp [hrun, hheight]
  have hmem' : run' ∈ n.runs.filter (fun run => run.height = height) := by simp [hrun', hheight']
  rw [Node.RunsOnce] at h
  match hruns : n.runs.filter (fun run => run.height = height) with
  | [] =>
    rw [hruns] at hmem
    cases hmem
  | [only] =>
    rw [hruns] at hmem hmem'
    rw [List.mem_singleton.mp hmem, List.mem_singleton.mp hmem']
  | _ :: _ :: _ =>
    rw [hruns] at h
    simp at h

/-- **The only run of a height is clean.** -/
theorem Node.noOwnMessages_of_once {height : UInt64}
    (h : Reachable (Node.step cfg) (Node.init cfg height) n) (honce : n.RunsOnce run.height)
    (hrun : run ∈ n.runs) : NoOwnMessages cfg run.initialMessages run.height := by
  let Clean : Node → Prop := fun n => FirstRunsClean cfg n.beginnings
  have hinit : Clean (Node.init cfg height) := by
    intro earlier height msgs later heq
    simp [Node.beginnings, Node.runs, Node.init] at heq
  have hstep : ∀ n ev n', n.Inv cfg → n'.Inv cfg → Clean n → n.step cfg ev = some n' → Clean n' :=
    fun _ _ _ hinv _ hfirst hstep => hfirst.step hinv (nodeStep_of_step hstep)
  have hclean : Clean n := h.invariant_of (fun _ hs => Node.inv_of_reachable hs) hstep hinit
  obtain ⟨earlier, later, heq⟩ := List.append_of_mem hrun
  refine hclean (earlier.map fun r => (r.height, r.initialMessages)) _ _
    (later.map fun r => (r.height, r.initialMessages)) (by simp [Node.beginnings, heq]) ?_
  intro b hb hheight
  obtain ⟨r, hr, rfl⟩ := List.mem_map.mp hb
  -- An earlier run of the height would make two of them.
  have hpos : 0 < (earlier.filter (fun r => r.height = run.height)).length :=
    List.length_pos_of_mem (List.mem_filter.mpr ⟨hr, by simpa using hheight⟩)
  rw [Node.RunsOnce, heq, List.filter_append, List.length_append,
    List.filter_cons_of_pos (by simp), List.length_cons] at honce
  omega

end Tonic
