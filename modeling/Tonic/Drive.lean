/-
# The stored proposal of a running round

While a round is driven by a digest, the proposal stored for its view has that digest:
this is what lets a run take the block when the round ends.  It holds as long as the
node finds the slot of its own proposals vacant (or filled with the same digest),
which `SlotFree` says of a single step.  On a store without own messages, and with no
other proposer in the node's own views, every step is slot free.
-/
import Tonic.NodeInvariant

namespace Tonic

open Transition

variable (cfg : Config)

/-- The verify function accepts the proposal, for some answer of the block service. -/
def Acceptable (p : ProposalMessageSigned) : Prop :=
  ∃ env, proposalVerifyFn cfg env p.view p = .ok ()

/-- The proposal stored for the view has the digest; it has been accepted, unless the node proposes
in the view. -/
def Driven (msgs : ConsensusMessages) (view : View) (d : Digest) : Prop :=
  ∃ p, msgs.storedProposal view = some p ∧ p.proposedBlockDigest = d ∧
    (cfg.validatorManager.isProposer cfg.address view = false → Acceptable cfg p)

/-- The run may still take the proposal of its round. -/
def RunPhase.HoldsProposal : RunPhase → Prop
  | .select | .timeoutTakeProposal | .takeFinalProposal _ => True
  | _ => False

/-- The current round of the run is driven by the proposal stored for it. -/
structure Run.Drive (msgs : ConsensusMessages) (run : Run) : Prop where
  pending : ∀ m, run.roundTask = some (.broadcastPrepare m) →
    Driven cfg msgs run.view m.proposedBlockDigest
  prepared : run.phase.HoldsProposal → ∀ d, .prepare d ∈ votesAt run.log run.view →
    Driven cfg msgs run.view d
  proposed : run.phase.HoldsProposal → run.runState ≠ .proposal → ∀ d,
    .propose d ∈ votesAt run.log run.view → Driven cfg msgs run.view d

/-- Where the node adds its own proposal, the slot of the view is vacant or holds its digest. -/
def Run.SlotFree (msgs : ConsensusMessages) (run : Run) : Event → Prop
  | .round _ => ∀ p, run.roundTask = some (.addProposal p) →
      ∀ q, msgs.storedProposal p.view = some q → q.proposedBlockDigest = p.proposedBlockDigest
  | _ => True

variable {cfg} {msgs msgs' : ConsensusMessages} {run run' : Run} {ev : Event} {K : Knowledge}

/-! ## Entering a round -/

/-- What a run is after it has entered a round, or given up. -/
theorem Run.enterRound_cases (cfg : Config) (run : Run) (round : UInt8) :
    ((∃ why, (run.enterRound cfg round).phase = .panicked why) ∧
        (run.enterRound cfg round).roundTask = none ∧
        (run.enterRound cfg round).round = run.round ∧
        (run.enterRound cfg round).log = run.log) ∨
      (((run.enterRound cfg round).phase = .select ∧
            (run.enterRound cfg round).roundTask = some .start ∨
          (∃ rc, (run.enterRound cfg round).phase = .addOwnRoundChange rc) ∧
            (run.enterRound cfg round).roundTask = none) ∧
        (run.enterRound cfg round).round = round ∧
        (run.enterRound cfg round).runState = .proposal ∧
        (run.enterRound cfg round).log =
          run.log ++ [.entered { height := run.height, round }]) := by
  unfold Run.enterRound
  split
  · exact Or.inl ⟨⟨_, rfl⟩, rfl, rfl, rfl⟩
  · refine Or.inr ?_
    simp only
    split
    · exact ⟨Or.inl ⟨rfl, rfl⟩, rfl, rfl, rfl⟩
    · split
      · exact ⟨Or.inl ⟨rfl, rfl⟩, rfl, rfl, rfl⟩
      · split
        · exact ⟨Or.inr ⟨⟨_, rfl⟩, rfl⟩, rfl, rfl, rfl⟩
        · exact ⟨Or.inl ⟨rfl, rfl⟩, rfl, rfl, rfl⟩

/-- What entering a round leaves alone. -/
theorem Run.enterRound_same (cfg : Config) (run : Run) (round : UInt8) :
    (run.enterRound cfg round).height = run.height ∧
      (run.enterRound cfg round).initialMessages = run.initialMessages ∧
      (run.enterRound cfg round).latestSelfRoundChange = run.latestSelfRoundChange := by
  unfold Run.enterRound
  split
  · exact ⟨rfl, rfl, rfl⟩
  · simp only
    split
    · exact ⟨rfl, rfl, rfl⟩
    · split
      · exact ⟨rfl, rfl, rfl⟩
      · split <;> exact ⟨rfl, rfl, rfl⟩

/-- Each task of the run was just spawned, or there is none. -/
structure Run.Spawned (run : Run) : Prop where
  round : ∀ task, run.roundTask = some task → task = .start
  futureProposal : ∀ task, run.futureProposalTask = some task → task = .start
  futureRcc : ∀ task, run.futureRccTask = some task → task = .start

theorem Run.spawned_abort (run : Run) (phase : RunPhase) :
    ({ run.abort with phase } : Run).Spawned :=
  ⟨fun _ h => (nomatch h), fun _ h => (nomatch h), fun _ h => (nomatch h)⟩

theorem Run.spawned_enterRound (cfg : Config) (run : Run) (round : UInt8) :
    (run.enterRound cfg round).Spawned := by
  have hstart : ∀ {α : Type} {a b : α}, some a = some b → b = a :=
    fun h => (Option.some.inj h).symm
  unfold Run.enterRound
  split
  · exact ⟨fun _ h => (nomatch h), fun _ h => (nomatch h), fun _ h => (nomatch h)⟩
  · simp only
    split
    · exact ⟨fun _ h => hstart h, fun _ h => hstart h, fun _ h => hstart h⟩
    · split
      · exact ⟨fun _ h => hstart h, fun _ h => hstart h, fun _ h => hstart h⟩
      · split
        · exact ⟨fun _ h => (nomatch h), fun _ h => hstart h, fun _ h => hstart h⟩
        · exact ⟨fun _ h => hstart h, fun _ h => hstart h, fun _ h => hstart h⟩

theorem Run.spawned_start (cfg : Config) (msgs : ConsensusMessages) (height : UInt64) :
    (Run.start cfg msgs height).Spawned := by
  unfold Run.start
  simp only
  split
  · exact ⟨fun _ h => (nomatch h), fun _ h => (nomatch h), fun _ h => (nomatch h)⟩
  · exact Run.spawned_enterRound cfg _ _

/-- A step of a run keeps its height and the store it began with. -/
theorem RunStep.same (h : RunStep cfg msgs run ev msgs' run') :
    run'.height = run.height ∧ run'.initialMessages = run.initialMessages := by
  cases h with
  | broadcastRoundChange | futureProposalReady | futureRccReady =>
    exact ⟨(Run.enterRound_same _ _ _).1, (Run.enterRound_same _ _ _).2.1⟩
  | _ => exact ⟨rfl, rfl⟩

/-! ## Driving is kept -/

theorem Driven.of_storedProposal {view : View} {d : Digest} (h : Driven cfg msgs view d)
    (hkeep : ∀ p, msgs.storedProposal view = some p → msgs'.storedProposal view = some p) :
    Driven cfg msgs' view d := by
  obtain ⟨p, hp, hd, hchecked⟩ := h
  exact ⟨p, hkeep p hp, hd, hchecked⟩

/-- A run at the start of a round, or one that has lost its proposal, has nothing to drive. -/
theorem Run.Drive.of_no_votes (hpending : ∀ m, run.roundTask ≠ some (.broadcastPrepare m))
    (hvotes : run.phase.HoldsProposal → votesAt run.log run.view = []) : run.Drive cfg msgs where
  pending m hm := absurd hm (hpending m)
  prepared hphase d hd := by
    rw [hvotes hphase] at hd
    cases hd
  proposed hphase _ d hd := by
    rw [hvotes hphase] at hd
    cases hd

theorem Run.Drive.enterRound {run : Run} {round : UInt8}
    (hinv : (run.enterRound cfg round).Inv cfg K) : (run.enterRound cfg round).Drive cfg msgs := by
  rcases run.enterRound_cases cfg round with
    ⟨⟨why, hphase⟩, htask, -, -⟩ | ⟨⟨hphase, htask⟩ | ⟨⟨rc, hphase⟩, htask⟩, -, -, -⟩
  · exact .of_no_votes (by simp [htask]) (by simp [hphase, RunPhase.HoldsProposal])
  · refine .of_no_votes (by simp [htask]) (fun _ => ?_)
    obtain ⟨-, -, hvotes⟩ := hinv.select_of_task htask
    exact hvotes
  · exact .of_no_votes (by simp [htask]) (by simp [hphase, RunPhase.HoldsProposal])

theorem Judged.acceptable {p : ProposalMessageSigned} (h : Judged cfg K p) : Acceptable cfg p := by
  obtain ⟨env, hok, -⟩ := h
  exact ⟨env, hok⟩

/-- Proposals that are accepted have the digest of their block. -/
theorem Acceptable.verifyBlockDigest {p : ProposalMessageSigned} (h : Acceptable cfg p) :
    p.verifyBlockDigest cfg.crypto = true := by
  obtain ⟨env, hok⟩ := h
  unfold proposalVerifyFn proposal0VerifyFn proposal1VerifyFn verifyRoundChangeCertificate at hok
  by_contra hfalse
  rw [Bool.not_eq_true] at hfalse
  simp only [hfalse, if_true] at hok
  split at hok <;> cases hok

/-- A query of the proposal by a node that does not propose in the view. -/
theorem driven_of_query (hstore : StoreInv cfg K msgs)
    (hactions : ∀ a ∈ K.history, ActionOk cfg K a) {view : View}
    (hprop : cfg.validatorManager.isProposer cfg.address view = false) {env : Env} {d : Digest}
    (hd : (msgs.getValidProposalDigest view (proposalVerifyFn cfg env view)).1 = some (.ok d)) :
    Driven cfg (msgs.getValidProposalDigest view (proposalVerifyFn cfg env view)).2 view d := by
  let K' : Knowledge := { K with history := K.history ++ RoundTask.blockChecks cfg env msgs view }
  have hK : K ≤ K' := ⟨List.subset_append_left _ _, fun _ h => h⟩
  obtain ⟨p, hp, hv, hdigest, -, hjudged⟩ :=
    hstore.getValidProposalDigest_ok hd hK (List.subset_append_right _ _)
  refine ⟨p, by rw [ConsensusMessages.storedProposal_getValidProposalDigest, hp], hdigest,
    fun _ => ?_⟩
  rcases hjudged with hjudged | hsent
  · exact hjudged.acceptable
  · have hown : OwnProposal cfg p := hactions _ hsent
    rw [← hv, hown.isProposer] at hprop
    cases hprop

/-- Only adding the own proposal touches the stored proposals. -/
theorem RoundTask.storedProposal_step {task : RoundTask} {env : Env} {view : View}
    {runState : RunState} {s : TaskStep RoundTask}
    (hstep : task.step cfg env view runState msgs = some s)
    (htask : ∀ p, task ≠ .addProposal p) (v : View) :
    s.messages.storedProposal v = msgs.storedProposal v := by
  cases task with
  | addProposal p => exact absurd rfl (htask p)
  | start | broadcastProposal | broadcastPrepare | broadcastCommit =>
    cases hstep
    rfl
  | takeRoundChanges rx =>
    cases hstep
    exact ConsensusMessages.storedProposal_takeValidRoundChangeMessages env view v _ _
  | getProposal | getProposalAgain =>
    cases hstep
    exact ConsensusMessages.storedProposal_getValidProposalDigest view v _
  | addPrepare m =>
    cases hstep
    exact ConsensusMessages.storedProposal_addPrepareMessage m _ v
  | countPrepares d rx =>
    cases hstep
    rfl
  | addCommit m =>
    cases hstep
    exact ConsensusMessages.storedProposal_addCommitMessage m _ v
  | takeSeals d rx =>
    cases hstep
    exact ConsensusMessages.storedProposal_takeValidCommitSeals env view v _ _
  | recvRoundChange | recvProposal | recvPrepare | recvCommit =>
    simp only [RoundTask.step] at hstep
    split at hstep <;> cases hstep <;> rfl
  | finished | failed | panicked => cases hstep

/-- Where a step of the round task goes on to broadcast a prepare, the proposal was queried. -/
theorem RoundTask.broadcastPrepare_of_step {task : RoundTask} {env : Env} {view : View}
    {runState : RunState} {s : TaskStep RoundTask} {m : PrepareMessageSigned}
    (hstep : task.step cfg env view runState msgs = some s) (hm : s.task = .broadcastPrepare m) :
    ((∃ rx, task = .getProposal rx) ∨ task = .getProposalAgain) ∧
      (msgs.getValidProposalDigest view (proposalVerifyFn cfg env view)).1 =
        some (.ok m.proposedBlockDigest) ∧
      s.messages = (msgs.getValidProposalDigest view (proposalVerifyFn cfg env view)).2 := by
  have hquery : ∀ {missing : RoundTask} {result : Option (Except IBFTError Digest)},
      (∀ m, missing ≠ .broadcastPrepare m) →
      RoundTask.prepareDigest cfg view missing result = .broadcastPrepare m →
      result = some (.ok m.proposedBlockDigest) := by
    intro missing result hmissing heq
    unfold RoundTask.prepareDigest at heq
    split at heq
    · exact absurd heq (hmissing m)
    · cases heq
    · cases heq
      rfl
  cases task with
  | getProposal rx =>
    cases hstep
    exact ⟨Or.inl ⟨rx, rfl⟩, hquery (by simp) hm, rfl⟩
  | getProposalAgain =>
    cases hstep
    exact ⟨Or.inr rfl, hquery (by simp) hm, rfl⟩
  | _ => cases RoundTask.builds_of_step hstep (congrArg RoundTask.outgoing hm)

/-- A step of the round task keeps the round driven. -/
theorem Run.Drive.round {env : Env} {task : RoundTask} {s : TaskStep RoundTask}
    (h : run.Drive cfg msgs) (hstore : StoreInv cfg K msgs)
    (hactions : ∀ a ∈ K.history, ActionOk cfg K a) (hinv : run.Inv cfg K)
    (htask : run.roundTask = some task)
    (hs : task.step cfg env run.view run.runState msgs = some s)
    (hslot : run.SlotFree msgs (.round env)) :
    Run.Drive cfg s.messages
      { run with roundTask := some s.task, runState := s.runState, log := run.log ++ s.actions } := by
  obtain ⟨hselect, htaskinv⟩ := hinv.select_of_task htask
  have hholds : run.phase.HoldsProposal := by rw [hselect]; trivial
  have hpending : ∀ m, s.task = .broadcastPrepare m →
      Driven cfg s.messages run.view m.proposedBlockDigest := by
    intro m hm
    obtain ⟨hquery, hd, hmsgs⟩ := RoundTask.broadcastPrepare_of_step hs hm
    have hprop : cfg.validatorManager.isProposer cfg.address run.view = false := by
      rcases hquery with ⟨rx, rfl⟩ | rfl
      · exact htaskinv.2.2
      · exact htaskinv.2.2
    rw [hmsgs]
    exact driven_of_query hstore hactions hprop hd
  -- It remains to follow the votes of the view.
  suffices hvotes : ∀ d,
      (.prepare d ∈ votesAt (run.log ++ s.actions) run.view → Driven cfg s.messages run.view d) ∧
      (s.runState ≠ .proposal → .propose d ∈ votesAt (run.log ++ s.actions) run.view →
        Driven cfg s.messages run.view d) from
    ⟨fun m hm => hpending m (Option.some.inj hm), fun _ d hd => (hvotes d).1 hd,
      fun _ hstate d hd => (hvotes d).2 hstate hd⟩
  -- Steps that add no proposal and no prepare keep what was driven before.
  have hkeep : (∀ p, task ≠ .addProposal p) →
      (votesAt s.actions run.view = [] ∨ ∃ d, votesAt s.actions run.view = [.commit d]) →
      (s.runState ≠ .proposal → run.runState ≠ .proposal ∨
        ∀ d, Vote.propose d ∉ votesAt run.log run.view) → ∀ d,
      (.prepare d ∈ votesAt (run.log ++ s.actions) run.view → Driven cfg s.messages run.view d) ∧
      (s.runState ≠ .proposal → .propose d ∈ votesAt (run.log ++ s.actions) run.view →
        Driven cfg s.messages run.view d) := by
    intro hnot hadded hstate d
    have hsame := fun p hp =>
      (RoundTask.storedProposal_step hs hnot run.view).trans (b := _) (c := some p) hp
    rw [votesAt_append]
    have hold : ∀ vote, (∀ d, vote ≠ Vote.commit d) →
        vote ∈ votesAt run.log run.view ++ votesAt s.actions run.view →
        vote ∈ votesAt run.log run.view := by
      intro vote hne hmem
      rcases List.mem_append.mp hmem with hmem | hmem
      · exact hmem
      · rcases hadded with hnil | ⟨d', hcommit⟩
        · rw [hnil] at hmem
          cases hmem
        · rw [hcommit] at hmem
          exact absurd (List.mem_singleton.mp hmem) (hne d')
    refine ⟨fun hd => ?_, fun hne hd => ?_⟩
    · exact (h.prepared hholds d (hold _ (by simp) hd)).of_storedProposal hsame
    · have hd' := hold _ (by simp) hd
      rcases hstate hne with hstate | hnone
      · exact (h.proposed hholds hstate d hd').of_storedProposal hsame
      · exact absurd hd' (hnone d)
  cases task with
  | broadcastProposal p =>
    obtain ⟨hstate, hvotes, -, hview⟩ := htaskinv
    cases hs
    intro d
    rw [votesAt_append, hvotes, votesAt_broadcast]
    refine ⟨fun hd => ?_, fun hne => absurd hstate hne⟩
    split at hd
    · simp [IBFTMessage.vote?] at hd
    · cases hd
  | addProposal p =>
    obtain ⟨-, hvotes, hview, hsent⟩ := htaskinv
    have hown : OwnProposal cfg p := hactions _ hsent
    have hprop := hown.isProposer
    rw [hview] at hprop
    cases hs
    intro d
    rw [votesAt_append, hvotes]
    refine ⟨fun hd => by simp [RoundTask.goto] at hd, fun _ hd => ?_⟩
    obtain rfl : d = p.proposedBlockDigest := by simpa [RoundTask.goto] using hd
    have hstored := ConsensusMessages.storedProposal_addProposalMessage msgs p cfg.address
      run.view
    cases hold : msgs.storedProposal run.view with
    | none =>
      rw [if_pos ⟨by rw [hview, hold], hview.symm⟩] at hstored
      exact ⟨p, hstored, rfl, fun hfalse => by rw [hprop] at hfalse; cases hfalse⟩
    | some q =>
      rw [if_neg (by rw [hview, hold]; simp), hold] at hstored
      exact ⟨q, hstored, hslot p htask q (by rw [hview, hold]),
        fun hfalse => by rw [hprop] at hfalse; cases hfalse⟩
  | broadcastPrepare m =>
    obtain ⟨hstate, hvotes, -, hview⟩ := htaskinv
    have hdriven := h.pending m htask
    cases hs
    intro d
    rw [votesAt_append, hvotes, votesAt_broadcast]
    refine ⟨fun hd => ?_, fun hne => absurd hstate hne⟩
    split at hd
    · obtain rfl : d = m.proposedBlockDigest := by simpa [IBFTMessage.vote?] using hd
      exact hdriven
    · cases hd
  | addPrepare m =>
    obtain ⟨-, hvotes, -⟩ := htaskinv
    cases hs
    exact hkeep (by simp) (Or.inl rfl) (fun _ => Or.inr fun d => by simp [hvotes])
  | broadcastCommit m =>
    obtain ⟨-, -, -, hview⟩ := htaskinv
    cases hs
    refine hkeep (by simp) (Or.inr ⟨m.proposedBlockDigest, ?_⟩) (fun hne => Or.inl hne)
    rw [votesAt_broadcast, if_pos (show (IBFTMessage.commit m).view = run.view from hview)]
    rfl
  | addCommit m =>
    obtain ⟨hstate, -⟩ := htaskinv
    cases hs
    exact hkeep (by simp) (Or.inl rfl) (fun _ => Or.inl (by simp [hstate]))
  | getProposal | getProposalAgain =>
    cases hs
    exact hkeep (by simp) (Or.inl (RoundTask.votesAt_blockChecks _ _ _ _ _)) (fun hne => Or.inl hne)
  | start | takeRoundChanges | countPrepares | takeSeals =>
    cases hs
    exact hkeep (by simp) (Or.inl rfl) (fun hne => Or.inl hne)
  | recvRoundChange | recvProposal | recvPrepare | recvCommit =>
    simp only [RoundTask.step] at hs
    split at hs <;> cases hs <;>
      exact hkeep (by simp) (Or.inl rfl) (fun hne => Or.inl hne)
  | finished | failed | panicked => cases hs

/-- The run leaves `select!` in the same round. -/
theorem Run.Drive.leave {phase : RunPhase} (h : run.Drive cfg msgs)
    (hselect : run.phase = .select) : Run.Drive cfg msgs { run.abort with phase } := by
  have hholds : run.phase.HoldsProposal := by rw [hselect]; trivial
  exact ⟨(fun m hm => by cases hm), fun _ => h.prepared hholds, fun _ => h.proposed hholds⟩

theorem Run.Drive.of_storedProposal (h : run.Drive cfg msgs)
    (hkeep : ∀ p, msgs.storedProposal run.view = some p → msgs'.storedProposal run.view = some p) :
    run.Drive cfg msgs' where
  pending m hm := (h.pending m hm).of_storedProposal hkeep
  prepared hphase d hd := (h.prepared hphase d hd).of_storedProposal hkeep
  proposed hphase hstate d hd := (h.proposed hphase hstate d hd).of_storedProposal hkeep

/-- A monitor's step votes for nothing and keeps the stored proposals. -/
theorem Run.Drive.monitor {actions : List Action} {proposalTask : Option FutureProposalTask}
    {rccTask : Option FutureRccTask} (h : run.Drive cfg msgs)
    (hvotes : ∀ v, votesAt actions v = [])
    (hkeep : ∀ p, msgs.storedProposal run.view = some p →
      msgs'.storedProposal run.view = some p) :
    Run.Drive cfg msgs' { run with
      futureProposalTask := proposalTask, futureRccTask := rccTask
      log := run.log ++ actions } := by
  have hsame : votesAt (run.log ++ actions) run.view = votesAt run.log run.view := by
    rw [votesAt_append, hvotes, List.append_nil]
  have h' := h.of_storedProposal hkeep
  exact ⟨h'.pending, fun hphase d hd => h'.prepared hphase d (hsame ▸ hd),
    fun hphase hstate d hd => h'.proposed hphase hstate d (hsame ▸ hd)⟩

/-- **Driving is kept** by every slot free step of the run. -/
theorem Run.Drive.step (h : run.Drive cfg msgs) (hstore : StoreInv cfg K msgs)
    (hactions : ∀ a ∈ K.history, ActionOk cfg K a) (hmax : ∀ v p,
      msgs.storedProposal v = some p → v.round ≤ maxRound) (hinv : run.Inv cfg K)
    {K' : Knowledge} (hinv' : run'.Inv cfg K') (hstep : RunStep cfg msgs run ev msgs' run')
    (hslot : run.SlotFree msgs ev) : run'.Drive cfg msgs' := by
  -- A run that has left its round without its proposal has nothing to drive.
  have hquiet : ∀ {phase : RunPhase} {msgs'' : ConsensusMessages},
      (phase.HoldsProposal → False) → run.roundTask = none →
      Run.Drive cfg msgs'' { run with phase } := by
    intro phase msgs'' hnot htask
    exact .of_no_votes (by simp [htask]) (fun hphase => absurd hphase hnot)
  have hnone : ∀ {phase : RunPhase}, run.phase = phase → phase ≠ .select →
      run.roundTask = none := by
    intro phase hphase hne
    by_contra hsome
    obtain ⟨task, htask⟩ := Option.ne_none_iff_exists'.mp hsome
    exact hne (hphase ▸ (hinv.select_of_task htask).1)
  cases hstep with
  | round htask hs => exact h.round hstore hactions hinv htask hs hslot
  | @futureProposal env task s htask hs =>
    obtain ⟨-, hcases⟩ := FutureProposalTask.step_spec hmax (hinv.proposalTask task htask) hs
    refine h.monitor (fun v => ?_) (fun p hp => ?_)
    · rcases hcases with ⟨hnil, -⟩ | ⟨w, -, hchecks, -⟩
      · rw [hnil]
        rfl
      · rw [hchecks, RoundTask.votesAt_blockChecks]
    · rcases hcases with ⟨-, hmsgs⟩ | ⟨w, -, -, hmsgs⟩
      · rw [hmsgs]
        exact hp
      · rw [hmsgs, ConsensusMessages.storedProposal_getValidProposalDigest]
        exact hp
  | @futureRcc task s htask hs =>
    obtain ⟨-, hnil, hmsgs⟩ := FutureRccTask.step_spec (hinv.rccTask task htask) hs
    refine h.monitor (fun v => by rw [hnil]; rfl) (fun p hp => ?_)
    rcases hmsgs with hmsgs | ⟨v, hmsgs⟩
    · rw [hmsgs]
      exact hp
    · rw [hmsgs]
      exact hp
  | addOwnRoundChange hphase =>
    refine .of_no_votes (by simp) (fun _ => ?_)
    obtain ⟨-, -, hvotes⟩ := hinv'.select_of_task rfl
    exact hvotes
  | finalProposalMissing hphase | takeFinalProposal hphase | prune hphase
  | timeoutProposalMissing hphase | timeoutTakeProposal hphase =>
    exact hquiet (fun hp => hp) (hnone hphase (by simp))
  | broadcastBlock hphase hnext =>
    have htask := hnone hphase (by simp)
    refine .of_no_votes (by simp [htask]) (fun hp => ?_)
    rcases hnext with rfl | ⟨why, rfl⟩ <;> cases hp
  | timeoutTakePrepares hphase hnext =>
    refine hquiet (fun hp => ?_) (hnone hphase (by simp))
    rcases hnext with ⟨why, rfl⟩ | ⟨-, rfl⟩ <;> exact hp
  | broadcastRoundChange | futureProposalReady | futureRccReady =>
    exact Run.Drive.enterRound hinv'
  | cancel hphase => exact .of_no_votes (by simp [Run.abort]) (fun hp => False.elim hp)
  | roundFinished hphase htask => exact h.leave hphase
  | timeoutCommit hphase hstate => exact h.leave hphase
  | timeoutEarly hphase hstate =>
    exact .of_no_votes (by simp [Run.abort]) (fun hp => False.elim hp)

end Tonic
