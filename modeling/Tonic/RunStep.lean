/-
# What an event can do

The step function of a node, turned around: every step is one of the cases listed
here, each with what enabled it and what it leaves behind.  Invariants of runs are
proved by these cases; none of them unfolds the step function again.
-/
import Tonic.StoreSpec
import Tonic.Engine

namespace Tonic

variable (cfg : Config)

/-- A step of a run, with the store before and after it. -/
inductive RunStep (msgs : ConsensusMessages) (run : Run) :
    Event → ConsensusMessages → Run → Prop where
  | round {env : Env} {task : RoundTask} {s : TaskStep RoundTask}
      (htask : run.roundTask = some task)
      (hs : task.step cfg env run.view run.runState msgs = some s) :
      RunStep msgs run (.round env) s.messages
        { run with roundTask := some s.task, runState := s.runState, log := run.log ++ s.actions }
  | futureProposal {env : Env} {task : FutureProposalTask} {s : TaskStep FutureProposalTask}
      (htask : run.futureProposalTask = some task)
      (hs : task.step cfg env run.view run.runState msgs = some s) :
      RunStep msgs run (.futureProposal env) s.messages
        { run with futureProposalTask := some s.task, log := run.log ++ s.actions }
  | futureRcc {task : FutureRccTask} {s : TaskStep FutureRccTask}
      (htask : run.futureRccTask = some task)
      (hs : task.step cfg run.view run.runState msgs = some s) :
      RunStep msgs run .futureRcc s.messages
        { run with futureRccTask := some s.task, log := run.log ++ s.actions }
  | addOwnRoundChange {env : Env} {rc : RoundChangeMessageSigned}
      (hphase : run.phase = .addOwnRoundChange rc) :
      RunStep msgs run (.main env) (msgs.addRoundChangeMessage rc cfg.address)
        { run with phase := .select, roundTask := some .start }
  | finalProposalMissing {env : Env} {seals : CommitSeals} {why : String}
      (hphase : run.phase = .takeFinalProposal seals)
      (hstored : msgs.storedProposal run.view = none) :
      RunStep msgs run (.main env) (msgs.takeProposalMessage run.view).2
        { run with phase := .panicked why }
  | takeFinalProposal {env : Env} {seals : CommitSeals} {p : ProposalMessageSigned}
      (hphase : run.phase = .takeFinalProposal seals)
      (hstored : msgs.storedProposal run.view = some p) :
      RunStep msgs run (.main env) (msgs.takeProposalMessage run.view).2
        { run with phase := .broadcastBlock (FinalizedBlock.new p.proposedBlock seals) }
  | broadcastBlock {env : Env} {block : FinalizedBlock} {phase : RunPhase}
      (hphase : run.phase = .broadcastBlock block)
      (hnext : phase = .prune block ∨ ∃ why, phase = .panicked why) :
      RunStep msgs run (.main env) msgs
        { run with log := run.log ++ [.finalized run.height block], phase }
  | prune {env : Env} {block : FinalizedBlock} {height : UInt64}
      (hphase : run.phase = .prune block) :
      RunStep msgs run (.main env) (msgs.prune height)
        { run with phase := .returned (some block) }
  | timeoutProposalMissing {env : Env} {why : String} (hphase : run.phase = .timeoutTakeProposal)
      (hstored : msgs.storedProposal run.view = none) :
      RunStep msgs run (.main env) (msgs.takeProposalMessage run.view).2
        { run with phase := .panicked why }
  | timeoutTakeProposal {env : Env} {p : ProposalMessageSigned}
      (hphase : run.phase = .timeoutTakeProposal)
      (hstored : msgs.storedProposal run.view = some p) :
      RunStep msgs run (.main env) (msgs.takeProposalMessage run.view).2
        { run with phase := .timeoutTakePrepares p }
  | timeoutTakePrepares {env : Env} {p : ProposalMessageSigned} {phase : RunPhase}
      (hphase : run.phase = .timeoutTakePrepares p)
      (hnext : (∃ why, phase = .panicked why) ∨
        (cfg.validatorManager.quorum run.height - 1 ≤
          (msgs.takeValidPrepareMessages env run.view
            (fun m => m.proposedBlockDigest = p.proposedBlockDigest)).1.length ∧
          phase = .broadcastRoundChange (run.preparedRoundChange cfg p
            (msgs.takeValidPrepareMessages env run.view
              (fun m => m.proposedBlockDigest = p.proposedBlockDigest)).1))) :
      RunStep msgs run (.main env) (msgs.takeValidPrepareMessages env run.view
          (fun m => m.proposedBlockDigest = p.proposedBlockDigest)).2
        { run with phase }
  | broadcastRoundChange {env : Env} {rc : RoundChangeMessageSigned}
      (hphase : run.phase = .broadcastRoundChange rc) :
      RunStep msgs run (.main env) msgs
        (Run.enterRound cfg
          { run with
            latestSelfRoundChange := some rc
            log := run.log ++ [.broadcast (.roundChange rc)] }
          (run.round + 1))
  | cancel (hphase : run.phase = .select) :
      RunStep msgs run .cancel msgs { run.abort with phase := .returned none }
  | roundFinished {seals : CommitSeals} (hphase : run.phase = .select)
      (htask : run.roundTask = some (.finished seals)) :
      RunStep msgs run .roundFinished msgs { run.abort with phase := .takeFinalProposal seals }
  | futureProposalReady {newRound : UInt8} (hphase : run.phase = .select)
      (htask : run.futureProposalTask = some (.sent newRound)) :
      RunStep msgs run .futureProposalReady msgs (run.abort.enterRound cfg newRound)
  | futureRccReady {newRound : UInt8} (hphase : run.phase = .select)
      (htask : run.futureRccTask = some (.sent newRound)) :
      RunStep msgs run .futureRccReady msgs (run.abort.enterRound cfg newRound)
  | timeoutCommit (hphase : run.phase = .select) (hstate : run.runState = .commit) :
      RunStep msgs run .timeout msgs { run.abort with phase := .timeoutTakeProposal }
  | timeoutEarly (hphase : run.phase = .select) (hstate : run.runState ≠ .commit) :
      RunStep msgs run .timeout msgs
        { run.abort with phase := .broadcastRoundChange (run.nextRoundChange cfg) }

/-- A step of a node. -/
inductive NodeStep (n : Node) : Event → Node → Prop where
  | receive {m : IBFTMessage} {pending : Option (IBFTMessage × Address)}
      (hpending : ∀ m' a, pending = some (m', a) →
        m' = m ∧ checkConsensusMessage cfg n.height m = .ok (some a)) :
      NodeStep n (.receive m) { n with pending, received := m :: n.received }
  | addPending {m : IBFTMessage} {sender : Address} (hpending : n.pending = some (m, sender)) :
      NodeStep n .addPending
        { n with messages := n.messages.addMessage sender m, pending := none }
  | runHeight {height : UInt64} {past : List Run} (hpast : past = n.runs) :
      NodeStep n (.runHeight height)
        { n with run := some (Run.start cfg n.messages height), past }
  | run {ev : Event} {run run' : Run} {msgs : ConsensusMessages} {height : UInt64}
      (hrun : n.run = some run) (hstep : RunStep cfg n.messages run ev msgs run') :
      NodeStep n ev { n with messages := msgs, run := some run', height }

variable {cfg} {n n' : Node} {run : Run} {ev : Event}

theorem runStep_of_stepMain {env : Env} (hrun : n.run = some run)
    (h : n.stepMain cfg run env = some n') : NodeStep cfg n (.main env) n' := by
  unfold Node.stepMain at h
  cases hp : run.phase with
  | addOwnRoundChange rc =>
    rw [hp] at h
    cases h
    exact .run hrun (.addOwnRoundChange hp)
  | takeFinalProposal seals =>
    rw [hp] at h
    simp only [ConsensusMessages.takeProposalMessage_fst] at h
    cases hstored : n.messages.storedProposal run.view with
    | none =>
      rw [hstored] at h
      cases h
      exact .run hrun (.finalProposalMissing hp hstored)
    | some p =>
      rw [hstored] at h
      cases h
      exact .run hrun (.takeFinalProposal hp hstored)
  | broadcastBlock block =>
    rw [hp] at h
    simp only at h
    split at h
    · cases h
      exact .run hrun (.broadcastBlock hp (Or.inl rfl))
    · cases h
      exact .run hrun (.broadcastBlock hp (Or.inr ⟨_, rfl⟩))
  | prune block =>
    rw [hp] at h
    cases h
    exact .run hrun (.prune hp)
  | timeoutTakeProposal =>
    rw [hp] at h
    simp only [ConsensusMessages.takeProposalMessage_fst] at h
    cases hstored : n.messages.storedProposal run.view with
    | none =>
      rw [hstored] at h
      cases h
      exact .run hrun (.timeoutProposalMissing hp hstored)
    | some p =>
      rw [hstored] at h
      cases h
      exact .run hrun (.timeoutTakeProposal hp hstored)
  | timeoutTakePrepares p =>
    rw [hp] at h
    simp only at h
    split at h
    · cases h
      exact .run hrun (.timeoutTakePrepares hp (Or.inl ⟨_, rfl⟩))
    next hlen =>
      cases h
      exact .run hrun (.timeoutTakePrepares hp (Or.inr ⟨not_lt.mp hlen, rfl⟩))
  | broadcastRoundChange rc =>
    rw [hp] at h
    cases h
    exact .run hrun (.broadcastRoundChange hp)
  | select | returned | panicked =>
    rw [hp] at h
    cases h

theorem runStep_of_stepSelect (hrun : n.run = some run)
    (h : n.stepSelect cfg run ev = some n') : NodeStep cfg n ev n' := by
  unfold Node.stepSelect at h
  split at h
  next hp =>
    cases ev with
    | cancel =>
      cases h
      exact .run hrun (.cancel hp)
    | roundFinished =>
      simp only at h
      split at h
      next seals htask =>
        cases h
        exact .run hrun (.roundFinished hp htask)
      next => cases h
    | futureProposalReady =>
      simp only at h
      split at h
      next newRound htask =>
        cases h
        exact .run hrun (.futureProposalReady hp htask)
      next => cases h
    | futureRccReady =>
      simp only at h
      split at h
      next newRound htask =>
        cases h
        exact .run hrun (.futureRccReady hp htask)
      next => cases h
    | timeout =>
      cases h
      unfold Run.onTimeout
      split
      next hstate => exact .run hrun (.timeoutCommit hp hstate)
      next hstate => exact .run hrun (.timeoutEarly hp hstate)
    | receive | addPending | runHeight | round | futureProposal | futureRcc | main => cases h
  next => cases h

/-- **Inversion**: every step of a node is one of the cases. -/
theorem nodeStep_of_step (h : n.step cfg ev = some n') : NodeStep cfg n ev n' := by
  cases ev with
  | receive m =>
    change n.receive cfg m = some n' at h
    unfold Node.receive at h
    split at h
    · cases h
    · cases h
      refine .receive fun m' a hm => ?_
      split at hm
      next sender hcheck =>
        cases hm
        exact ⟨rfl, hcheck⟩
      next => cases hm
  | addPending =>
    change n.addPending = some n' at h
    unfold Node.addPending at h
    split at h
    · cases h
    next m a hm =>
      cases h
      exact .addPending hm
  | runHeight height =>
    change n.runHeight cfg height = some n' at h
    -- `run_height` is called while there is no run, or after the last one has returned.
    unfold Node.runHeight at h
    split at h
    next hrun =>
      cases h
      exact .runHeight (by simp [Node.runs, hrun])
    next old hrun =>
      split at h
      · cases h
        exact .runHeight (by simp [Node.runs, hrun])
      · cases h
        exact .runHeight (by simp [Node.runs, hrun])
      · cases h
  | round env =>
    obtain ⟨run, hrun, h⟩ := Option.bind_eq_some_iff.mp h
    obtain ⟨task, htask, h⟩ := Option.bind_eq_some_iff.mp h
    obtain ⟨s, hs, h⟩ := Option.bind_eq_some_iff.mp h
    cases h
    exact .run hrun (.round htask hs)
  | futureProposal env =>
    obtain ⟨run, hrun, h⟩ := Option.bind_eq_some_iff.mp h
    obtain ⟨task, htask, h⟩ := Option.bind_eq_some_iff.mp h
    obtain ⟨s, hs, h⟩ := Option.bind_eq_some_iff.mp h
    cases h
    exact .run hrun (.futureProposal htask hs)
  | futureRcc =>
    obtain ⟨run, hrun, h⟩ := Option.bind_eq_some_iff.mp h
    obtain ⟨task, htask, h⟩ := Option.bind_eq_some_iff.mp h
    obtain ⟨s, hs, h⟩ := Option.bind_eq_some_iff.mp h
    cases h
    exact .run hrun (.futureRcc htask hs)
  | main env =>
    obtain ⟨run, hrun, h⟩ := Option.bind_eq_some_iff.mp h
    exact runStep_of_stepMain hrun h
  | cancel | roundFinished | futureProposalReady | futureRccReady | timeout =>
    obtain ⟨run, hrun, h⟩ := Option.bind_eq_some_iff.mp h
    exact runStep_of_stepSelect hrun h

end Tonic
