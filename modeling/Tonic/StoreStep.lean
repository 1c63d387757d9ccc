/-
# What a step does to the store

Every operation on the store is called from a few places, with arguments that depend on
the run.  A step of a run applies at most one of them; `StoreStep` lists which, and an
invariant of the store is proved by these cases.
-/
import Tonic.CleanRun

namespace Tonic

open Transition

variable (cfg : Config)

/-- The environment of an event that has one. -/
def Event.env? : Event → Option Env
  | .round env | .futureProposal env | .main env => some env
  | _ => none

/-- The operation that a step of a run applies to the store. -/
inductive StoreStep (run : Run) (msgs : ConsensusMessages) : Event → ConsensusMessages → Prop where
  | same {ev : Event} : StoreStep run msgs ev msgs
  | addProposal {env : Env} {p : ProposalMessageSigned}
      (htask : run.roundTask = some (.addProposal p)) :
      StoreStep run msgs (.round env) (msgs.addProposalMessage p cfg.address)
  | queryProposal {ev : Event} {env : Env} {v : View} (henv : ev.env? = some env)
      (hheight : v.height = run.height) :
      StoreStep run msgs ev (msgs.getValidProposalDigest v (proposalVerifyFn cfg env v)).2
  | takeProposal {env : Env} (hholds : run.phase.HoldsProposal) (hselect : run.phase ≠ .select) :
      StoreStep run msgs (.main env) (msgs.takeProposalMessage run.view).2
  | addPrepare {env : Env} {m : PrepareMessageSigned}
      (htask : run.roundTask = some (.addPrepare m)) :
      StoreStep run msgs (.round env) (msgs.addPrepareMessage m cfg.address)
  | countPrepares {env : Env} {d : Digest} {rx : Receiver}
      (htask : run.roundTask = some (.countPrepares d rx)) :
      StoreStep run msgs (.round env)
        (msgs.getValidPrepareCount run.view (fun m => m.proposedBlockDigest = d)).2
  | takePrepares {env : Env} {p : ProposalMessageSigned}
      (hphase : run.phase = .timeoutTakePrepares p) :
      StoreStep run msgs (.main env) (msgs.takeValidPrepareMessages env run.view
        (fun m => m.proposedBlockDigest = p.proposedBlockDigest)).2
  | addCommit {env : Env} {m : CommitMessageSigned}
      (htask : run.roundTask = some (.addCommit m)) :
      StoreStep run msgs (.round env) (msgs.addCommitMessage m cfg.address)
  | takeSeals {env : Env} {d : Digest} {rx : Receiver}
      (htask : run.roundTask = some (.takeSeals d rx)) :
      StoreStep run msgs (.round env) (msgs.takeValidCommitSeals env run.view
        (fun m => m.proposedBlockDigest = d) (cfg.validatorManager.quorum run.height)).2
  | takeRoundChanges {env : Env} {rx : Receiver}
      (htask : run.roundTask = some (.takeRoundChanges rx)) :
      StoreStep run msgs (.round env) (msgs.takeValidRoundChangeMessages env run.view
        (roundChangeVerifyFn cfg run.height) (cfg.validatorManager.quorum run.height)).2
  | countRoundChanges {v : View} (hheight : v.height = run.height)
      (hround : run.round < v.round) :
      StoreStep run msgs .futureRcc
        (msgs.getValidRoundChangeCount v (roundChangeVerifyFn cfg run.height)).2
  | addRoundChange {env : Env} {rc : RoundChangeMessageSigned}
      (hphase : run.phase = .addOwnRoundChange rc) :
      StoreStep run msgs (.main env) (msgs.addRoundChangeMessage rc cfg.address)
  | prune {env : Env} {height : UInt64} : StoreStep run msgs (.main env) (msgs.prune height)

variable {cfg} {n n' : Node} {msgs msgs' : ConsensusMessages} {run run' : Run} {ev : Event}
  {K : Knowledge}

/-- The monitor of round changes recounts rounds of its own height only. -/
def Run.RecountsHeight (run : Run) : Prop :=
  ∀ rx counts v, run.futureRccTask = some (.recount rx counts v) → v.height = run.height

theorem FutureRccTask.recount_height {task : FutureRccTask} {view : View} {runState : RunState}
    {s : TaskStep FutureRccTask} (hstep : task.step cfg view runState msgs = some s)
    {rx : Receiver} {counts : List ℕ} {v : View} (hs : s.task = .recount rx counts v) :
    v.height = view.height := by
  -- A scan recounts nothing.
  have hscan : ∀ {counts' : List ℕ} {k : ℕ} {rx' : Receiver},
      scanBelow cfg view rx' counts' k ≠ .recount rx counts v := by
    intro counts' k rx' heq
    simp only [scanBelow] at heq
    split at heq <;> cases heq
  cases task with
  | start =>
    cases hstep
    cases hs
  | countByRound rx' =>
    simp only [step] at hstep
    split at hstep
    · cases hstep
      cases hs
    · cases hstep
      exact absurd hs hscan
  | scan rx' counts' idx =>
    cases hstep
    simp only [goto] at hs
    split at hs
    · cases hs
    · exact absurd hs hscan
  | recv rx' counts' =>
    simp only [step] at hstep
    split at hstep
    · cases hstep
    · cases hstep
      cases hs
    next newView hrecv =>
      split at hstep
      next hnew =>
        split at hstep
        · cases hstep
          cases hs
        · cases hstep
          simp only [goto] at hs
          split at hs
          · cases hs
            exact hnew.1
          · cases hs
      next =>
        cases hstep
        cases hs
  | recount rx' counts' w =>
    cases hstep
    simp only [goto] at hs
    split at hs <;> cases hs
  | sent | panicked => cases hstep

theorem Run.Spawned.recountsHeight (h : run.Spawned) : run.RecountsHeight := by
  intro rx counts v htask
  cases h.futureRcc _ htask

theorem RunStep.recountsHeight (h : RunStep cfg msgs run ev msgs' run')
    (hold : run.RecountsHeight) : run'.RecountsHeight := by
  cases h with
  | @futureRcc task s htask hs =>
    intro rx counts v heq
    exact FutureRccTask.recount_height hs (Option.some.inj heq)
  | broadcastRoundChange | futureProposalReady | futureRccReady =>
    exact (Run.spawned_enterRound cfg _ _).recountsHeight
  | cancel | roundFinished | timeoutCommit | timeoutEarly =>
    exact Run.Spawned.recountsHeight (Run.spawned_abort run _)
  | _ => exact hold

theorem Node.recountsHeight_of_reachable {height : UInt64}
    (h : Reachable (Node.step cfg) (Node.init cfg height) n) :
    ∀ run ∈ n.runs, run.RecountsHeight :=
  h.invariant
    (fun _ _ _ hall hstep => (nodeStep_of_step hstep).forall_runs
      (P := fun _ run => run.RecountsHeight) (fun _ hP => hP)
      (fun height => (Run.spawned_start cfg _ height).recountsHeight)
      (fun _ _ _ _ hrunstep hP => hrunstep.recountsHeight hP) hall)
    (fun run hrun => by cases hrun)

/-- **Inversion for the store**: a step of a run applies one of the listed operations. -/
theorem RunStep.storeStep (h : RunStep cfg msgs run ev msgs' run') (hinv : run.Inv cfg K)
    (hheight : run.RecountsHeight) : StoreStep cfg run msgs ev msgs' := by
  cases h with
  | @round env task s htask hs =>
    cases task with
    | start | broadcastProposal | broadcastPrepare | broadcastCommit =>
      cases hs
      exact .same
    | addProposal =>
      cases hs
      exact .addProposal htask
    | getProposal | getProposalAgain =>
      cases hs
      exact .queryProposal rfl rfl
    | addPrepare =>
      cases hs
      exact .addPrepare htask
    | countPrepares =>
      cases hs
      exact .countPrepares htask
    | addCommit =>
      cases hs
      exact .addCommit htask
    | takeSeals =>
      cases hs
      exact .takeSeals htask
    | takeRoundChanges =>
      cases hs
      exact .takeRoundChanges htask
    | recvRoundChange | recvProposal | recvPrepare | recvCommit =>
      simp only [RoundTask.step] at hs
      split at hs <;> cases hs <;> exact .same
    | finished | failed | panicked => cases hs
  | @futureProposal env task s htask hs =>
    have htaskinv := hinv.proposalTask task htask
    cases task with
    | start =>
      cases hs
      exact .same
    | scan rx present idx =>
      cases hs
      exact .queryProposal rfl rfl
    | verify rx newView =>
      cases hs
      exact .queryProposal rfl htaskinv.1
    | hasByRound | recv =>
      simp only [FutureProposalTask.step] at hs
      split at hs <;> cases hs <;> exact .same
    | sent | panicked => cases hs
  | @futureRcc task s htask hs =>
    have htaskinv := hinv.rccTask task htask
    cases task with
    | start =>
      cases hs
      exact .same
    | scan rx counts idx =>
      -- An index of the scan is a round within the limit.
      obtain ⟨-, hlt, hidx⟩ := htaskinv
      cases hs
      exact .countRoundChanges rfl (round_of_index hlt hidx).1
    | recount rx counts newView =>
      obtain ⟨-, hlt, -⟩ := htaskinv
      cases hs
      exact .countRoundChanges (hheight rx counts newView htask) hlt
    | countByRound | recv =>
      simp only [FutureRccTask.step] at hs
      repeat' split at hs
      all_goals cases hs
      all_goals exact .same
    | sent | panicked => cases hs
  | addOwnRoundChange hphase => exact .addRoundChange hphase
  | finalProposalMissing hphase | takeFinalProposal hphase | timeoutProposalMissing hphase
  | timeoutTakeProposal hphase =>
    exact .takeProposal (by rw [hphase]; trivial) (by rw [hphase]; simp)
  | timeoutTakePrepares hphase => exact .takePrepares hphase
  | prune => exact .prune
  | _ => exact .same

/-! ## Round changes within the round limit -/

/-- Stored round changes are within the round limit. -/
def RoundChangesLe (msgs : ConsensusMessages) : Prop :=
  ∀ k e, msgs.roundChangeMessages.Stores k e → k.1.round ≤ maxRound

theorem RoundChangesLe.of_subset (h : RoundChangesLe msgs)
    (hsub : ∀ k p flag, msgs'.roundChangeMessages.Stores k (p, flag) →
      ∃ flag', msgs.roundChangeMessages.Stores k (p, flag')) : RoundChangesLe msgs' := by
  intro k e he
  obtain ⟨flag, hst⟩ := hsub k e.1 e.2 he
  exact h k _ hst

theorem RoundChangesLe.addRoundChangeMessage (h : RoundChangesLe msgs)
    {m : RoundChangeMessageSigned} {a : Address} (hround : m.view.round ≤ maxRound) :
    RoundChangesLe (msgs.addRoundChangeMessage m a) := by
  intro k e he
  rcases ConsensusMessages.stores_addRoundChangeMessage.mp he with hold | ⟨-, rfl, -⟩
  · exact h k _ hold
  · exact hround

theorem RoundChangesLe.addMessage (h : RoundChangesLe msgs) {m : IBFTMessage} {a : Address}
    (hround : m.view.round ≤ maxRound) : RoundChangesLe (msgs.addMessage a m) := by
  cases m with
  | roundChange m => exact h.addRoundChangeMessage hround
  | proposal p =>
    change RoundChangesLe (msgs.addProposalMessage p a)
    unfold ConsensusMessages.addProposalMessage
    simp only
    split
    · split <;> exact h
    · exact h
  | prepare m =>
    change RoundChangesLe (msgs.addPrepareMessage m a)
    unfold ConsensusMessages.addPrepareMessage
    simp only
    split <;> exact h
  | commit m =>
    change RoundChangesLe (msgs.addCommitMessage m a)
    unfold ConsensusMessages.addCommitMessage
    simp only
    split <;> exact h

theorem StoreStep.roundChangesLe (h : StoreStep cfg run msgs ev msgs') (hinv : run.Inv cfg K)
    (hle : RoundChangesLe msgs) : RoundChangesLe msgs' := by
  cases h with
  | same => exact hle
  | addProposal htask =>
    obtain ⟨-, -, -, hview, -⟩ := hinv.select_of_task htask
    exact hle.addMessage (m := .proposal _) (by
      rw [show (IBFTMessage.proposal _).view = run.view from hview]
      exact hinv.round_le)
  | queryProposal => exact hle.of_subset (ConsensusMessages.subStore_getValidProposalDigest _ _).roundChange
  | takeProposal => exact hle.of_subset (ConsensusMessages.subStore_takeProposalMessage _).roundChange
  | addPrepare htask =>
    obtain ⟨-, -, -, hview, -⟩ := hinv.select_of_task htask
    exact hle.addMessage (m := .prepare _) (by
      rw [show (IBFTMessage.prepare _).view = run.view from hview]
      exact hinv.round_le)
  | countPrepares | takePrepares => exact hle
  | addCommit htask =>
    obtain ⟨-, -, -, hview, -⟩ := hinv.select_of_task htask
    exact hle.addMessage (m := .commit _) (by
      rw [show (IBFTMessage.commit _).view = run.view from hview]
      exact hinv.round_le)
  | takeSeals =>
    exact hle.of_subset (ConsensusMessages.subStore_takeValidCommitSeals _ _ _ _).roundChange
  | takeRoundChanges =>
    exact hle.of_subset (ConsensusMessages.subStore_takeValidRoundChangeMessages _ _ _ _).roundChange
  | countRoundChanges =>
    exact hle.of_subset (ConsensusMessages.subStore_getValidRoundChangeCount _ _).roundChange
  | addRoundChange hphase =>
    have hinvPhase := hinv.phase
    rw [hphase] at hinvPhase
    obtain ⟨-, -, -, hview, -⟩ := hinvPhase
    exact hle.addRoundChangeMessage (by rw [hview]; exact hinv.round_le)
  | prune => exact hle.of_subset (ConsensusMessages.subStore_prune _).roundChange

/-- What the handler is about to add is within the round limit. -/
theorem Node.Inv.pending_round_le (h : n.Inv cfg) {m : IBFTMessage} {sender : Address}
    (hpending : n.pending = some (m, sender)) : m.view.round ≤ maxRound := by
  obtain ⟨horigin, hne, -⟩ := h.pending m sender hpending
  cases horigin with
  | peer _ _ _ _ hround => exact hround
  | own heq => exact absurd heq hne

/-- What is known of every reachable node where steps of the store are followed. -/
structure Node.StoreKnown (cfg : Config) (n : Node) : Prop where
  inv : n.Inv cfg
  recounts : ∀ run, n.run = some run → run.RecountsHeight

theorem Node.storeKnown_of_reachable {height : UInt64}
    (h : Reachable (Node.step cfg) (Node.init cfg height) n) : n.StoreKnown cfg where
  inv := Node.inv_of_reachable h
  recounts run hrun := Node.recountsHeight_of_reachable h run
    (List.mem_append_right _ (Option.mem_toList.mpr hrun))

theorem Node.StoreKnown.storeStep (h : n.StoreKnown cfg) (hrun : n.run = some run)
    (hstep : RunStep cfg n.messages run ev msgs' run') :
    StoreStep cfg run n.messages ev msgs' :=
  hstep.storeStep (h.inv.run run hrun) (h.recounts run hrun)

theorem Node.roundChangesLe_of_reachable {height : UInt64}
    (h : Reachable (Node.step cfg) (Node.init cfg height) n) : RoundChangesLe n.messages := by
  refine h.invariant_of (I := fun n => RoundChangesLe n.messages)
    (fun _ hn => Node.storeKnown_of_reachable hn) (fun n ev n' hn _ hle hstep => ?_)
    (fun k e he => absurd he (FirstWinsMap.not_stores_empty _ _))
  cases nodeStep_of_step hstep with
  | receive | runHeight => exact hle
  | addPending hpending => exact hle.addMessage (hn.inv.pending_round_le hpending)
  | run hrun hrunstep =>
    exact (hn.storeStep hrun hrunstep).roundChangesLe (hn.inv.run _ hrun) hle

end Tonic
