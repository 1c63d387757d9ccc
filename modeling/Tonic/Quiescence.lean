/-
# Where a node comes to rest

A node that is left alone stops: it takes finitely many steps.  Here is where.  Nothing waits
to be added, and the run has ended, or it rests in a round: then the round task lacks the
message it waits for, or failed, and the monitors have nothing to jump to.  So a node never
stops short of what its store allows, and the round timeout is only ever waited for where
messages are missing.
-/
import Tonic.Termination
import Tonic.ProposalWaits

namespace Tonic

open Transition

variable {cfg : Config} {msgs msgs' : ConsensusMessages} {view : View} {env : Env}
  {runState : RunState}

/-- What happens by itself: no message, no call, no timer and no cancellation. -/
def Event.Driven : Event → Prop
  | .receive _ | .runHeight _ | .cancel | .timeout => False
  | _ => True

theorem Event.Driven.internal {ev : Event} (h : ev.Driven) : ev.Internal := by
  cases ev with
  | receive | runHeight => exact h
  | _ => trivial

instance : Nonempty Env := ⟨modelEnv []⟩

/-! ## Tasks that cannot go on -/

/-- The round task has come to its end. -/
def RoundTask.Ended : RoundTask → Prop
  | .finished _ | .failed _ | .panicked _ => True
  | _ => False

theorem Channel.pending_of_step {α : Type} {ch : Channel} {rx : Receiver} {a : Option α}
    {f : View → Option α} (hlagged : a ≠ none) (hf : ∀ v, f v ≠ none)
    (h : (match ch.recv rx with
      | .pending => none
      | .lagged => a
      | .notified v => f v) = none) : ch.recv rx = .pending := by
  split at h
  next hrecv => exact hrecv
  next => exact absurd h hlagged
  next => exact absurd h (hf _)

/-- A round task that cannot go on has ended, or has read all its notifications. -/
theorem RoundTask.stuck_cases {task : RoundTask}
    (h : task.step cfg env view runState msgs = none) :
    task.Ended ∨ ∃ ch rx, task.waiting msgs = some (ch, rx) ∧ ch.recv rx = .pending := by
  cases task with
  | recvRoundChange | recvProposal | recvPrepare | recvCommit =>
    right
    exact ⟨_, _, rfl, Channel.pending_of_step (by simp) (by simp) h⟩
  | finished | failed | panicked => exact Or.inl trivial
  | _ => cases h

theorem FutureProposalTask.stuck_cases {task : FutureProposalTask}
    (h : task.step cfg env view runState msgs = none) :
    (∃ rx, task = .recv rx ∧ msgs.proposalTx.recv rx = .pending) ∨
      (∃ round, task = .sent round) ∨ ∃ why, task = .panicked why := by
  cases task with
  | recv rx => exact Or.inl ⟨rx, rfl, Channel.pending_of_step (by simp) (by simp) h⟩
  | sent round => exact Or.inr (Or.inl ⟨round, rfl⟩)
  | panicked why => exact Or.inr (Or.inr ⟨why, rfl⟩)
  | hasByRound rx =>
    simp only [step] at h
    split at h <;> cases h
  | _ => cases h

theorem FutureRccTask.stuck_cases {task : FutureRccTask}
    (h : task.step cfg view runState msgs = none) :
    (∃ rx counts, task = .recv rx counts ∧ msgs.roundChangeTx.recv rx = .pending) ∨
      (∃ round, task = .sent round) ∨ ∃ why, task = .panicked why := by
  cases task with
  | recv rx counts =>
    refine Or.inl ⟨rx, counts, rfl, Channel.pending_of_step (by simp) ?_ h⟩
    intro v
    split
    · split <;> simp
    · simp
  | sent round => exact Or.inr (Or.inl ⟨round, rfl⟩)
  | panicked why => exact Or.inr (Or.inr ⟨why, rfl⟩)
  | countByRound rx =>
    simp only [step] at h
    split at h <;> cases h
  | _ => cases h

/-! ## What a running round has -/

variable {run run' : Run} {ev : Event} {n n' : Node}

/-- The monitors of a round run as long as the round does, and heights without a quorum have no
round. -/
structure Run.Equipped (cfg : Config) (run : Run) : Prop where
  monitored : run.phase = .select ∨ (∃ rc, run.phase = .addOwnRoundChange rc) →
    run.futureProposalTask ≠ none ∧ run.futureRccTask ≠ none
  quorum_pos : (∀ why, run.phase ≠ .panicked why) → 0 < cfg.validatorManager.quorum run.height

/-- A run outside of its rounds. -/
theorem Run.Equipped.leave (h : run.Equipped cfg) (hphase : ∀ why, run.phase ≠ .panicked why)
    (hheight : run'.height = run.height)
    (hleft : ¬ (run'.phase = .select ∨ ∃ rc, run'.phase = .addOwnRoundChange rc)) :
    run'.Equipped cfg where
  monitored hin := absurd hin hleft
  quorum_pos _ := by
    rw [hheight]
    exact h.quorum_pos hphase

theorem Run.Equipped.enterRound {round : UInt8} (cfg' : Config)
    (hquorum : 0 < cfg.validatorManager.quorum run.height) :
    (run.enterRound cfg' round).Equipped cfg := by
  have hheight := (Run.enterRound_same cfg' run round).1
  refine ⟨?_, fun _ => by rw [hheight]; exact hquorum⟩
  intro hin
  unfold Run.enterRound at hin ⊢
  split
  next hlast =>
    rw [if_pos hlast] at hin
    rcases hin with hin | ⟨rc, hin⟩ <;> cases hin
  next =>
    simp only
    split
    · simp
    · split
      · simp
      · split <;> simp

theorem RunStep.equipped (h : RunStep cfg msgs run ev msgs' run') (hold : run.Equipped cfg) :
    run'.Equipped cfg := by
  have hquorum : ∀ {phase : RunPhase}, run.phase = phase → (∀ why, phase ≠ .panicked why) →
      0 < cfg.validatorManager.quorum run.height := by
    intro phase hphase hne
    apply hold.quorum_pos
    rw [hphase]
    exact hne
  cases h with
  | round => exact ⟨hold.monitored, hold.quorum_pos⟩
  | futureProposal htask =>
    exact ⟨fun hin => ⟨by simp, (hold.monitored hin).2⟩, hold.quorum_pos⟩
  | futureRcc htask => exact ⟨fun hin => ⟨(hold.monitored hin).1, by simp⟩, hold.quorum_pos⟩
  | addOwnRoundChange hphase =>
    refine ⟨fun _ => hold.monitored (Or.inr ⟨_, hphase⟩), fun _ => hquorum hphase (by simp)⟩
  | finalProposalMissing hphase | takeFinalProposal hphase | prune hphase
  | timeoutProposalMissing hphase | timeoutTakeProposal hphase | cancel hphase
  | roundFinished hphase | timeoutCommit hphase | timeoutEarly hphase =>
    exact hold.leave (by simp [hphase]) rfl (by simp)
  | broadcastBlock hphase hnext =>
    refine hold.leave (by simp [hphase]) rfl ?_
    rcases hnext with rfl | ⟨why, rfl⟩ <;> simp
  | timeoutTakePrepares hphase hnext =>
    refine hold.leave (by simp [hphase]) rfl ?_
    rcases hnext with ⟨why, rfl⟩ | ⟨-, rfl⟩ <;> simp
  | broadcastRoundChange hphase => exact .enterRound cfg (hquorum hphase (by simp))
  | futureProposalReady hphase | futureRccReady hphase =>
    exact .enterRound cfg (hquorum hphase (by simp))

theorem Run.equipped_start (height : UInt64) : (Run.start cfg msgs height).Equipped cfg := by
  unfold Run.start
  simp only
  split
  next =>
    refine ⟨?_, ?_⟩
    · rintro (hin | ⟨rc, hin⟩) <;> cases hin
    · intro hne
      exact absurd rfl (hne _)
  next hquorum => exact .enterRound cfg (Nat.pos_of_ne_zero hquorum)

theorem Node.equipped_of_reachable {height : UInt64}
    (h : Reachable (Node.step cfg) (Node.init cfg height) n) :
    ∀ run ∈ n.runs, run.Equipped cfg :=
  h.invariant
    (fun _ _ _ hall hstep => (nodeStep_of_step hstep).forall_runs
      (P := fun _ run => run.Equipped cfg) (fun _ hP => hP) (fun height => Run.equipped_start height)
      (fun _ _ _ _ hrunstep hP => hrunstep.equipped hP) hall)
    (fun run hrun => by cases hrun)

/-! ## Rest -/

/-- Why a round task does not go on: it lacks a message, or it has failed. -/
inductive RoundTask.Rests (cfg : Config) (msgs : ConsensusMessages) (view : View) :
    RoundTask → Prop where
  /-- No proposal of the view is stored. -/
  | proposal {rx : Receiver} (h : msgs.storedProposal view = none) : Rests cfg msgs view (.recvProposal rx)
  /-- The store holds no quorum of what the loop counts. -/
  | messages {task : RoundTask} {loop : CountingLoop} (hloop : task.loop? = some loop)
      (h : ¬ loop.Reached cfg msgs view) : Rests cfg msgs view task
  /-- The proposal is invalid, or no block could be built. -/
  | failed {err : IBFTError} : Rests cfg msgs view (.failed err)
  /-- The block is too large to be hashed. -/
  | tooLarge : Rests cfg msgs view (.panicked serializationMessage)

/-- A run that rests in a round. -/
structure Run.Rests (cfg : Config) (msgs : ConsensusMessages) (run : Run) : Prop where
  select : run.phase = .select
  round : ∃ task, run.roundTask = some task ∧ task.Rests cfg msgs run.view
  /-- Every stored proposal of a later round is known to be invalid. -/
  futureProposal : ∀ v : View, v.height = run.height → run.round < v.round → ¬ Candidate msgs v
  /-- No later round has a quorum of valid round changes. -/
  futureRcc : ∀ round, run.round < round →
    ¬ CountingLoop.roundChange.Reached cfg msgs { height := run.height, round }

/-- The notifications a task waits for are all read: nothing it waits for is stored. -/
theorem RoundTask.rests_of_waiting {task : RoundTask} {ch : Channel} {rx : Receiver}
    (hloops : task.LoopInv cfg msgs view) (hwaits : task.WaitInv msgs view)
    (hwaiting : task.waiting msgs = some (ch, rx)) (hrecv : ch.recv rx = .pending) :
    task.Rests cfg msgs view := by
  cases task with
  | recvProposal rx' =>
    cases hwaiting
    obtain ⟨-, hunread⟩ := hwaits
    rw [Channel.drop_eq_nil hrecv] at hunread
    refine .proposal ?_
    by_contra hstored
    cases hunread hstored
  | recvPrepare | recvCommit | recvRoundChange =>
    exact .messages rfl (hloops.not_reached rfl hwaiting hrecv)
  | _ => cases hwaiting

/-- Left alone, a node comes to rest. -/
theorem Node.comes_to_rest {height : UInt64}
    (h : Reachable (Node.step cfg) (Node.init cfg height) n) :
    ∃ es n', (∀ ev ∈ es, ev.Driven) ∧ exec (Node.step cfg) n es = some n' ∧
      Settled (Node.step cfg) Event.Driven n' :=
  ((Node.ends_of_reachable h).mono fun _ => Event.Driven.internal).exists_settled

/-- What is known of the current run of a node. -/
structure Node.RestKnown (cfg : Config) (n : Node) (run : Run) : Prop where
  current : n.run = some run
  inv : run.Inv cfg n.knowledge
  loops : run.LoopsInv cfg n.messages
  waits : run.WaitsInv n.messages
  roundChanges : RoundChangesLe n.messages
  equipped : run.Equipped cfg
  asserted : run.AssertionsHold
  receives : run.ReceivesSurvive

variable {height : UInt64}

theorem Node.assertionsInv_of_reachable (hsole : SoleProposer cfg)
    (h : Reachable (Node.step cfg) (Node.init cfg height) n) : n.AssertionsInv cfg :=
  h.invariant_of (fun _ hn => Node.assertionsKnown_of_reachable hsole hn)
    (fun _ _ _ hknown hknown' hold hstep => hold.step hknown hknown' hstep)
    ⟨fun _ hrun => (nomatch hrun), fun _ hrun => (nomatch hrun)⟩

theorem Node.receivesSurvive_of_reachable
    (h : ReachableWithin (Node.step cfg) Node.KeepsUp (Node.init cfg height) n) :
    n.ReceivesSurvive := by
  refine h.invariant_of (fun _ _ => trivial) ?_ (fun run hmem => by cases hmem)
  intro m ev m' _ _ hkeeps hold hstep
  refine (nodeStep_of_step hstep).forall_runs (P := fun _ run => run.ReceivesSurvive)
    (fun _ hP => hP) (fun _ => (Run.spawned_start cfg _ _).receivesSurvive) ?_ hold
  intro run run' hrun _ hrunstep hP
  exact hrunstep.receivesSurvive (hkeeps run hrun) hP

/-- The handler of a node at rest waits for a message. -/
theorem Node.pending_of_settled (hsettled : Settled (Node.step cfg) Event.Driven n) :
    n.pending = none := by
  have hadd : n.addPending = none := hsettled .addPending trivial
  unfold Node.addPending at hadd
  split at hadd
  next hpending => exact hpending
  next => cases hadd

namespace Node.RestKnown

theorem of_reachable (hsole : SoleProposer cfg)
    (hreach : ReachableWithin (Node.step cfg) Node.KeepsUp (Node.init cfg height) n)
    (hrun : n.run = some run) (hclean : NoOwnMessages cfg run.initialMessages run.height) :
    n.RestKnown cfg run := by
  have hmem : run ∈ n.runs := List.mem_append_right _ (Option.mem_toList.mpr hrun)
  have hreach' := hreach.reachable
  exact
    { current := hrun
      inv := (Node.inv_of_reachable hreach').run run hrun
      loops := (Node.loopsInv_of_reachable hreach').run run hrun
      waits := Node.waitsInv_of_reachable hreach' run hrun
      roundChanges := Node.roundChangesLe_of_reachable hreach'
      equipped := Node.equipped_of_reachable hreach' run hmem
      asserted := (Node.assertionsInv_of_reachable hsole hreach').holds run hmem hclean
      receives := Node.receivesSurvive_of_reachable hreach run hmem }

theorem stuck_round (h : n.RestKnown cfg run) (hsettled : Settled (Node.step cfg) Event.Driven n)
    {task : RoundTask} (htask : run.roundTask = some task) (env : Env) :
    task.step cfg env run.view run.runState n.messages = none := by
  have hround : n.run.bind (fun run => n.stepRound cfg run env) = none :=
    hsettled (.round env) trivial
  rw [h.current, Option.bind_some] at hround
  by_contra hne
  obtain ⟨s, hs⟩ := Option.ne_none_iff_exists'.mp hne
  simp [Node.stepRound, htask, hs] at hround

theorem stuck_futureProposal (h : n.RestKnown cfg run)
    (hsettled : Settled (Node.step cfg) Event.Driven n) {task : FutureProposalTask}
    (htask : run.futureProposalTask = some task) (env : Env) :
    task.step cfg env run.view run.runState n.messages = none := by
  have hmonitor : n.run.bind (fun run => n.stepFutureProposal cfg run env) = none :=
    hsettled (.futureProposal env) trivial
  rw [h.current, Option.bind_some] at hmonitor
  by_contra hne
  obtain ⟨s, hs⟩ := Option.ne_none_iff_exists'.mp hne
  simp [Node.stepFutureProposal, htask, hs] at hmonitor

theorem stuck_futureRcc (h : n.RestKnown cfg run)
    (hsettled : Settled (Node.step cfg) Event.Driven n) {task : FutureRccTask}
    (htask : run.futureRccTask = some task) :
    task.step cfg run.view run.runState n.messages = none := by
  have hmonitor : n.run.bind (fun run => n.stepFutureRcc cfg run) = none :=
    hsettled .futureRcc trivial
  rw [h.current, Option.bind_some] at hmonitor
  by_contra hne
  obtain ⟨s, hs⟩ := Option.ne_none_iff_exists'.mp hne
  simp [Node.stepFutureRcc, htask, hs] at hmonitor

/-- A branch of `select!` that is ready is taken. -/
theorem stuck_select (h : n.RestKnown cfg run)
    (hsettled : Settled (Node.step cfg) Event.Driven n) (ev : Event) (hdriven : ev.Driven)
    (hev : ev = .roundFinished ∨ ev = .futureProposalReady ∨ ev = .futureRccReady) :
    n.stepSelect cfg run ev = none := by
  have hselect : n.run.bind (fun run => n.stepSelect cfg run ev) = none := by
    rcases hev with rfl | rfl | rfl <;> exact hsettled _ hdriven
  rwa [h.current, Option.bind_some] at hselect

/-- The task of `run_height` stops in `select!` or at its end. -/
theorem phase_cases (h : n.RestKnown cfg run) (hsettled : Settled (Node.step cfg) Event.Driven n) :
    run.phase = .select ∨ (∃ result, run.phase = .returned result) ∨
      ∃ why ∈ runMessages, run.phase = .panicked why := by
  obtain ⟨env⟩ : Nonempty Env := inferInstance
  have hmain : n.run.bind (fun run => n.stepMain cfg run env) = none := hsettled (.main env) trivial
  rw [h.current, Option.bind_some] at hmain
  unfold Node.stepMain at hmain
  cases hphase : run.phase with
  | select => exact Or.inl rfl
  | returned result => exact Or.inr (Or.inl ⟨result, rfl⟩)
  | panicked why => exact Or.inr (Or.inr ⟨why, h.asserted.phase why hphase, rfl⟩)
  | broadcastBlock block =>
    simp only [hphase] at hmain
    split at hmain <;> cases hmain
  | addOwnRoundChange | takeFinalProposal | prune | timeoutTakeProposal | timeoutTakePrepares
  | broadcastRoundChange =>
    simp only [hphase] at hmain
    cases hmain

/-- The round task of a node at rest lacks a message or has failed. -/
theorem rests_round (h : n.RestKnown cfg run) (hsettled : Settled (Node.step cfg) Event.Driven n)
    (hselect : run.phase = .select) :
    ∃ task, run.roundTask = some task ∧ task.Rests cfg n.messages run.view := by
  obtain ⟨env⟩ : Nonempty Env := inferInstance
  have hphase := h.inv.phase
  rw [hselect] at hphase
  obtain ⟨task, htask, -⟩ := hphase
  refine ⟨task, htask, ?_⟩
  rcases RoundTask.stuck_cases (h.stuck_round hsettled htask env) with hended | ⟨ch, rx, hwait, hrecv⟩
  · cases task with
    | finished seals =>
      -- The branch of `select!` for the result is ready.
      have hstuck := h.stuck_select hsettled .roundFinished trivial (Or.inl rfl)
      simp [Node.stepSelect, hselect, htask] at hstuck
    | failed err => exact .failed
    | panicked why =>
      have hsurvives := h.receives.round _ htask
      rcases h.asserted.round why htask with hmem | rfl
      · simp [RoundTask.recvPanicked, hmem] at hsurvives
      · exact .tooLarge
    | _ => exact absurd hended id
  · exact RoundTask.rests_of_waiting (h.loops.round task htask) (h.waits.round task htask) hwait hrecv

/-- The monitor of proposals of a node at rest has no proposal to jump to. -/
theorem rests_futureProposal (h : n.RestKnown cfg run)
    (hsettled : Settled (Node.step cfg) Event.Driven n) (hselect : run.phase = .select) :
    ∀ v : View, v.height = run.height → run.round < v.round → ¬ Candidate n.messages v := by
  obtain ⟨env⟩ : Nonempty Env := inferInstance
  obtain ⟨task, htask⟩ := Option.ne_none_iff_exists'.mp (h.equipped.monitored (Or.inl hselect)).1
  rcases FutureProposalTask.stuck_cases (h.stuck_futureProposal hsettled htask env) with
    ⟨rx, rfl, hrecv⟩ | ⟨round, rfl⟩ | ⟨why, rfl⟩
  · exact h.waits.proposalsAwaited.later rx htask hrecv
  · have hstuck := h.stuck_select hsettled .futureProposalReady trivial
      (Or.inr (Or.inl rfl))
    simp [Node.stepSelect, hselect, htask] at hstuck
  · have hsurvives := h.receives.futureProposal _ htask
    have hmem := h.asserted.futureProposal why htask
    simp [FutureProposalTask.recvPanicked, hmem] at hsurvives

/-- The monitor of round changes of a node at rest has no quorum to jump to. -/
theorem rests_futureRcc (h : n.RestKnown cfg run)
    (hsettled : Settled (Node.step cfg) Event.Driven n) (hselect : run.phase = .select) :
    ∀ round, run.round < round →
      ¬ CountingLoop.roundChange.Reached cfg n.messages { height := run.height, round } := by
  obtain ⟨task, htask⟩ := Option.ne_none_iff_exists'.mp (h.equipped.monitored (Or.inl hselect)).2
  rcases FutureRccTask.stuck_cases (h.stuck_futureRcc hsettled htask) with
    ⟨rx, counts, rfl, hrecv⟩ | ⟨round, rfl⟩ | ⟨why, rfl⟩
  · intro round hround
    have hquorum := h.equipped.quorum_pos (by simp [hselect])
    exact (h.loops.futureRcc _ htask).not_reached h.roundChanges hquorum hrecv hround
  · have hstuck := h.stuck_select hsettled .futureRccReady trivial (Or.inr (Or.inr rfl))
    simp [Node.stepSelect, hselect, htask] at hstuck
  · have hsurvives := h.receives.futureRcc _ htask
    have hmem := h.asserted.futureRcc why htask
    simp [FutureRccTask.recvPanicked, hmem] at hsurvives

end Node.RestKnown

/-- Where the current run of a node at rest is. -/
inductive Run.AtRest (cfg : Config) (msgs : ConsensusMessages) (run : Run) : Prop where
  | returned {result : Option FinalizedBlock} (h : run.phase = .returned result) : AtRest cfg msgs run
  | panicked {why : String} (h : run.phase = .panicked why) (hwhy : why ∈ runMessages) :
    AtRest cfg msgs run
  | waiting (h : run.Rests cfg msgs) : AtRest cfg msgs run

/-- **A node rests for lack of messages only**: where no step is left to a node whose receivers
kept up, its run is over, or it waits in a round for what its store does not hold. -/
theorem atRest_of_settled (hunique : cfg.validatorManager.UniqueProposer)
    (hreach : ReachableWithin (Node.step cfg) Node.KeepsUp (Node.init cfg height) n)
    (hsettled : Settled (Node.step cfg) Event.Driven n) (hrun : n.run = some run)
    (hclean : NoOwnMessages cfg run.initialMessages run.height) :
    n.pending = none ∧ run.AtRest cfg n.messages := by
  have h := Node.RestKnown.of_reachable hunique.soleProposer hreach hrun hclean
  refine ⟨Node.pending_of_settled hsettled, ?_⟩
  rcases h.phase_cases hsettled with hselect | ⟨result, hreturned⟩ | ⟨why, hwhy, hpanicked⟩
  · exact .waiting ⟨hselect, h.rests_round hsettled hselect, h.rests_futureProposal hsettled hselect,
      h.rests_futureRcc hsettled hselect⟩
  · exact .returned hreturned
  · exact .panicked hpanicked hwhy

/-! ## A validator that waits -/

theorem waitingNode_reachable :
    ReachableWithin (Node.step fourConfig) Node.KeepsUp (Node.init fourConfig 0) waitingNode :=
  reachableWithin_get (by decide +kernel) _

theorem waitingNode_settled : Settled (Node.step fourConfig) Event.Driven waitingNode := by
  have hround : waitingRun.roundTask = some (.recvProposal 0) := by decide +kernel
  have hproposal : waitingRun.futureProposalTask = some (.recv 0) := by decide +kernel
  have hrcc : waitingRun.futureRccTask = some (.recv 0 (List.replicate 22 0)) := by decide +kernel
  have hpending : waitingNode.pending = none := by decide +kernel
  have hselect : waitingRun.phase = .select := by decide +kernel
  have hproposals : waitingNode.messages.proposalTx.recv 0 = .pending := by decide +kernel
  have hroundChanges : waitingNode.messages.roundChangeTx.recv 0 = .pending := by decide +kernel
  intro ev hdriven
  cases ev with
  | receive | runHeight | cancel | timeout => exact absurd hdriven id
  | addPending =>
    show waitingNode.addPending = none
    rw [Node.addPending, hpending]
  | round env =>
    simp [Node.step, waitingNode_run, Node.stepRound, hround, RoundTask.step, hproposals]
  | futureProposal env =>
    simp [Node.step, waitingNode_run, Node.stepFutureProposal, hproposal, FutureProposalTask.step, hproposals]
  | futureRcc =>
    simp [Node.step, waitingNode_run, Node.stepFutureRcc, hrcc, FutureRccTask.step, hroundChanges]
  | main env =>
    simp [Node.step, waitingNode_run, Node.stepMain, hselect]
  | roundFinished =>
    simp [Node.step, waitingNode_run, Node.stepSelect, hselect, hround]
  | futureProposalReady =>
    simp [Node.step, waitingNode_run, Node.stepSelect, hselect, hproposal]
  | futureRccReady =>
    simp [Node.step, waitingNode_run, Node.stepSelect, hselect, hrcc]

theorem atRest_of_settled_waiting :
    waitingNode.pending = none ∧ waitingRun.AtRest fourConfig waitingNode.messages :=
  atRest_of_settled (fun _ _ _ ha hb => mockManager_proposer_unique _ ha hb) waitingNode_reachable
    waitingNode_settled waitingNode_run
    (Node.noOwnMessages_of_once waitingNode_reachable.reachable (by decide +kernel)
      (List.mem_append_right _ (Option.mem_toList.mpr waitingNode_run)))

end Tonic
