/-
# Running a cancelled height again

The store outlives a cancelled run; its round, its locks and its digest do not.  When the
height is run again, nothing compares what the new run is about to sign with what the old
one has signed: the proposer branch builds its block without a look at the store, and
adding the proposal keeps the old one silently.  The new run then works for one block
while the store holds another.

Runs that meet with their own earlier choices are safe: the block service returns the
block that was proposed before, a round is not proposed in twice from taken round changes,
and a stored proposal is the one that was prepared before.
-/
import Tonic.FinalizedProof

namespace Tonic

open Transition

variable (cfg : Config)

/-! ## What a node has signed for a view -/

/-- The proposals of a history for a view. -/
def proposalsAt (history : List Action) (view : View) : List ProposalMessageSigned :=
  history.filterMap fun
    | .broadcast (.proposal p) => if p.view = view then some p else none
    | _ => none

/-- The prepares of a history for a view. -/
def preparesAt (history : List Action) (view : View) : List PrepareMessageSigned :=
  history.filterMap fun
    | .broadcast (.prepare m) => if m.view = view then some m else none
    | _ => none

theorem mem_proposalsAt {history : List Action} {view : View} {p : ProposalMessageSigned} :
    p ∈ proposalsAt history view ↔ .broadcast (.proposal p) ∈ history ∧ p.view = view := by
  rw [proposalsAt, List.mem_filterMap]
  constructor
  · rintro ⟨a, ha, hp⟩
    split at hp
    next q =>
      split at hp
      next hview =>
        cases hp
        exact ⟨ha, hview⟩
      next => cases hp
    next => cases hp
  · rintro ⟨hp, hview⟩
    exact ⟨_, hp, if_pos hview⟩

theorem mem_preparesAt {history : List Action} {view : View} {m : PrepareMessageSigned} :
    m ∈ preparesAt history view ↔ .broadcast (.prepare m) ∈ history ∧ m.view = view := by
  rw [preparesAt, List.mem_filterMap]
  constructor
  · rintro ⟨a, ha, hm⟩
    split at hm
    next q =>
      split at hm
      next hview =>
        cases hm
        exact ⟨ha, hview⟩
      next => cases hm
    next => cases hm
  · rintro ⟨hm, hview⟩
    exact ⟨_, hm, if_pos hview⟩

/-! ## The condition and the property -/

/-- What a step of a run meets with, if the node has signed for its view before: the same block
from the block service, no second proposal from round changes, the proposal it has prepared. -/
def Run.resumesSafely (history : List Action) (msgs : ConsensusMessages) (run : Run) :
    Event → Bool
  | .round env =>
    match run.roundTask with
    | some .start =>
      run.round ≠ 0 || (proposalsAt history run.view).all
        (fun q => env.buildBlock run.height = .ok q.proposedBlock.rawBlock)
    | some (.takeRoundChanges _) =>
      (ConsensusMessages.viewEntries (msgs.retainVerified run.view
          (roundChangeVerifyFn cfg run.height)) run.view).length
        < cfg.validatorManager.quorum run.height || (proposalsAt history run.view).isEmpty
    | some (.getProposal _) | some .getProposalAgain =>
      match msgs.storedProposal run.view with
      | none => true
      | some p => (preparesAt history run.view).all
          (fun m => m.proposedBlockDigest = p.proposedBlockDigest)
    | _ => true
  | _ => true

def Node.resumesSafely (n : Node) (ev : Event) : Bool :=
  match n.run with
  | none => true
  | some run => run.resumesSafely cfg n.history n.messages ev

/-- The digest that a round is driving, once its proposal is stored. -/
def RoundTask.digest? : RoundTask → Option Digest
  | .broadcastPrepare m | .addPrepare m => some m.proposedBlockDigest
  | .countPrepares d _ | .recvPrepare d _ _ => some d
  | .broadcastCommit m | .addCommit m => some m.proposedBlockDigest
  | .takeSeals d _ | .recvCommit d _ _ => some d
  | _ => none

/-- What a node has signed and stored and returned, over all its runs, fits together. -/
structure Node.SafeToResume (n : Node) : Prop where
  one_proposal : ∀ p q, .broadcast (.proposal p) ∈ n.history →
    .broadcast (.proposal q) ∈ n.history → p.view = q.view → p = q
  one_prepare : ∀ m m', .broadcast (.prepare m) ∈ n.history →
    .broadcast (.prepare m') ∈ n.history → m.view = m'.view → m = m'
  one_commit : ∀ m m', .broadcast (.commit m) ∈ n.history →
    .broadcast (.commit m') ∈ n.history → m.view = m'.view → m = m'
  driven : ∀ run task d, n.run = some run → run.roundTask = some task → task.digest? = some d →
    ∃ p, n.messages.storedProposal run.view = some p ∧ p.proposedBlockDigest = d
  /-- A block returned comes with a quorum of seals over its own digest. -/
  finalized : ∀ height block, .finalized height block ∈ n.history →
    cfg.validatorManager.quorum height ≤ block.proof.commitSeals.length ∧
      SignedSeals cfg height (digestBlock cfg.crypto block.rawBlock block.proof.round)
        block.proof.commitSeals

/-! ## The invariant -/

/-- The task waits for round changes to propose from. -/
def RoundTask.awaitsRoundChanges : RoundTask → Bool
  | .takeRoundChanges _ | .recvRoundChange _ _ => true
  | _ => false

/-- The proposal carries round changes only above round 0. -/
def BareInRoundZero (p : ProposalMessageSigned) : Prop :=
  p.view.round = 0 → p.roundChangeCertificate = none

/-- What a run is about to sign agrees with what the node has signed. -/
structure Run.Agrees (history : List Action) (run : Run) : Prop where
  waits : ∀ task, run.roundTask = some task → task.awaitsRoundChanges = true → run.round ≠ 0
  proposal : ∀ p, run.roundTask = some (.broadcastProposal p) →
    BareInRoundZero p ∧ ∀ q, .broadcast (.proposal q) ∈ history → q.view = p.view → q = p
  prepare : ∀ m, run.roundTask = some (.broadcastPrepare m) →
    ∀ m', .broadcast (.prepare m') ∈ history → m'.view = m.view → m' = m

structure Node.ResumeInv (n : Node) : Prop where
  one_proposal : ∀ p q, .broadcast (.proposal p) ∈ n.history →
    .broadcast (.proposal q) ∈ n.history → p.view = q.view → p = q
  one_prepare : ∀ m m', .broadcast (.prepare m) ∈ n.history →
    .broadcast (.prepare m') ∈ n.history → m.view = m'.view → m = m'
  bare : ∀ p, .broadcast (.proposal p) ∈ n.history → BareInRoundZero p
  agrees : ∀ run, n.run = some run → run.Agrees n.history
  drive : ∀ run, n.run = some run → run.Drive cfg n.messages
  proven : ∀ run ∈ n.runs, run.ProvenBlocks cfg n.knowledge

variable {cfg} {n n' : Node} {msgs msgs' : ConsensusMessages} {run run' : Run} {ev : Event}
  {K K' : Knowledge} {view : View}

/-! ### The tasks -/

/-- A task comes to wait for round changes only from the start of a round above 0. -/
theorem RoundTask.awaitsRoundChanges_of_step {task : RoundTask} {env : Env} {runState : RunState}
    {s : TaskStep RoundTask} (hstep : task.step cfg env view runState msgs = some s)
    (hs : s.task.awaitsRoundChanges = true) :
    view.round ≠ 0 ∨ task.awaitsRoundChanges = true := by
  cases task with
  | start =>
    -- In round 0 the proposer builds its block at once.
    refine Or.inl fun hround => ?_
    cases hstep
    simp only [goto, pollStart, hround, if_true, buildAndPropose, propose] at hs
    repeat' split at hs
    all_goals cases hs
  | takeRoundChanges | recvRoundChange => exact Or.inr rfl
  | broadcastProposal | broadcastPrepare | broadcastCommit | addProposal | addPrepare
  | addCommit =>
    cases hstep
    cases hs
  | getProposal | getProposalAgain =>
    cases hstep
    simp only [prepareDigest] at hs
    split at hs <;> cases hs
  | countPrepares d rx =>
    cases hstep
    simp only [goto, prepareCounted] at hs
    split at hs <;> cases hs
  | takeSeals d rx =>
    cases hstep
    simp only [goto, sealsTaken] at hs
    repeat' split at hs
    all_goals cases hs
  | recvProposal | recvPrepare | recvCommit =>
    rcases step_of_waiting hstep rfl with ⟨-, why, -, rfl⟩ | ⟨v, -, rfl⟩
    · cases hs
    · simp only [goto, notified] at hs
      repeat' split at hs
      all_goals cases hs
  | finished | failed | panicked => cases hstep

theorem ConsensusMessages.getValidProposalDigest_stored {v : View}
    {f : ProposalMessageSigned → Except IBFTError Unit} {d : Digest}
    (h : (msgs.getValidProposalDigest v f).1 = some (.ok d)) :
    ∃ p, msgs.storedProposal v = some p ∧ p.proposedBlockDigest = d := by
  obtain ⟨p, hp, hd, -⟩ := ConsensusMessages.getValidProposalDigest_ok h
  exact ⟨p, hp, hd⟩

/-- A step that meets with the earlier choices makes no other ones. -/
theorem Run.Agrees.round {env : Env} {task : RoundTask} {s : TaskStep RoundTask}
    {history : List Action} (hown : ∀ m, .broadcast m ∈ history → ActionOk cfg K (.broadcast m))
    (hbare : ∀ p, .broadcast (.proposal p) ∈ history → BareInRoundZero p)
    (h : run.Agrees history) (htask : run.roundTask = some task)
    (hs : task.step cfg env run.view run.runState msgs = some s)
    (hsafe : run.resumesSafely cfg history msgs (.round env) = true)
    (hinv' : Run.Inv cfg K' { run with
      roundTask := some s.task, runState := s.runState, log := run.log ++ s.actions }) :
    Run.Agrees history
      { run with roundTask := some s.task, runState := s.runState, log := run.log ++ s.actions } where
  waits task' htask' hawaits := by
    cases htask'
    rcases RoundTask.awaitsRoundChanges_of_step hs hawaits with hround | hawaits
    · exact hround
    · exact h.waits task htask hawaits
  proposal p hp := by
    rcases RoundTask.broadcastProposal_of_step hs (Option.some.inj hp) with
      ⟨rfl, hround, b, hb, rfl⟩ | ⟨⟨rx, rfl⟩, hlen⟩
    · refine ⟨fun _ => rfl, fun q hq hview => ?_⟩
      -- The block service has returned the block proposed before.
      simp only [Run.resumesSafely, htask, show run.round = 0 from hround, ne_eq, not_true_eq_false,
        decide_false, Bool.false_or, List.all_eq_true, decide_eq_true_eq] at hsafe
      have hblock := hsafe q (mem_proposalsAt.mpr ⟨hq, hview⟩)
      rw [show env.buildBlock run.height = .ok b from hb] at hblock
      obtain ⟨-, -, b', rcc, hq'⟩ : OwnProposal cfg q := hown _ hq
      have hrcc : q.roundChangeCertificate = none := hbare q hq (by rw [hview]; exact hround)
      rw [hq'] at hrcc hblock
      rw [hq', hview]
      obtain rfl : rcc = none := hrcc
      obtain rfl : b = b' := Except.ok.inj hblock
      rfl
    · have hround := h.waits _ htask rfl
      simp only [Run.resumesSafely, htask, Bool.or_eq_true, decide_eq_true_eq,
        List.isEmpty_iff] at hsafe
      have hnone := hsafe.resolve_left (not_lt.mpr hlen)
      have hpview : p.view = run.view := (hinv'.select_of_task hp).2.2.2.2
      refine ⟨fun hzero => absurd hzero (by rw [hpview]; exact hround), fun q hq hview => ?_⟩
      have hmem := mem_proposalsAt.mpr ⟨hq, hview.trans hpview⟩
      rw [hnone] at hmem
      cases hmem
  prepare m hm m' hm' hview := by
    obtain ⟨hquery, hd, -⟩ := RoundTask.broadcastPrepare_of_step hs (Option.some.inj hm)
    obtain ⟨p, hp, hdigest⟩ := ConsensusMessages.getValidProposalDigest_stored hd
    obtain ⟨-, -, -, hownm, hmview⟩ := hinv'.select_of_task hm
    -- The stored proposal is the one prepared before.
    have hsame : p.proposedBlockDigest = m'.proposedBlockDigest := by
      have hmem := mem_preparesAt.mpr ⟨hm', hview.trans hmview⟩
      rcases hquery with ⟨rx, rfl⟩ | rfl
      all_goals
        simp only [Run.resumesSafely, htask, hp, List.all_eq_true, decide_eq_true_eq] at hsafe
        exact (hsafe m' hmem).symm
    have hownm' : OwnPrepare cfg K m' := hown _ hm'
    rw [hownm'.eq_own, hownm.eq_own, hview, ← hsame, hdigest]

/-! ### The steps of a node -/

/-- A run that neither proposes nor prepares next. -/
theorem Run.agrees_of_start {history : List Action}
    (h : ∀ task, run.roundTask = some task → task = .start) : run.Agrees history where
  waits task htask hawaits := by
    obtain rfl := h task htask
    cases hawaits
  proposal p hp := by cases h _ hp
  prepare m hm := by cases h _ hm

/-- What a step leaves of the round task, unless it is one of its own. -/
theorem RunStep.roundTask_cases (h : RunStep cfg msgs run ev msgs' run') :
    (run'.roundTask = run.roundTask ∧ run'.round = run.round) ∨
      (∀ task, run'.roundTask = some task → task = .start) ∨
      ∃ env task s, ev = .round env ∧ run.roundTask = some task ∧
        task.step cfg env run.view run.runState msgs = some s ∧
        run' = { run with
          roundTask := some s.task, runState := s.runState, log := run.log ++ s.actions } := by
  cases h with
  | round htask hs => exact Or.inr (Or.inr ⟨_, _, _, rfl, htask, hs, rfl⟩)
  | addOwnRoundChange => exact Or.inr (Or.inl fun task htask => (Option.some.inj htask).symm)
  | broadcastRoundChange | futureProposalReady | futureRccReady =>
    exact Or.inr (Or.inl (Run.spawned_enterRound cfg _ _).round)
  | cancel | roundFinished | timeoutCommit | timeoutEarly =>
    exact Or.inr (Or.inl fun task htask => by cases htask)
  | _ => exact Or.inl ⟨rfl, rfl⟩

namespace Node

/-- The slot of the node's own proposal is vacant or holds that proposal. -/
theorem ResumeInv.slotFree (h : n.ResumeInv cfg) (hsole : SoleProposer cfg) (hinv : n.Inv cfg)
    (hrun : n.run = some run) (ev : Event) : run.SlotFree n.messages ev := by
  cases ev with
  | round env =>
    intro p htask q hq
    obtain ⟨-, -, -, hview, hsent⟩ := (hinv.run run hrun).select_of_task htask
    have hown : OwnProposal cfg p := hinv.actions _ hsent
    obtain ⟨hqview, -⟩ := hinv.store.proposal _ q hq
    have hqsent := hinv.store.sent_of_proposer hsole hown.isProposer hq
    rw [h.one_proposal q p hqsent hsent hqview]
  | _ => trivial

/-- Where a broadcast that a node has made comes from. -/
theorem broadcast_mem_history (hinv : n.Inv cfg) (hrun : n.run = some run)
    (hstep : RunStep cfg n.messages run ev msgs' run') (height : UInt64) {m : IBFTMessage}
    (hm : .broadcast m ∈ ({ n with messages := msgs', run := some run', height } : Node).history) :
    .broadcast m ∈ n.history ∨
      (∃ task, run.roundTask = some task ∧ task.outgoing = some m) ∨ ∃ rc, m = .roundChange rc := by
  obtain ⟨r, hr, hlog⟩ := List.mem_flatMap.mp hm
  rcases List.mem_append.mp hr with hr | hr
  · exact Or.inl (mem_history (List.mem_append_left _ hr) hlog)
  · cases Option.mem_toList.mp hr
    rcases hstep.broadcast_mem_log hinv.round_le_of_storedProposal (hinv.run run hrun) hlog with
      hlog | hout | ⟨rc, hrc, -⟩
    · exact Or.inl (mem_history (List.mem_append_right _ (Option.mem_toList.mpr hrun)) hlog)
    · exact Or.inr (Or.inl hout)
    · exact Or.inr (Or.inr ⟨rc, hrc⟩)

/-- **A step that meets with the earlier choices of the node keeps everything together.** -/
theorem ResumeInv.step (h : n.ResumeInv cfg) (hsole : SoleProposer cfg) (hinv : n.Inv cfg)
    (hinv' : n'.Inv cfg) (hsafe : n.resumesSafely cfg ev = true)
    (hstep : NodeStep cfg n ev n') : n'.ResumeInv cfg := by
  have hK := hstep.knowledge_le
  have hproven : ∀ run ∈ n'.runs, run.ProvenBlocks cfg n'.knowledge :=
    hstep.forall_runs (fun hK hP => Run.ProvenBlocks.mono hK hP)
      (fun height => Run.start_provenBlocks height)
      (fun run run' hrun _ hrunstep hP =>
        (hP.step hsole hinv (h.drive run hrun) hrun hrunstep).mono hK) h.proven
  cases hstep with
  | receive => exact ⟨h.one_proposal, h.one_prepare, h.bare, h.agrees, h.drive, hproven⟩
  | addPending =>
    exact ⟨h.one_proposal, h.one_prepare, h.bare, h.agrees,
      fun run hrun => (h.drive run hrun).of_storedProposal fun p hp =>
        ConsensusMessages.storedProposal_addMessage_of_some hp, hproven⟩
  | @runHeight height past hpast =>
    subst hpast
    -- A new run has broadcast nothing yet.
    have hold : ∀ {m : IBFTMessage}, .broadcast m ∈ Node.history
        { n with run := some (Run.start cfg n.messages height), past := n.runs } →
        .broadcast m ∈ n.history := by
      intro m hm
      obtain ⟨r, hr, hlog⟩ := List.mem_flatMap.mp hm
      rcases List.mem_append.mp hr with hr | hr
      · exact mem_history hr hlog
      · cases Option.mem_toList.mp hr
        rcases (inv_start cfg n.knowledge n.messages height).2 with hnil | hentered
        · rw [hnil] at hlog
          cases hlog
        · rw [hentered] at hlog
          cases List.mem_singleton.mp hlog
    refine ⟨fun p q hp hq => h.one_proposal p q (hold hp) (hold hq),
      fun m m' hm hm' => h.one_prepare m m' (hold hm) (hold hm'), fun p hp => h.bare p (hold hp),
      fun run hrun => ?_, fun run hrun => ?_, hproven⟩
    · cases hrun
      exact Run.agrees_of_start (Run.spawned_start cfg _ height).round
    · cases hrun
      exact Run.start_drive _ _ (hinv'.run _ rfl)
  | @run ev run run' msgs height hrun hrunstep =>
    have hagrees := h.agrees run hrun
    have hnew := fun {m : IBFTMessage} => broadcast_mem_history (m := m) hinv hrun hrunstep height
    have hproposal : ∀ p, .broadcast (.proposal p) ∈ Node.history
        { n with messages := msgs, run := some run', height } →
        .broadcast (.proposal p) ∈ n.history ∨ run.roundTask = some (.broadcastProposal p) := by
      intro p hp
      rcases hnew hp with hp | ⟨task, htask, hout⟩ | ⟨rc, hrc⟩
      · exact Or.inl hp
      · rw [htask, RoundTask.eq_broadcastProposal hout]
        exact Or.inr rfl
      · cases hrc
    have hprepare : ∀ m, .broadcast (.prepare m) ∈ Node.history
        { n with messages := msgs, run := some run', height } →
        .broadcast (.prepare m) ∈ n.history ∨ run.roundTask = some (.broadcastPrepare m) := by
      intro m hm
      rcases hnew hm with hm | ⟨task, htask, hout⟩ | ⟨rc, hrc⟩
      · exact Or.inl hm
      · rw [htask, RoundTask.eq_broadcastPrepare hout]
        exact Or.inr rfl
      · cases hrc
    refine ⟨fun p q hp hq hview => ?_, fun m m' hm hm' hview => ?_, fun p hp => ?_,
      fun r hr => ?_, fun r hr => ?_, hproven⟩
    · rcases hproposal p hp with hp | hp <;> rcases hproposal q hq with hq | hq
      · exact h.one_proposal p q hp hq hview
      · exact (hagrees.proposal q hq).2 p hp hview
      · exact ((hagrees.proposal p hp).2 q hq hview.symm).symm
      · rw [hp] at hq
        cases hq
        rfl
    · rcases hprepare m hm with hm | hm <;> rcases hprepare m' hm' with hm' | hm'
      · exact h.one_prepare m m' hm hm' hview
      · exact hagrees.prepare m' hm' m hm hview
      · exact (hagrees.prepare m hm m' hm' hview.symm).symm
      · rw [hm] at hm'
        cases hm'
        rfl
    · rcases hproposal p hp with hp | hp
      · exact h.bare p hp
      · exact (hagrees.proposal p hp).1
    · cases hr
      rcases hrunstep.roundTask_cases with ⟨htask, hround⟩ | hstart |
        ⟨env, task, s, rfl, htask, hs, rfl⟩
      · refine ⟨fun task ht => ?_, fun p hp => ?_, fun m hm m' hm' hview => ?_⟩
        · rw [hround]
          exact hagrees.waits task (htask ▸ ht)
        · rw [htask] at hp
          refine ⟨(hagrees.proposal p hp).1, fun q hq hview => ?_⟩
          rcases hproposal q hq with hq | hq
          · exact (hagrees.proposal p hp).2 q hq hview
          · rw [hp] at hq
            cases hq
            rfl
        · rw [htask] at hm
          rcases hprepare m' hm' with hm' | hm'
          · exact hagrees.prepare m hm m' hm' hview
          · rw [hm] at hm'
            cases hm'
            rfl
      · exact Run.agrees_of_start hstart
      · have hsafe' : run.resumesSafely cfg n.history n.messages (.round env) = true := by
          rw [resumesSafely, hrun] at hsafe
          exact hsafe
        have hnext := hagrees.round (fun m hm => hinv.actions _ hm) h.bare htask hs hsafe'
          (hinv'.run _ rfl)
        refine ⟨hnext.waits, fun p hp => ?_, fun m hm m' hm' hview => ?_⟩
        · refine ⟨(hnext.proposal p hp).1, fun q hq hview => ?_⟩
          rcases hproposal q hq with hq | hq
          · exact (hnext.proposal p hp).2 q hq hview
          · -- The step before a broadcast is none.
            rw [htask] at hq
            rcases RoundTask.broadcastProposal_of_step hs (Option.some.inj hp) with
              ⟨rfl, -⟩ | ⟨⟨rx, rfl⟩, -⟩ <;> cases hq
        · rcases hprepare m' hm' with hm' | hm'
          · exact hnext.prepare m hm m' hm' hview
          · rw [htask] at hm'
            rcases (RoundTask.broadcastPrepare_of_step hs (Option.some.inj hm)).1 with
              ⟨rx, rfl⟩ | rfl <;> cases hm'
    · cases hr
      exact (h.drive run hrun).step hinv.store hinv.actions hinv.round_le_of_storedProposal
        (hinv.run run hrun) (hinv'.run _ rfl) hrunstep (h.slotFree hsole hinv hrun ev)

theorem resumeInv_of_reachable (hsole : SoleProposer cfg) {height : UInt64}
    (h : ReachableWithin (Node.step cfg) (fun n ev => n.resumesSafely cfg ev = true)
      (Node.init cfg height) n) : n.ResumeInv cfg :=
  h.invariant_of (fun _ hn => Node.inv_of_reachable hn)
    (fun _ _ _ hinv hinv' hsafe hold hstep =>
      hold.step hsole hinv hinv' hsafe (nodeStep_of_step hstep))
    ⟨(fun p q hp => by cases hp), (fun m m' hm => by cases hm), (fun p hp => by cases hp),
      (fun run hrun => by cases hrun), (fun run hrun => by cases hrun),
      fun run hrun => by cases hrun⟩

end Node

/-! ## Safety -/

/-- The digest a round is driving is the one of the stored proposal. -/
theorem Run.Drive.driven_of_task (h : run.Drive cfg msgs) (hinv : run.Inv cfg K)
    {task : RoundTask} (htask : run.roundTask = some task) {d : Digest}
    (hd : task.digest? = some d) : Driven cfg msgs run.view d := by
  obtain ⟨hselect, htaskinv⟩ := hinv.select_of_task htask
  have hholds : run.phase.HoldsProposal := by rw [hselect]; trivial
  -- One logged vote for the digest is enough.
  have hvoted : (.prepare d ∈ votesAt run.log run.view ∨
      run.runState ≠ .proposal ∧ .propose d ∈ votesAt run.log run.view) →
      Driven cfg msgs run.view d := by
    rintro (hprep | ⟨hstate, hprop⟩)
    · exact h.prepared hholds d hprep
    · exact h.proposed hholds hstate d hprop
  -- A round has voted once before it commits, and twice after.
  have honce : ∀ {votes}, VotedOnce votes d → run.runState = .prepare →
      votesAt run.log run.view = votes → Driven cfg msgs run.view d := by
    rintro votes (rfl | rfl) hstate hvotes <;> apply hvoted <;> rw [hvotes] <;> simp [hstate]
  have htwice : ∀ {votes}, VotedTwice votes d → run.runState ≠ .proposal →
      votesAt run.log run.view = votes → Driven cfg msgs run.view d := by
    rintro votes (rfl | rfl) hstate hvotes <;> apply hvoted <;> rw [hvotes] <;> simp [hstate]
  cases task with
  | broadcastPrepare m =>
    cases hd
    exact h.pending m htask
  | addPrepare m =>
    cases hd
    exact hvoted (Or.inl (by rw [htaskinv.2.1]; exact List.mem_singleton_self _))
  | countPrepares | recvPrepare =>
    cases hd
    exact honce htaskinv.2.1 htaskinv.1 rfl
  | broadcastCommit m =>
    cases hd
    exact honce htaskinv.2.1 htaskinv.1 rfl
  | addCommit m =>
    cases hd
    exact htwice htaskinv.2.1 (by rw [htaskinv.1]; simp) rfl
  | takeSeals | recvCommit =>
    cases hd
    exact htwice htaskinv.2.1 (by rw [htaskinv.1]; simp) rfl
  | _ => cases hd

/-- Commits for one view rest on votes of the view, which agree. -/
theorem Node.ResumeInv.one_commit (h : n.ResumeInv cfg) (hinv : n.Inv cfg)
    {m m' : CommitMessageSigned} (hm : .broadcast (.commit m) ∈ n.history)
    (hm' : .broadcast (.commit m') ∈ n.history) (hview : m.view = m'.view) : m = m' := by
  have hown : OwnCommit cfg n.knowledge m := hinv.actions _ hm
  have hown' : OwnCommit cfg n.knowledge m' := hinv.actions _ hm'
  have hdigest : m.proposedBlockDigest = m'.proposedBlockDigest := by
    -- A node that proposes in a view does not prepare in it.
    have hmixed : ∀ {p : ProposalMessageSigned} {d : Digest},
        .broadcast (.proposal p) ∈ n.history → p.view = m.view →
        .broadcast (.prepare (cfg.ownPrepare m.view d)) ∈ n.history → False := by
      intro p d hp hpview hprep
      have hpown : OwnProposal cfg p := hinv.actions _ hp
      have hprepOwn : OwnPrepare cfg n.knowledge (cfg.ownPrepare m.view d) :=
        hinv.actions _ hprep
      have hprop := hpown.isProposer
      rw [hpview] at hprop
      have hnot := hprepOwn.not_proposer
      rw [show (cfg.ownPrepare m.view d).view = m.view from rfl, hprop] at hnot
      cases hnot
    rcases hown.voted with ⟨p, hp, hpview, hpd⟩ | hprep <;>
      rcases hown'.voted with ⟨q, hq, hqview, hqd⟩ | hprep'
    · rw [← hpd, ← hqd, h.one_proposal p q hp hq (by rw [hpview, hqview, hview])]
    · exact absurd (hview ▸ hprep') (fun hprep' => hmixed hp hpview hprep')
    · exact absurd hprep (fun hprep => hmixed hq (hqview.trans hview.symm) hprep)
    · have heq := h.one_prepare _ _ hprep hprep' hview
      exact congrArg PrepareMessageSigned.proposedBlockDigest heq
  rw [hown.eq_own, hown'.eq_own, hview, hdigest]

variable (cfg) in
/-- **Cancelled heights resume safely** in every run whose steps meet with the earlier choices of
the node, for a node that is the only proposer of its views. -/
theorem safeToResume_of_resumesSafely {height₀ : UInt64} (hsole : SoleProposer cfg)
    (h : ReachableWithin (Node.step cfg) (fun n ev => n.resumesSafely cfg ev = true)
      (Node.init cfg height₀) n) : n.SafeToResume cfg := by
  have hinv := Node.inv_of_reachable h.reachable
  have hresume := Node.resumeInv_of_reachable hsole h
  refine ⟨hresume.one_proposal, hresume.one_prepare, fun m m' hm hm' hview =>
    hresume.one_commit hinv hm hm' hview, fun run task d hrun htask hd => ?_,
    fun height block hfin => ?_⟩
  · obtain ⟨p, hp, hdigest, -⟩ :=
      (hresume.drive run hrun).driven_of_task (hinv.run run hrun) htask hd
    exact ⟨p, hp, hdigest⟩
  · obtain ⟨run, hrun, hlog⟩ := List.mem_flatMap.mp hfin
    exact ((hresume.proven run hrun).2 height block hlog).signedSeals hinv.actions

/-! ## Runs -/

/-- A single validator proposes the first block for height 1 and is cancelled; the height is run
again with the second block from the block service, and finalized. -/
def resumedEvents (first second : RawBlock) : List Event :=
  List.flatten
    [[.runHeight 1], List.replicate 3 (.round (modelEnv first)), [.cancel, .runHeight 1],
      List.replicate 7 (.round (modelEnv second)), [.roundFinished],
      List.replicate 3 (.main (modelEnv second))]

def resumedNode : Node :=
  (exec (Node.step soloConfig) (Node.init soloConfig 0) (resumedEvents [7] [7])).get
    (by decide +kernel)

/-- One of four validators prepares the block of another and is cancelled; the height is run again
from the stored proposal, and finalized. -/
def repreparedEvents : List Event :=
  List.flatten
    [[.runHeight 1], arrives (.proposal fourProposal), List.replicate 5 (.round (modelEnv [7])),
      [.cancel, .runHeight 1], List.replicate 5 (.round (modelEnv [7])),
      arrives (.prepare (fourPrepare 2 0)), List.replicate 5 (.round (modelEnv [7])),
      arrives (.commit (fourCommit 2 0)), arrives (.commit (fourCommit 3 0)),
      List.replicate 3 (.round (modelEnv [7])), [.roundFinished],
      List.replicate 3 (.main (modelEnv [7]))]

def repreparedNode : Node :=
  (exec (Node.step fourConfig) (Node.init fourConfig 0) repreparedEvents).get (by decide +kernel)

/-- With the same block the second run fits to the first, for the proposer and for another. -/
theorem safeToResume_resumed :
    resumedNode.SafeToResume soloConfig ∧ repreparedNode.SafeToResume fourConfig := by
  constructor
  · exact safeToResume_of_resumesSafely soloConfig
      (ValidatorManager.UniqueProposer.soleProposer fun _ _ _ => mockManager_proposer_unique _)
      (reachableWithin_get (by decide +kernel) _)
  · exact safeToResume_of_resumesSafely fourConfig
      (ValidatorManager.UniqueProposer.soleProposer fun _ _ _ => mockManager_proposer_unique _)
      (reachableWithin_get (by decide +kernel) _)

def rebuiltNode : Node :=
  (exec (Node.step soloConfig) (Node.init soloConfig 0) (resumedEvents [7] [8])).get
    (by decide +kernel)

/-- The block that the second run returns: the one stored by the first run, sealed for the other. -/
def rebuiltBlock : FinalizedBlock where
  rawBlock := [7]
  proof :=
    { round := 0
      commitSeals := [modelCrypto.signPrehash (modelKey 0) (digestBlock modelCrypto [8] 0)] }

/-- With another block the node signs a second proposal for the view, and returns the first block
with a seal for the second. -/
theorem not_safeToResume_rebuilt :
    Reachable (Node.step soloConfig) (Node.init soloConfig 0) rebuiltNode ∧
      .broadcast (.proposal (soloConfig.ownProposal ⟨1, 0⟩ [7] none)) ∈ rebuiltNode.history ∧
      .broadcast (.proposal (soloConfig.ownProposal ⟨1, 0⟩ [8] none)) ∈ rebuiltNode.history ∧
      .finalized 1 rebuiltBlock ∈ rebuiltNode.history ∧
      ¬ rebuiltNode.SafeToResume soloConfig := by
  have hfin : .finalized 1 rebuiltBlock ∈ rebuiltNode.history := by decide +kernel
  refine ⟨reachable_get _, by decide +kernel, by decide +kernel, hfin, fun hsafe => ?_⟩
  obtain ⟨-, signers, -, hseals⟩ := hsafe.finalized 1 rebuiltBlock hfin
  cases hseals with | cons hseal _ => ?_
  have hother : (soloConfig.crypto.recoverFromPrehash
      (modelCrypto.signPrehash (modelKey 0) (digestBlock modelCrypto [8] 0))
      (digestBlock soloConfig.crypto rebuiltBlock.rawBlock rebuiltBlock.proof.round)).toOption =
        none := by decide +kernel
  rw [hseal.1] at hother
  cases hother

end Tonic
