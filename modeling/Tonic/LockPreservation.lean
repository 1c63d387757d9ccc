/-
# Locks survive round changes

After a commit in a round, the round changes of a node must carry a certificate for that
round or a later one.  The certificate is put together only by a timeout in the commit
state: a timeout between the broadcast of the commit and the change of the run state, and
a jump to a future round behind a commit, leave the round without it.  In runs without
these steps every round change keeps the lock; a run with one of them breaks it.
-/
import Tonic.FinalizedProof

namespace Tonic

open Transition

variable {cfg : Config} {n n' : Node} {msgs msgs' : ConsensusMessages} {run run' : Run}
  {ev : Event} {K K' : Knowledge}

/-! ## Locks -/

/-- The round change carries a certificate of a later round than the view, or of its round and with
the digest. -/
def Carries (rc : RoundChangeMessageSigned) (v : View) (d : Digest) : Prop :=
  ∃ pp, rc.latestPreparedProposed = some pp ∧
    (v.round < pp.preparedCertificate.proposalMeta.view.round ∨
      v.round = pp.preparedCertificate.proposalMeta.view.round ∧
        pp.preparedCertificate.proposalMeta.proposedBlockDigest = d)

/-- What a lock says of two actions in their order: a round change after a commit carries it. -/
def KeepsLock (a b : Action) : Prop :=
  ∀ m rc, a = .broadcast (.commit m) → b = .broadcast (.roundChange rc) →
    m.view.round < rc.view.round → Carries rc m.view m.proposedBlockDigest

/-- Every round change of the log keeps the locks of the commits before it. -/
def LocksKept (log : List Action) : Prop := log.Pairwise KeepsLock

/-- The run has committed in its current round. -/
def Run.Committed (run : Run) : Prop := ∃ vote ∈ votesAt run.log run.view, vote.isCommit = true

/-- The steps that leave no lock behind: the own proposal finds its slot free, no jump leaves a
round with a commit, and no timeout comes between the commit and the commit state. -/
def Run.LeavesLocks (msgs : ConsensusMessages) (run : Run) : Event → Prop
  | .futureProposalReady | .futureRccReady => ¬ run.Committed
  | .timeout => run.runState = .commit ∨ ¬ run.Committed
  | ev => run.SlotFree msgs ev

/-- A step of a node that, if it is one of a run of the height, leaves no lock behind. -/
def Node.LeavesLocks (height : UInt64) (n : Node) (ev : Event) : Prop :=
  ∀ run, n.run = some run → run.height = height → run.LeavesLocks n.messages ev

theorem Run.LeavesLocks.slotFree (h : run.LeavesLocks msgs ev) : run.SlotFree msgs ev := by
  cases ev with
  | round => exact h
  | _ => trivial

/-! ## What a run knows of its locks -/

/-- The certificates that a run holds at each of its await points carry the commits so far. -/
structure Run.LockInv (run : Run) : Prop where
  /-- Commits of earlier rounds are carried by the latest round change. -/
  earlier : ∀ v d, .commit d ∈ votesAt run.log v → v.round < run.round →
    ∃ rc, run.latestSelfRoundChange = some rc ∧ Carries rc v d
  /-- The proposal that a timeout has taken is the committed one. -/
  taken : ∀ p, run.phase = .timeoutTakePrepares p → ∀ d, .commit d ∈ votesAt run.log run.view →
    p.proposedBlockDigest = d
  /-- The round change on its way carries all commits. -/
  ready : ∀ rc, run.phase = .broadcastRoundChange rc → ∀ v d, .commit d ∈ votesAt run.log v →
    Carries rc v d
  log : LocksKept run.log

/-- Commits are for rounds up to the current one. -/
theorem Run.Inv.round_le_of_commit (h : run.Inv cfg K) (hp : ∀ why, run.phase ≠ .panicked why)
    {v : View} {d : Digest} (hd : .commit d ∈ votesAt run.log v) :
    v.height = run.height ∧ v.round ≤ run.round := by
  obtain ⟨m, hm, rfl, -⟩ := mem_votesAt.mp hd
  exact ⟨h.log.height_eq _ hm, h.below hp _ hm m.view rfl⟩

/-- A commit of the current round or an earlier one. -/
theorem Run.Inv.commit_cases (h : run.Inv cfg K) (hp : ∀ why, run.phase ≠ .panicked why)
    {v : View} {d : Digest} (hd : .commit d ∈ votesAt run.log v) :
    v.round < run.round ∨ v = run.view := by
  obtain ⟨hheight, hround⟩ := h.round_le_of_commit hp hd
  rcases UInt8.lt_or_eq_of_le hround with hlt | heq
  · exact Or.inl hlt
  · right
    cases v
    cases hheight
    cases heq
    rfl

theorem LocksKept.append {log actions : List Action} (h : LocksKept log)
    (hnew : ∀ rc, .broadcast (.roundChange rc) ∈ actions → ∀ v d, .commit d ∈ votesAt log v →
      Carries rc v d) (hactions : LocksKept actions) : LocksKept (log ++ actions) := by
  refine List.pairwise_append.mpr ⟨h, hactions, fun a ha b hb => ?_⟩
  rintro m rc rfl rfl -
  exact hnew rc hb _ _ (mem_votesAt.mpr ⟨_, ha, rfl, rfl⟩)

/-- Actions without round changes keep all locks. -/
theorem LocksKept.append_quiet {log actions : List Action} (h : LocksKept log)
    (hquiet : ∀ rc, .broadcast (.roundChange rc) ∉ actions) : LocksKept (log ++ actions) := by
  refine h.append (fun rc hrc => absurd hrc (hquiet rc)) ?_
  refine List.pairwise_of_forall_mem_list fun a _ b hb => ?_
  rintro m rc rfl rfl -
  exact absurd hb (hquiet rc)

/-- The log of a round that is entered. -/
theorem Run.LockInv.enterRound {round : UInt8}
    (hearlier : ∀ v d, .commit d ∈ votesAt run.log v →
      ∃ rc, run.latestSelfRoundChange = some rc ∧ Carries rc v d)
    (hlog : LocksKept run.log) : (run.enterRound cfg round).LockInv := by
  have hvotes : ∀ v, votesAt (run.enterRound cfg round).log v = votesAt run.log v := by
    intro v
    rcases Run.log_enterRound cfg run round with heq | ⟨-, heq⟩ <;> rw [heq]
    rw [votesAt_append, votesAt_entered, List.append_nil]
  refine ⟨fun v d hd _ => ?_, fun p hp => ?_, fun rc hp => ?_, ?_⟩
  · rw [(Run.enterRound_same cfg run round).2.2]
    exact hearlier v d (hvotes v ▸ hd)
  · rcases Run.enterRound_cases cfg run round with
      ⟨⟨why, hphase⟩, -⟩ | ⟨⟨hphase, -⟩ | ⟨⟨rc, hphase⟩, -⟩, -⟩ <;> rw [hphase] at hp <;> cases hp
  · rcases Run.enterRound_cases cfg run round with
      ⟨⟨why, hphase⟩, -⟩ | ⟨⟨hphase, -⟩ | ⟨⟨rc', hphase⟩, -⟩, -⟩ <;> rw [hphase] at hp <;> cases hp
  · rcases Run.log_enterRound cfg run round with heq | ⟨-, heq⟩
    · exact heq ▸ hlog
    · rw [heq]
      exact hlog.append_quiet (by simp)

/-- A step of the round task commits in the current view at most. -/
theorem Run.LockInv.round {env : Env} {task : RoundTask} {s : TaskStep RoundTask}
    (h : run.LockInv) (hinv : run.Inv cfg K) (htask : run.roundTask = some task)
    (hs : task.step cfg env run.view run.runState msgs = some s) :
    Run.LockInv
      { run with roundTask := some s.task, runState := s.runState, log := run.log ++ s.actions } := by
  obtain ⟨hselect, htaskinv⟩ := hinv.select_of_task htask
  refine ⟨fun v d hd hlt => ?_, fun p hp => ?_, fun rc hp => ?_, h.log.append_quiet fun rc hrc => ?_⟩
  · rw [votesAt_append] at hd
    rcases List.mem_append.mp hd with hd | hd
    · exact h.earlier v d hd hlt
    · obtain ⟨m, hm, rfl, hvote⟩ := mem_votesAt.mp hd
      cases m with
      | commit m =>
        obtain rfl := RoundTask.eq_broadcastCommit (RoundTask.outgoing_of_mem hs hm)
        have hview : m.view = run.view := htaskinv.2.2.2
        exact absurd hlt (UInt8.not_lt.mpr (UInt8.le_of_eq (congrArg View.round hview.symm)))
      | proposal | prepare | roundChange => cases hvote
  · rw [hselect] at hp
    cases hp
  · rw [hselect] at hp
    cases hp
  · have hlogged : Logged run _ := Logged.of_round hs hrc
    cases hlogged with
    | vote hvote => cases hvote
    | roundChange hphase =>
      rw [hselect] at hphase
      cases hphase

/-- Actions of no interest to locks. -/
theorem Run.LockInv.monitor {actions : List Action} {proposalTask : Option FutureProposalTask}
    {rccTask : Option FutureRccTask} (h : run.LockInv) (hvotes : ∀ v, votesAt actions v = [])
    (hquiet : ∀ rc, .broadcast (.roundChange rc) ∉ actions) :
    Run.LockInv { run with
      futureProposalTask := proposalTask, futureRccTask := rccTask
      log := run.log ++ actions } := by
  have hsame : ∀ v, votesAt (run.log ++ actions) v = votesAt run.log v := by
    intro v
    rw [votesAt_append, hvotes, List.append_nil]
  exact ⟨fun v d hd => h.earlier v d (hsame v ▸ hd),
    fun p hp d hd => h.taken p hp d (hsame run.view ▸ hd),
    fun rc hp v d hd => h.ready rc hp v d (hsame v ▸ hd), h.log.append_quiet hquiet⟩

/-- The latest round change carries all commits, unless the current round has one. -/
theorem Run.LockInv.carried (h : run.LockInv) (hinv : run.Inv cfg K)
    (hp : ∀ why, run.phase ≠ .panicked why) (hnone : ¬ run.Committed) {v : View} {d : Digest}
    (hd : .commit d ∈ votesAt run.log v) :
    ∃ rc, run.latestSelfRoundChange = some rc ∧ Carries rc v d := by
  rcases hinv.commit_cases hp hd with hlt | rfl
  · exact h.earlier v d hd hlt
  · exact absurd ⟨_, hd, rfl⟩ hnone

/-- The certificate of the current round carries its commit and all earlier ones. -/
theorem Run.LockInv.carries_prepared (h : run.LockInv) (hinv : run.Inv cfg K)
    {p : ProposalMessageSigned} (hphase : run.phase = .timeoutTakePrepares p)
    (prepares : List PrepareMessageSigned) {v : View} {d : Digest}
    (hd : .commit d ∈ votesAt run.log v) :
    Carries (run.preparedRoundChange cfg p prepares) v d := by
  have hinvPhase := hinv.phase
  rw [hphase] at hinvPhase
  obtain ⟨-, -, hview, -⟩ := hinvPhase
  have hround : p.view.round = run.round := congrArg View.round hview
  refine ⟨_, rfl, ?_⟩
  rcases hinv.commit_cases (by simp [hphase]) hd with hlt | rfl
  · exact Or.inl (hround.symm ▸ hlt)
  · exact Or.inr ⟨hround.symm, h.taken p hphase d hd⟩

/-- **Locks are kept** by a step that leaves none behind. -/
theorem Run.LockInv.step (h : run.LockInv) (hinv : run.Inv cfg K) (hdrive : run.Drive cfg msgs)
    (hmax : ∀ v p, msgs.storedProposal v = some p → v.round ≤ maxRound)
    (hleaves : run.LeavesLocks msgs ev) (hstep : RunStep cfg msgs run ev msgs' run') :
    run'.LockInv := by
  cases hstep with
  | round htask hs => exact h.round hinv htask hs
  | @futureProposal env task s htask hs =>
    obtain ⟨-, hcases⟩ := FutureProposalTask.step_spec hmax (hinv.proposalTask task htask) hs
    have hshape : s.actions = [] ∨ ∃ height b, s.actions = [.verifiedBlock height b] := by
      rcases hcases with ⟨hnil, -⟩ | ⟨w, -, hchecks, -⟩
      · exact Or.inl hnil
      · rw [hchecks]
        exact (RoundTask.blockChecks_shape cfg msgs env w).imp id fun ⟨b, hb⟩ => ⟨_, b, hb⟩
    refine h.monitor (fun v => ?_) (fun rc hrc => ?_) <;>
      rcases hshape with hnil | ⟨height, b, hb⟩
    · rw [hnil]
      rfl
    · rw [hb]
      rfl
    · rw [hnil] at hrc
      cases hrc
    · rw [hb] at hrc
      cases List.mem_singleton.mp hrc
  | futureRcc htask hs =>
    rw [FutureRccTask.actions_of_step hs]
    exact h.monitor (fun v => rfl) (fun rc hrc => by cases hrc)
  | broadcastBlock hphase hnext =>
    -- The finalized block is no vote.
    have hvotes : ∀ v block, votesAt (run.log ++ [.finalized run.height block]) v =
        votesAt run.log v := by simp
    refine ⟨fun v d hd => h.earlier v d (hvotes v _ ▸ hd), fun p hp => ?_, fun rc hp => ?_,
      h.log.append_quiet (by simp)⟩ <;>
      rcases hnext with rfl | ⟨why, rfl⟩ <;> cases hp
  | timeoutTakeProposal hphase hstored =>
    refine ⟨h.earlier, fun p hp d hd => ?_, (fun rc hp => by cases hp), h.log⟩
    cases hp
    have hinvPhase := hinv.phase
    rw [hphase] at hinvPhase
    obtain ⟨-, hstate, d', hvotes⟩ := hinvPhase
    -- The proposal that the timeout takes is the one that was committed to.
    obtain ⟨q, hq, hdigest, -⟩ := hdrive.driven_of_commit (by rw [hphase]; trivial) hstate hvotes
    rw [hstored] at hq
    cases hq
    rw [hdigest]
    change .commit d ∈ votesAt run.log run.view at hd
    have heq : d = d' := by rcases hvotes with hvotes | hvotes <;> simpa [hvotes] using hd
    exact heq.symm
  | timeoutTakePrepares hphase hnext =>
    refine ⟨h.earlier, fun p hp => ?_, fun rc hp v d hd => ?_, h.log⟩
    · rcases hnext with ⟨why, rfl⟩ | ⟨-, rfl⟩ <;> cases hp
    · rcases hnext with ⟨why, rfl⟩ | ⟨-, rfl⟩
      · cases hp
      · cases hp
        exact h.carries_prepared hinv hphase _ hd
  | broadcastRoundChange hphase =>
    have hvotes : ∀ v rc, votesAt (run.log ++ [.broadcast (.roundChange rc)]) v =
        votesAt run.log v := by
      intro v rc
      rw [votesAt_append, votesAt_broadcast]
      split <;> exact List.append_nil _
    refine Run.LockInv.enterRound (fun v d hd => ⟨_, rfl, ?_⟩) ?_
    · exact h.ready _ hphase v d (hvotes v _ ▸ hd)
    · refine h.log.append (fun rc hrc v d hd => ?_) (List.pairwise_singleton _ _)
      cases List.mem_singleton.mp hrc
      exact h.ready _ hphase v d hd
  | futureProposalReady hphase | futureRccReady hphase =>
    exact Run.LockInv.enterRound
      (fun v d hd => h.carried hinv (by simp [hphase]) hleaves hd) h.log
  | timeoutEarly hphase hstate =>
    refine ⟨h.earlier, (fun p hp => by cases hp), fun rc hp v d hd => ?_, h.log⟩
    cases hp
    -- The new round change repeats what the latest one carries.
    obtain ⟨rc, hrc, pp, hpp, hcarries⟩ :=
      h.carried hinv (by simp [hphase]) (hleaves.resolve_left hstate) hd
    refine ⟨pp, ?_, hcarries⟩
    unfold Run.nextRoundChange
    rw [hrc]
    exact hpp
  | addOwnRoundChange | finalProposalMissing | takeFinalProposal | prune | timeoutProposalMissing
  | cancel | roundFinished | timeoutCommit =>
    exact ⟨h.earlier, (fun p hp => by cases hp), (fun rc hp => by cases hp), h.log⟩

/-! ## Runs that leave no lock behind -/

theorem Run.start_lockInv (msgs : ConsensusMessages) (height : UInt64) :
    (Run.start cfg msgs height).LockInv := by
  unfold Run.start
  simp only
  split
  · exact ⟨(fun v d hd => by cases hd), (fun p hp => by cases hp), (fun rc hp => by cases hp),
      List.Pairwise.nil⟩
  · exact Run.LockInv.enterRound (fun v d hd => by cases hd) List.Pairwise.nil

variable (cfg) in
/-- What holds of the runs of a height whose steps leave no lock behind. -/
structure Node.LockInv (height : UInt64) (n : Node) : Prop where
  drive : ∀ run, n.run = some run → run.height = height → run.Drive cfg n.messages
  runs : ∀ run ∈ n.runs, run.height = height → run.LockInv

theorem Node.LockInv.step {height : UInt64} (h : n.LockInv cfg height) (hinv : n.Inv cfg)
    (hinv' : n'.Inv cfg) (hleaves : n.LeavesLocks height ev) (hstep : NodeStep cfg n ev n') :
    n'.LockInv cfg height := by
  refine ⟨fun run hrun hheight => ?_, ?_⟩
  · cases hstep with
    | receive => exact h.drive run hrun hheight
    | addPending =>
      exact (h.drive run hrun hheight).of_storedProposal
        fun p hp => ConsensusMessages.storedProposal_addMessage_of_some hp
    | runHeight =>
      cases hrun
      exact Run.start_drive _ _ (hinv'.run _ rfl)
    | run hold hrunstep =>
      cases hrun
      rw [hrunstep.same.1] at hheight
      exact (h.drive _ hold hheight).step hinv.store hinv.actions hinv.round_le_of_storedProposal
        (hinv.run _ hold) (hinv'.run _ rfl) hrunstep (hleaves _ hold hheight).slotFree
  · let Kept : Knowledge → Run → Prop := fun _ run => run.height = height → run.LockInv
    have hrunstep : ∀ run run', n.run = some run → n'.run = some run' →
        RunStep cfg n.messages run ev n'.messages run' → Kept n.knowledge run →
        Kept n'.knowledge run' := by
      intro run run' hrun _ hrunstep hkept hheight
      rw [hrunstep.same.1] at hheight
      exact (hkept hheight).step (hinv.run run hrun) (h.drive run hrun hheight)
        hinv.round_le_of_storedProposal (hleaves run hrun hheight) hrunstep
    exact hstep.forall_runs (P := Kept) (fun _ hkept => hkept)
      (fun height _ => Run.start_lockInv _ _) hrunstep h.runs

/-- **Lock preservation.**  In the runs of a height whose steps leave no lock behind, every round
change after a commit carries a certificate for the round of the commit or a later one, and for its
digest if the rounds are the same. -/
theorem locksKept_of_leavesLocks {height₀ height : UInt64}
    (hreach : ReachableWithin (Node.step cfg) (Node.LeavesLocks height)
      (Node.init cfg height₀) n) (hrun : run ∈ n.runs) (hheight : run.height = height) :
    LocksKept run.log := by
  have hinit : (Node.init cfg height₀).LockInv cfg height :=
    ⟨(fun run hrun => by cases hrun), (fun run hrun => by cases hrun)⟩
  have hkept : n.LockInv cfg height :=
    hreach.invariant_of (fun _ hs => Node.inv_of_reachable hs)
      (fun _ _ _ hinv hinv' hleaves h hstep =>
        h.step hinv hinv' hleaves (nodeStep_of_step hstep)) hinit
  exact (hkept.runs run hrun hheight).log

/-! ## A run that leaves none, and one that does -/

/-- The proposal that a task is about to add. -/
def RoundTask.addedProposal? : RoundTask → Option ProposalMessageSigned
  | .addProposal p => some p
  | _ => none

instance (msgs : ConsensusMessages) (run : Run) : (ev : Event) → Decidable (run.SlotFree msgs ev)
  | .round _ =>
    decidable_of_iff (∀ task ∈ run.roundTask, ∀ p ∈ task.addedProposal?,
      ∀ q ∈ msgs.storedProposal p.view, q.proposedBlockDigest = p.proposedBlockDigest) (by
        refine ⟨fun h p hp => h _ hp p rfl, fun h task htask p hp => ?_⟩
        cases task with
        | addProposal p' =>
          cases hp
          exact h p htask
        | _ => cases hp)
  | .receive _ | .addPending | .runHeight _ | .futureProposal _ | .futureRcc | .main _ | .cancel
  | .roundFinished | .futureProposalReady | .futureRccReady | .timeout => isTrue trivial

instance (run : Run) : Decidable run.Committed :=
  inferInstanceAs (Decidable (∃ vote ∈ votesAt run.log run.view, vote.isCommit = true))

instance (msgs : ConsensusMessages) (run : Run) : (ev : Event) →
    Decidable (run.LeavesLocks msgs ev)
  | .futureProposalReady | .futureRccReady => inferInstanceAs (Decidable (¬ run.Committed))
  | .timeout => inferInstanceAs (Decidable (run.runState = .commit ∨ ¬ run.Committed))
  | .receive m => inferInstanceAs (Decidable (run.SlotFree msgs (.receive m)))
  | .addPending => inferInstanceAs (Decidable (run.SlotFree msgs .addPending))
  | .runHeight height => inferInstanceAs (Decidable (run.SlotFree msgs (.runHeight height)))
  | .round env => inferInstanceAs (Decidable (run.SlotFree msgs (.round env)))
  | .futureProposal env => inferInstanceAs (Decidable (run.SlotFree msgs (.futureProposal env)))
  | .futureRcc => inferInstanceAs (Decidable (run.SlotFree msgs .futureRcc))
  | .main env => inferInstanceAs (Decidable (run.SlotFree msgs (.main env)))
  | .cancel => inferInstanceAs (Decidable (run.SlotFree msgs .cancel))
  | .roundFinished => inferInstanceAs (Decidable (run.SlotFree msgs .roundFinished))

instance (height : UInt64) (n : Node) (ev : Event) : Decidable (n.LeavesLocks height ev) :=
  inferInstanceAs (Decidable (∀ run ∈ n.run, run.height = height → run.LeavesLocks n.messages ev))

/-- One of four validators leaves no lock behind: it times out in the commit state. -/
theorem locksKept_of_leavesLocks_four : LocksKept fourRun.log :=
  locksKept_of_leavesLocks (reachableWithin_get (by decide +kernel) _) fourRun_mem
    (by decide +kernel : fourRun.height = 1)

/-- The single validator broadcasts its commit and times out before it has added it. -/
def earlyTimeoutEvents : List Event :=
  List.flatten
    [[.runHeight 1], List.replicate 5 (.round (modelEnv [7])), [.timeout, .main (modelEnv [7])]]

def earlyTimeoutNode : Node :=
  (exec (Node.step soloConfig) (Node.init soloConfig 0) earlyTimeoutEvents).get (by decide +kernel)

def earlyTimeoutRun : Run := earlyTimeoutNode.run.get (by decide +kernel)

/-- Its commit of the first round, and the round change that it broadcasts next. -/
def earlyCommit : CommitMessageSigned :=
  soloConfig.ownCommit { height := 1, round := 0 } (digestBlock modelCrypto [7] 0)

def earlyRoundChange : RoundChangeMessageSigned :=
  (RoundChangeMessage.new { height := 1, round := 1 } none).intoSigned modelCrypto (modelKey 0)

/-- The round change behind the commit carries no certificate. -/
theorem not_locksKept_earlyTimeout :
    Reachable (Node.step soloConfig) (Node.init soloConfig 0) earlyTimeoutNode ∧
      earlyTimeoutRun ∈ earlyTimeoutNode.runs ∧ ¬ LocksKept earlyTimeoutRun.log := by
  refine ⟨reachable_get _, List.mem_append_right _ (Option.mem_toList.mpr
    (Option.some_get _).symm), fun h => ?_⟩
  have hcommit : earlyTimeoutRun.log[2]? = some (.broadcast (.commit earlyCommit)) := by
    decide +kernel
  have hroundChange : earlyTimeoutRun.log[3]? =
      some (.broadcast (.roundChange earlyRoundChange)) := by decide +kernel
  obtain ⟨hi, hcommit⟩ := List.getElem?_eq_some_iff.mp hcommit
  obtain ⟨hj, hroundChange⟩ := List.getElem?_eq_some_iff.mp hroundChange
  obtain ⟨pp, hpp, -⟩ := List.pairwise_iff_getElem.mp h 2 3 hi hj (by decide) _ _ hcommit
    hroundChange (by decide)
  cases hpp

end Tonic
