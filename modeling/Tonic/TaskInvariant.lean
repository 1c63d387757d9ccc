/-
# What the tasks of a round know

At every await point of the round task the votes of its view, the run state and the
messages it carries fit together; the monitors only ever point to later rounds within
the round limit.  Each statement is kept by one step of its task.
-/
import Tonic.Provenance
import Tonic.RunLog
import Tonic.TaskStep

namespace Tonic

variable (cfg : Config)

/-! ## The round task -/

/-- One vote for the digest and no commit. -/
def VotedOnce (votes : List Vote) (d : Digest) : Prop :=
  votes = [.propose d] ∨ votes = [.prepare d]

/-- One vote for the digest and its commit. -/
def VotedTwice (votes : List Vote) (d : Digest) : Prop :=
  votes = [.propose d, .commit d] ∨ votes = [.prepare d, .commit d]

theorem VotedOnce.voteSequence {votes : List Vote} {d : Digest} (h : VotedOnce votes d) :
    VoteSequence votes := by
  rcases h with rfl | rfl
  · exact .proposed d
  · exact .prepared d

theorem VotedTwice.voteSequence {votes : List Vote} {d : Digest} (h : VotedTwice votes d) :
    VoteSequence votes := by
  rcases h with rfl | rfl
  · exact .proposedCommitted d
  · exact .preparedCommitted d

theorem VotedOnce.commit {votes : List Vote} {d : Digest} (h : VotedOnce votes d) :
    VotedTwice (votes ++ [.commit d]) d := by
  rcases h with rfl | rfl
  · exact Or.inl rfl
  · exact Or.inr rfl

/-- What holds while the round task of a view waits at an await point, with the votes the view has
so far. -/
def RoundTask.Inv (K : Knowledge) (view : View) (runState : RunState) (votes : List Vote) :
    RoundTask → Prop
  | .start => runState = .proposal ∧ votes = []
  | .takeRoundChanges _ | .recvRoundChange _ _ =>
    runState = .proposal ∧ votes = [] ∧
      cfg.validatorManager.isProposer cfg.address view = true
  | .broadcastProposal p => runState = .proposal ∧ votes = [] ∧ OwnProposal cfg p ∧ p.view = view
  | .addProposal p =>
    runState = .proposal ∧ votes = [.propose p.proposedBlockDigest] ∧ p.view = view ∧
      Action.broadcast (.proposal p) ∈ K.history
  | .getProposal _ | .recvProposal _ | .getProposalAgain =>
    runState = .proposal ∧ votes = [] ∧
      cfg.validatorManager.isProposer cfg.address view = false
  | .broadcastPrepare m => runState = .proposal ∧ votes = [] ∧ OwnPrepare cfg K m ∧ m.view = view
  | .addPrepare m =>
    runState = .proposal ∧ votes = [.prepare m.proposedBlockDigest] ∧ m.view = view ∧
      m = cfg.ownPrepare m.view m.proposedBlockDigest ∧
      Action.broadcast (.prepare m) ∈ K.history
  | .countPrepares d _ | .recvPrepare d _ _ =>
    runState = .prepare ∧ VotedOnce votes d ∧ VotedFor cfg K view d
  | .broadcastCommit m =>
    runState = .prepare ∧ VotedOnce votes m.proposedBlockDigest ∧ OwnCommit cfg K m ∧ m.view = view
  | .addCommit m =>
    runState = .prepare ∧ VotedTwice votes m.proposedBlockDigest ∧ m.view = view ∧
      m = cfg.ownCommit m.view m.proposedBlockDigest ∧ Action.broadcast (.commit m) ∈ K.history
  | .takeSeals d _ | .recvCommit d _ _ =>
    runState = .commit ∧ VotedTwice votes d ∧
      Action.broadcast (.commit (cfg.ownCommit view d)) ∈ K.history
  | .finished seals =>
    runState = .commit ∧ ∃ d, VotedTwice votes d ∧
      Action.broadcast (.commit (cfg.ownCommit view d)) ∈ K.history ∧ Sealed cfg K view d seals
  | .failed _ | .panicked _ => VoteSequence votes ∧ (runState = .commit → ∃ d, VotedTwice votes d)

/-- What a step of the round task keeps, with the actions it adds known to `K'`. -/
structure RoundTask.StepOk (K' : Knowledge) (view : View) (votes : List Vote)
    (s : TaskStep RoundTask) : Prop where
  store : StoreInv cfg K' s.messages
  task : s.task.Inv cfg K' view s.runState (votes ++ votesAt s.actions view)
  actions : ∀ a ∈ s.actions, ActionOk cfg K' a
  /-- A step casts one vote of the view, or records a verified block, or does neither. -/
  shape : s.actions = [] ∨ (∃ b, s.actions = [.verifiedBlock view.height b]) ∨
    ∃ m vote, s.actions = [.broadcast m] ∧ m.vote? = some vote ∧ m.view = view ∧
      VoteSequence (votes ++ [vote])

variable {cfg} {K K' : Knowledge} {view : View} {runState : RunState} {votes : List Vote}
  {msgs : ConsensusMessages} {env : Env}

theorem VotedFor.of_proposal {p : ProposalMessageSigned}
    (h : Action.broadcast (.proposal p) ∈ K.history) (hv : p.view = view) :
    VotedFor cfg K view p.proposedBlockDigest :=
  Or.inl ⟨p, h, hv, rfl⟩

theorem RoundTask.Inv.mono {task : RoundTask} (hK : K ≤ K')
    (h : task.Inv cfg K view runState votes) : task.Inv cfg K' view runState votes := by
  cases task with
  | start | takeRoundChanges | recvRoundChange | broadcastProposal | getProposal | recvProposal
  | getProposalAgain | failed | panicked => exact h
  | addProposal p => exact ⟨h.1, h.2.1, h.2.2.1, hK.1 h.2.2.2⟩
  | broadcastPrepare m => exact ⟨h.1, h.2.1, h.2.2.1.mono hK, h.2.2.2⟩
  | addPrepare m => exact ⟨h.1, h.2.1, h.2.2.1, h.2.2.2.1, hK.1 h.2.2.2.2⟩
  | countPrepares d rx => exact ⟨h.1, h.2.1, h.2.2.mono hK⟩
  | recvPrepare d rx n => exact ⟨h.1, h.2.1, h.2.2.mono hK⟩
  | broadcastCommit m => exact ⟨h.1, h.2.1, h.2.2.1.mono hK, h.2.2.2⟩
  | addCommit m => exact ⟨h.1, h.2.1, h.2.2.1, h.2.2.2.1, hK.1 h.2.2.2.2⟩
  | takeSeals d rx => exact ⟨h.1, h.2.1, hK.1 h.2.2⟩
  | recvCommit d rx n => exact ⟨h.1, h.2.1, hK.1 h.2.2⟩
  | finished seals =>
    obtain ⟨hs, d, hvotes, hsent, hsealed⟩ := h
    exact ⟨hs, d, hvotes, hK.1 hsent, hsealed.mono hK⟩

namespace RoundTask

/-- Every await point has a sound sequence of votes behind it. -/
theorem Inv.voteSequence {task : RoundTask} (h : task.Inv cfg K view runState votes) :
    VoteSequence votes := by
  cases task with
  | start =>
    obtain ⟨-, rfl⟩ := h
    exact .none
  | takeRoundChanges | recvRoundChange | broadcastProposal | getProposal | recvProposal
  | getProposalAgain | broadcastPrepare =>
    obtain ⟨-, rfl, -⟩ := h
    exact .none
  | addProposal p =>
    obtain ⟨-, rfl, -⟩ := h
    exact .proposed _
  | addPrepare m =>
    obtain ⟨-, rfl, -⟩ := h
    exact .prepared _
  | countPrepares | recvPrepare | broadcastCommit => exact h.2.1.voteSequence
  | addCommit | takeSeals | recvCommit => exact h.2.1.voteSequence
  | finished seals =>
    obtain ⟨-, d, hvotes, -⟩ := h
    exact hvotes.voteSequence
  | failed | panicked => exact h.1

/-- The run state `commit` is set only behind the commit. -/
theorem Inv.votedTwice_of_commit {task : RoundTask} (h : task.Inv cfg K view .commit votes) :
    ∃ d, VotedTwice votes d := by
  cases task with
  | start | takeRoundChanges | recvRoundChange | broadcastProposal | getProposal | recvProposal
  | getProposalAgain | broadcastPrepare | addProposal | addPrepare | countPrepares | recvPrepare
  | broadcastCommit | addCommit => cases h.1
  | takeSeals d rx => exact ⟨d, h.2.1⟩
  | recvCommit d rx n => exact ⟨d, h.2.1⟩
  | finished seals =>
    obtain ⟨-, d, hvotes, -⟩ := h
    exact ⟨d, hvotes⟩
  | failed | panicked => exact h.2 rfl

/-! ### Where a task goes next -/

theorem inv_panicked_of_proposal (why : String) :
    (panicked why).Inv cfg K view .proposal [] :=
  ⟨.none, fun h => by cases h⟩

theorem inv_propose (hprop : cfg.validatorManager.isProposer cfg.address view = true)
    (hround : view.round ≤ maxRound) (b : RawBlock) (rcc : Option RoundChangeCertificate) :
    (propose cfg view b rcc).Inv cfg K view .proposal [] := by
  unfold propose
  split
  · exact inv_panicked_of_proposal _
  · exact ⟨rfl, rfl, ⟨hprop, hround, b, rcc, rfl⟩, rfl⟩

theorem inv_buildAndPropose (hprop : cfg.validatorManager.isProposer cfg.address view = true)
    (hround : view.round ≤ maxRound) (rcc : Option RoundChangeCertificate) :
    (buildAndPropose cfg env view rcc).Inv cfg K view .proposal [] := by
  unfold buildAndPropose
  split
  · exact ⟨.none, fun h => by cases h⟩
  · exact inv_propose hprop hround _ _

theorem inv_pollStart (hround : view.round ≤ maxRound) :
    (pollStart cfg env view msgs).Inv cfg K view .proposal [] := by
  unfold pollStart
  split
  next hprop =>
    split
    · exact inv_buildAndPropose hprop hround _
    · exact ⟨rfl, rfl, hprop⟩
  next hprop => exact ⟨rfl, rfl, by simpa using hprop⟩

theorem inv_proposeFromRoundChanges
    (hprop : cfg.validatorManager.isProposer cfg.address view = true)
    (hround : view.round ≤ maxRound) (roundChanges : Option (List RoundChangeMessageSigned)) :
    (proposeFromRoundChanges cfg env view roundChanges).Inv cfg K view .proposal [] := by
  unfold proposeFromRoundChanges
  split
  · exact inv_panicked_of_proposal _
  · split
    · exact inv_panicked_of_proposal _
    · exact inv_propose hprop hround _ _
    · exact inv_buildAndPropose hprop hround _

/-- Behind a query of the proposal: a digest is prepared only if a peer's proposal was accepted. -/
theorem inv_prepareDigest (hprop : cfg.validatorManager.isProposer cfg.address view = false)
    (hround : view.round ≤ maxRound) {missing : RoundTask}
    (hmissing : missing.Inv cfg K view .proposal [])
    {result : Option (Except IBFTError Digest)}
    (hok : ∀ d, result = some (.ok d) → Accepted cfg K view d) :
    (prepareDigest cfg view missing result).Inv cfg K view .proposal [] := by
  unfold prepareDigest
  split
  · exact hmissing
  · exact ⟨.none, fun h => by cases h⟩
  next d => exact ⟨rfl, rfl, ⟨hprop, hround, rfl, hok d rfl⟩, rfl⟩

theorem inv_prepareCounted {d : Digest} {rx : Receiver} {n : ℕ}
    (hround : view.round ≤ maxRound) (hvotes : VotedOnce votes d) (hvoted : VotedFor cfg K view d)
    (hprepared : cfg.validatorManager.quorum view.height - 1 ≤ n → Prepared cfg K view d) :
    (prepareCounted cfg view d rx n).Inv cfg K view .prepare votes := by
  unfold prepareCounted
  split
  · exact ⟨rfl, hvotes, hvoted⟩
  next hn => exact ⟨rfl, hvotes, ⟨hround, rfl, hvoted, hprepared (not_lt.mp hn)⟩, rfl⟩

theorem inv_sealsTaken {d : Digest} {rx : Receiver} {taken : Option CommitSeals × ℕ}
    (hvotes : VotedTwice votes d)
    (hsent : Action.broadcast (.commit (cfg.ownCommit view d)) ∈ K.history)
    (hsealed : ∀ seals n, taken = (some seals, n) → Sealed cfg K view d seals) :
    (sealsTaken cfg view d rx taken).Inv cfg K view .commit votes := by
  unfold sealsTaken
  split
  next seals n =>
    split
    · exact ⟨rfl, hvotes, hsent⟩
    · split
      · exact ⟨hvotes.voteSequence, fun _ => ⟨d, hvotes⟩⟩
      next seals => exact ⟨rfl, d, hvotes, hsent, hsealed seals n rfl⟩

/-- A waiting task knows the same after a notification. -/
theorem Inv.notified {task : RoundTask} (h : task.Inv cfg K view runState votes) (v : View) :
    (task.notified cfg view v).Inv cfg K view runState votes := by
  cases task with
  | recvRoundChange | recvPrepare | recvCommit =>
    simp only [RoundTask.notified]
    split
    · split <;> exact h
    · exact h
  | recvProposal =>
    simp only [RoundTask.notified]
    split <;> exact h
  | _ => exact h

variable (msgs) in
theorem Inv.panicked_of_waiting {task : RoundTask} {ch : Channel} {rx : Receiver}
    (h : task.Inv cfg K view runState votes) (hwait : task.waiting msgs = some (ch, rx))
    (why : String) : (panicked why).Inv cfg K view runState votes := by
  cases task with
  | recvRoundChange | recvProposal =>
    obtain ⟨rfl, rfl, -⟩ := h
    exact inv_panicked_of_proposal why
  | recvPrepare d =>
    obtain ⟨rfl, hvotes, -⟩ := h
    exact ⟨hvotes.voteSequence, fun h => by cases h⟩
  | recvCommit d =>
    obtain ⟨rfl, hvotes, -⟩ := h
    exact ⟨hvotes.voteSequence, fun _ => ⟨d, hvotes⟩⟩
  | _ => cases hwait

/-! ### Steps -/

theorem stepOk_goto {task : RoundTask} (hstore : StoreInv cfg K msgs)
    (htask : task.Inv cfg K view runState votes) :
    StepOk cfg K view votes (goto runState msgs task) where
  store := hstore
  task := by
    change task.Inv cfg K view runState (votes ++ [])
    rw [List.append_nil]
    exact htask
  actions a ha := absurd ha List.not_mem_nil
  shape := Or.inl rfl

theorem blockChecks_shape (cfg : Config) (msgs : ConsensusMessages) (env : Env) (v : View) :
    blockChecks cfg env msgs v = [] ∨
      ∃ b, blockChecks cfg env msgs v = [.verifiedBlock v.height b] := by
  unfold blockChecks
  split
  · exact Or.inl rfl
  · split
    · exact Or.inr ⟨_, rfl⟩
    · exact Or.inl rfl

theorem votesAt_blockChecks (cfg : Config) (msgs : ConsensusMessages) (env : Env) (v w : View) :
    votesAt (blockChecks cfg env msgs v) w = [] := by
  rcases blockChecks_shape cfg msgs env v with h | ⟨b, h⟩ <;> rw [h] <;> rfl

theorem actionOk_blockChecks (msgs : ConsensusMessages) (env : Env) (v : View) :
    ∀ a ∈ blockChecks cfg env msgs v, ActionOk cfg K a := by
  rcases blockChecks_shape cfg msgs env v with h | ⟨b, h⟩ <;> rw [h]
  · exact fun a ha => absurd ha List.not_mem_nil
  · intro a ha
    rw [List.mem_singleton.mp ha]
    trivial

/-- A query of the proposal by a node that does not propose in the view. -/
theorem stepOk_query (hstore : StoreInv cfg K msgs) (hround : view.round ≤ maxRound)
    (hactions : ∀ a ∈ K.history, ActionOk cfg K a)
    (hprop : cfg.validatorManager.isProposer cfg.address view = false) {missing : RoundTask}
    (hmissing : missing.Inv cfg K' view .proposal []) (hK : K ≤ K')
    (hchecks : blockChecks cfg env msgs view ⊆ K'.history) :
    StepOk cfg K' view []
      { task := prepareDigest cfg view missing
          (msgs.getValidProposalDigest view (proposalVerifyFn cfg env view)).1
        messages := (msgs.getValidProposalDigest view (proposalVerifyFn cfg env view)).2
        runState := .proposal
        actions := blockChecks cfg env msgs view } where
  store := hstore.getValidProposalDigest env view hK hchecks
  task := by
    rw [votesAt_blockChecks, List.append_nil]
    refine inv_prepareDigest hprop hround hmissing (fun d hd => ?_)
    obtain ⟨p, hp, hv, hdigest, ⟨a, horigin⟩, hjudged⟩ :=
      hstore.getValidProposalDigest_ok hd hK hchecks
    -- An own proposal of the view would make the node its proposer.
    have hnot_sent : Action.broadcast (.proposal p) ∉ K.history := by
      intro hsent
      have hown : OwnProposal cfg p := hactions _ hsent
      rw [← hv, hown.isProposer] at hprop
      cases hprop
    cases horigin with
    | peer hrecv hne hrec hadm =>
      exact ⟨p, a, hv, hdigest, hK.2 hrecv, hrec, hv ▸ hadm, hjudged.resolve_right hnot_sent⟩
    | own _ hsent => exact absurd hsent hnot_sent
  actions := actionOk_blockChecks msgs env view
  shape := (blockChecks_shape cfg msgs env view).imp id Or.inl

/-- A broadcast of the node's vote in the view. -/
theorem stepOk_broadcast (hstore : StoreInv cfg K msgs) {m : IBFTMessage} {vote : Vote}
    (hvote : m.vote? = some vote) (hview : m.view = view) (hok : ActionOk cfg K (.broadcast m))
    (hvotes : VoteSequence (votes ++ [vote])) (hK : K ≤ K') {task : RoundTask}
    (htask : task.Inv cfg K' view runState (votes ++ [vote])) :
    StepOk cfg K' view votes
      { task, messages := msgs, runState, actions := [.broadcast m] } where
  store := hstore.mono hK
  task := by
    rw [votesAt_broadcast, if_pos hview, hvote]
    exact htask
  actions a ha := by
    rw [List.mem_singleton.mp ha]
    exact hok.mono hK
  shape := Or.inr (Or.inr ⟨m, vote, rfl, hvote, hview, hvotes⟩)

/-- The prepares that a query counts are enough to commit when the count reaches the threshold. -/
theorem prepared_of_count (hstore : StoreInv cfg K msgs) {d : Digest}
    (hcount : cfg.validatorManager.quorum view.height - 1 ≤
      (msgs.getValidPrepareCount view (fun m => m.proposedBlockDigest = d)).1) :
    Prepared cfg K view d := by
  refine ⟨_, ?_, hcount⟩
  have hcollected := hstore.collected_prepares
    (ConsensusMessages.senderEntries_retainView (m := msgs.prepareMessages) (v := view)
      (fun m : PrepareMessageSigned => decide (m.proposedBlockDigest = d)))
  refine ⟨hcollected.senders, fun e he => ?_⟩
  obtain ⟨horigin, hv, hd⟩ := hcollected.origin e he
  exact ⟨horigin, hv, of_decide_eq_true hd⟩

/-- The seals that a query takes are seals of the digest. -/
theorem sealed_of_taken (hstore : StoreInv cfg K msgs) {d : Digest} {seals : CommitSeals} {n : ℕ}
    (htaken : (msgs.takeValidCommitSeals env view (fun m => m.proposedBlockDigest = d)
      (cfg.validatorManager.quorum view.height)).1 = (some seals, n)) :
    Sealed cfg K view d seals := by
  obtain ⟨entries, hentries, hlen, hseals⟩ := ConsensusMessages.takeValidCommitSeals_some htaken
  have hcollected := hstore.collected_commits hentries
  refine ⟨entries, ⟨hcollected.senders, fun e he => ?_⟩, hlen, hseals⟩
  obtain ⟨horigin, hv, hd⟩ := hcollected.origin e he
  exact ⟨horigin, hv, of_decide_eq_true hd⟩

/-- **One step of the round task** keeps what is known at its await points. -/
theorem stepOk_step {task : RoundTask} {s : TaskStep RoundTask} (hstore : StoreInv cfg K msgs)
    (hactions : ∀ a ∈ K.history, ActionOk cfg K a) (hround : view.round ≤ maxRound)
    (hinv : task.Inv cfg K view runState votes)
    (hstep : task.step cfg env view runState msgs = some s) (hK : K ≤ K')
    (hsub : s.actions ⊆ K'.history) : StepOk cfg K' view votes s := by
  -- A step without actions is judged by what was known before.
  have hquiet : ∀ {task' : RoundTask} {msgs' : ConsensusMessages} {runState' : RunState},
      StoreInv cfg K msgs' → task'.Inv cfg K view runState' votes →
      StepOk cfg K' view votes (goto runState' msgs' task') := fun hs ht =>
    stepOk_goto (hs.mono hK) (ht.mono hK)
  cases task with
  | start =>
    obtain ⟨rfl, rfl⟩ := hinv
    cases hstep
    exact hquiet hstore (inv_pollStart hround)
  | takeRoundChanges rx =>
    obtain ⟨rfl, rfl, hprop⟩ := hinv
    cases hstep
    refine hquiet (hstore.takeValidRoundChangeMessages env view _ _) ?_
    split
    · exact ⟨rfl, rfl, hprop⟩
    · exact inv_proposeFromRoundChanges hprop hround _
  | broadcastProposal p =>
    obtain ⟨rfl, rfl, hown, hview⟩ := hinv
    cases hstep
    exact stepOk_broadcast (m := .proposal p) hstore rfl hview hown (.proposed _) hK
      ⟨rfl, rfl, hview, hsub List.mem_cons_self⟩
  | addProposal p =>
    obtain ⟨rfl, rfl, hview, hsent⟩ := hinv
    cases hstep
    exact hquiet (hstore.addProposalMessage (.own rfl hsent))
      ⟨rfl, Or.inl rfl, VotedFor.of_proposal hsent hview⟩
  | getProposal rx =>
    obtain ⟨rfl, rfl, hprop⟩ := hinv
    cases hstep
    exact stepOk_query hstore hround hactions hprop ⟨rfl, rfl, hprop⟩ hK hsub
  | getProposalAgain =>
    obtain ⟨rfl, rfl, hprop⟩ := hinv
    cases hstep
    exact stepOk_query hstore hround hactions hprop (inv_panicked_of_proposal _) hK hsub
  | broadcastPrepare m =>
    obtain ⟨rfl, rfl, hown, hview⟩ := hinv
    cases hstep
    exact stepOk_broadcast (m := .prepare m) hstore rfl hview hown (.prepared _) hK
      ⟨rfl, rfl, hview, hown.eq_own, hsub List.mem_cons_self⟩
  | addPrepare m =>
    obtain ⟨rfl, rfl, hview, hown, hsent⟩ := hinv
    cases hstep
    refine hquiet (hstore.addPrepareMessage (.own rfl hsent)) ⟨rfl, Or.inr rfl, Or.inr ?_⟩
    rw [← hview, ← hown]
    exact hsent
  | countPrepares d rx =>
    obtain ⟨rfl, hvotes, hvoted⟩ := hinv
    cases hstep
    exact hquiet (hstore.getValidPrepareCount view _)
      (inv_prepareCounted hround hvotes hvoted (prepared_of_count hstore))
  | broadcastCommit m =>
    obtain ⟨rfl, hvotes, hown, hview⟩ := hinv
    cases hstep
    exact stepOk_broadcast (m := .commit m) hstore rfl hview hown hvotes.commit.voteSequence hK
      ⟨rfl, hvotes.commit, hview, hown.eq_own, hsub List.mem_cons_self⟩
  | addCommit m =>
    obtain ⟨rfl, hvotes, hview, hown, hsent⟩ := hinv
    cases hstep
    refine hquiet (hstore.addCommitMessage (.own rfl hsent)) ⟨rfl, hvotes, ?_⟩
    rw [← hview, ← hown]
    exact hsent
  | takeSeals d rx =>
    obtain ⟨rfl, hvotes, hsent⟩ := hinv
    cases hstep
    exact hquiet (hstore.takeValidCommitSeals env view _ _)
      (inv_sealsTaken hvotes hsent (fun _ _ htaken => sealed_of_taken hstore htaken))
  | recvRoundChange | recvProposal | recvPrepare | recvCommit =>
    rcases step_of_waiting hstep rfl with ⟨-, why, -, rfl⟩ | ⟨v, -, rfl⟩
    · exact hquiet hstore (hinv.panicked_of_waiting msgs rfl why)
    · exact hquiet hstore (hinv.notified v)
  | finished | failed | panicked => cases hstep

end RoundTask

/-! ## The monitors -/

theorem toNat_ofNat_of_lt {idx : ℕ} (h : idx < roundArraySize) :
    (UInt8.ofNat idx).toNat = idx := by
  rw [UInt8.toNat_ofNat']
  exact Nat.mod_eq_of_lt (lt_trans h (by decide))

/-- A round within the limit has an index in the round arrays. -/
theorem toNat_lt_roundArraySize {round : UInt8} (h : round ≤ maxRound) :
    round.toNat < roundArraySize := by
  have hle := UInt8.le_iff_toNat_le.mp h
  have hmax := toNat_maxRound
  omega

/-- An index of a round array above the current round is a round the node may jump to. -/
theorem round_of_index {round : UInt8} {idx : ℕ} (hlt : round.toNat < idx)
    (hidx : idx < roundArraySize) :
    round < UInt8.ofNat idx ∧ UInt8.ofNat idx ≤ maxRound := by
  rw [UInt8.lt_iff_toNat_lt, UInt8.le_iff_toNat_le, toNat_ofNat_of_lt hidx]
  have hmax := toNat_maxRound
  exact ⟨hlt, by omega⟩

theorem nextScan_some {test : ℕ → Bool} {k idx : ℕ} (h : nextScan view test k = some idx) :
    view.round.toNat < idx ∧ idx < k ∧ test idx = true := by
  induction k with
  | zero => cases h
  | succ k ih =>
    rw [nextScan] at h
    split at h
    · cases h
    next hk =>
      split at h
      next htest =>
        cases h
        exact ⟨by omega, by omega, htest⟩
      next =>
        obtain ⟨h1, h2, h3⟩ := ih h
        exact ⟨h1, by omega, h3⟩

namespace FutureRccTask

/-- The monitor keeps one count for each round and points to later rounds. -/
def Inv (view : View) : FutureRccTask → Prop
  | .start | .countByRound _ | .panicked _ => True
  | .scan _ counts idx =>
    counts.length = roundArraySize ∧ view.round.toNat < idx ∧ idx < roundArraySize
  | .recv _ counts => counts.length = roundArraySize
  | .recount _ counts newView =>
    counts.length = roundArraySize ∧ view.round < newView.round ∧ newView.round ≤ maxRound
  | .sent round => view.round < round ∧ round ≤ maxRound

theorem inv_scanBelow {rx : Receiver} {counts : List ℕ} {k : ℕ}
    (hlen : counts.length = roundArraySize) (hk : k ≤ roundArraySize) :
    (scanBelow cfg view rx counts k).Inv view := by
  unfold scanBelow
  simp only
  split
  next idx hscan =>
    obtain ⟨hlt, hidx, -⟩ := nextScan_some hscan
    exact ⟨hlen, hlt, by omega⟩
  next => exact hlen

theorem length_roundChangeCountByRound {height : UInt64} {counts : List ℕ}
    (h : msgs.roundChangeCountByRound height = some counts) :
    counts.length = roundArraySize := by
  unfold ConsensusMessages.roundChangeCountByRound at h
  simp only at h
  split at h
  · cases h
    rw [List.length_map, List.length_range]
  · cases h

/-- **One step of the monitor of round changes**: it takes no action, only marks or prunes round
changes, and keeps pointing to later rounds. -/
theorem step_spec {task : FutureRccTask} {s : TaskStep FutureRccTask} (hinv : task.Inv view)
    (hstep : task.step cfg view runState msgs = some s) :
    s.task.Inv view ∧ s.actions = [] ∧
      (s.messages = msgs ∨ ∃ v, s.messages =
        (msgs.getValidRoundChangeCount v (roundChangeVerifyFn cfg view.height)).2) := by
  cases task with
  | start =>
    cases hstep
    exact ⟨trivial, rfl, Or.inl rfl⟩
  | countByRound rx =>
    simp only [step] at hstep
    split at hstep
    · cases hstep
      exact ⟨trivial, rfl, Or.inl rfl⟩
    next counts hcounts =>
      cases hstep
      exact ⟨inv_scanBelow (length_roundChangeCountByRound hcounts) le_rfl, rfl, Or.inl rfl⟩
  | scan rx counts idx =>
    obtain ⟨hlen, hlt, hidx⟩ := hinv
    cases hstep
    refine ⟨?_, rfl, Or.inr ⟨_, rfl⟩⟩
    change Inv view (if _ then _ else _)
    split
    · exact round_of_index hlt hidx
    · exact inv_scanBelow (by rw [List.length_set, hlen]) hidx.le
  | recv rx counts =>
    simp only [step] at hstep
    split at hstep
    · cases hstep
    · cases hstep
      exact ⟨trivial, rfl, Or.inl rfl⟩
    next newView hrecv =>
      split at hstep
      next hnew =>
        split at hstep
        · cases hstep
          exact ⟨trivial, rfl, Or.inl rfl⟩
        next count hcount =>
          cases hstep
          refine ⟨?_, rfl, Or.inl rfl⟩
          have hset : (counts.set newView.round.toNat (count + 1)).length = roundArraySize := by
            rw [List.length_set]
            exact hinv
          change Inv view (if _ then _ else _)
          split
          · -- The index is within the array, so the round is within the limit.
            have hidx := (List.getElem?_eq_some_iff.mp hcount).1
            refine ⟨hset, hnew.2, ?_⟩
            rw [UInt8.le_iff_toNat_le]
            have hmax := toNat_maxRound
            have hlen : counts.length = roundArraySize := hinv
            omega
          · exact hset
      next =>
        cases hstep
        exact ⟨hinv, rfl, Or.inl rfl⟩
  | recount rx counts newView =>
    obtain ⟨hlen, hlt, hle⟩ := hinv
    cases hstep
    refine ⟨?_, rfl, Or.inr ⟨_, rfl⟩⟩
    change Inv view (if _ then _ else _)
    split
    · exact ⟨hlt, hle⟩
    · change (counts.set _ _).length = roundArraySize
      rw [List.length_set, hlen]
  | sent | panicked => cases hstep

end FutureRccTask

namespace FutureProposalTask

/-- The monitor points to later rounds of the height. -/
def Inv (view : View) : FutureProposalTask → Prop
  | .start | .hasByRound _ | .recv _ | .panicked _ => True
  | .scan _ _ idx => view.round.toNat < idx ∧ idx < roundArraySize
  | .verify _ newView => newView.height = view.height ∧ view.round < newView.round
  | .sent round => view.round < round ∧ round ≤ maxRound

theorem inv_scanBelow {rx : Receiver} {present : List Bool} {k : ℕ} (hk : k ≤ roundArraySize) :
    (scanBelow view rx present k).Inv view := by
  unfold scanBelow
  split
  next idx hscan =>
    obtain ⟨hlt, hidx, -⟩ := nextScan_some hscan
    exact ⟨hlt, by omega⟩
  next => trivial

/-- **One step of the monitor of proposals**: it only queries proposals of the height, and keeps
pointing to later rounds. -/
theorem step_spec {task : FutureProposalTask} {s : TaskStep FutureProposalTask}
    (hmax : ∀ v p, msgs.storedProposal v = some p → v.round ≤ maxRound) (hinv : task.Inv view)
    (hstep : task.step cfg env view runState msgs = some s) :
    s.task.Inv view ∧
      ((s.actions = [] ∧ s.messages = msgs) ∨ ∃ v : View, v.height = view.height ∧
        s.actions = RoundTask.blockChecks cfg env msgs v ∧
        s.messages = (msgs.getValidProposalDigest v (proposalVerifyFn cfg env v)).2) := by
  -- Verifying the proposal of a later view: a digest comes from a stored proposal.
  have hverify : ∀ {newView : View} {next : FutureProposalTask}, view.round < newView.round →
      next.Inv view → (verifyFuture cfg env runState msgs newView next).task.Inv view := by
    intro newView next hlt hnext
    unfold verifyFuture
    simp only
    split
    next d hd =>
      obtain ⟨p, hp, -⟩ := ConsensusMessages.getValidProposalDigest_ok hd
      exact ⟨hlt, hmax newView p hp⟩
    next => exact hnext
  cases task with
  | start =>
    cases hstep
    exact ⟨trivial, Or.inl ⟨rfl, rfl⟩⟩
  | hasByRound rx =>
    simp only [step] at hstep
    split at hstep
    · cases hstep
      exact ⟨trivial, Or.inl ⟨rfl, rfl⟩⟩
    · cases hstep
      exact ⟨inv_scanBelow le_rfl, Or.inl ⟨rfl, rfl⟩⟩
  | scan rx present idx =>
    obtain ⟨hlt, hidx⟩ := hinv
    cases hstep
    exact ⟨hverify (round_of_index hlt hidx).1 (inv_scanBelow hidx.le),
      Or.inr ⟨{ height := view.height, round := UInt8.ofNat idx }, rfl, rfl, rfl⟩⟩
  | recv rx =>
    simp only [step] at hstep
    split at hstep
    · cases hstep
    · cases hstep
      exact ⟨trivial, Or.inl ⟨rfl, rfl⟩⟩
    · cases hstep
      refine ⟨?_, Or.inl ⟨rfl, rfl⟩⟩
      change Inv view (if _ then _ else _)
      split
      next hnew => exact hnew
      next => trivial
  | verify rx newView =>
    obtain ⟨hheight, hlt⟩ := hinv
    cases hstep
    exact ⟨hverify hlt trivial, Or.inr ⟨newView, hheight, rfl, rfl⟩⟩
  | sent | panicked => cases hstep

end FutureProposalTask

end Tonic
