/-
# The assertions of a run

`ibft.rs` unwraps, asserts and indexes in many places.  What each of these relies on was
established elsewhere: a proposal that was announced is still stored, the prepares that a
commit rests on are still there at the timeout, no stored or announced round is over the
limit of the round arrays.  `Run.Relies` collects these facts for a running round; with
them the only panics left are those of a lagging receiver, of a block too large to hash,
and of `run` itself at the end of the chain.
-/
import Tonic.CountingLoops
import Tonic.FinalizedProof

namespace Tonic

open Transition

variable {cfg : Config} {msgs msgs' : ConsensusMessages} {view : View} {env : Env}
  {runState : RunState}

/-! ## The round timeouts -/

/-- `Duration::MAX` in nanoseconds. -/
def durationMax : ℕ := (2 ^ 64 - 1) * 10 ^ 9 + 999999999

/-- `TIMEOUT_MULTIPLIER`. -/
def timeoutMultiplier : List ℕ := (List.range roundArraySize).map (fun i => 1 <<< i)

/-- `get_round_timeout`, in nanoseconds; `none` is the panic of indexing the array out of
bounds. -/
def getRoundTimeout (baseRoundTime : ℕ) (round : UInt8) : Option ℕ :=
  timeoutMultiplier[round.toNat]?.map (fun multiplier =>
    min (baseRoundTime * multiplier) durationMax)

theorem isSome_getRoundTimeout {round : UInt8} (h : round ≤ maxRound) (baseRoundTime : ℕ) :
    (getRoundTimeout baseRoundTime round).isSome = true := by
  have hlt : round.toNat < timeoutMultiplier.length := by
    rw [timeoutMultiplier, List.length_map, List.length_range]
    exact toNat_lt_roundArraySize h
  rw [getRoundTimeout, Option.isSome_map, List.getElem?_eq_getElem hlt]
  rfl

/-! ## The panics of a step -/

/-- The text of the panic of a block that is too large to hash. -/
def serializationMessage : String := "Consensus serialization can not fail"

namespace RoundTask

theorem panicked_propose {rawBlock : RawBlock} {rcc : Option RoundChangeCertificate} {why : String}
    (h : propose cfg view rawBlock rcc = .panicked why) : why = serializationMessage := by
  unfold propose at h
  split at h
  · exact (RoundTask.panicked.inj h).symm
  · cases h

theorem panicked_buildAndPropose {rcc : Option RoundChangeCertificate} {why : String}
    (h : buildAndPropose cfg env view rcc = .panicked why) : why = serializationMessage := by
  unfold buildAndPropose at h
  split at h
  · cases h
  · exact panicked_propose h

/-- The certificate is composed of any round changes: the one that is found has a block. -/
theorem composeRoundChangeCertificate_ne_error (roundChanges : List RoundChangeMessageSigned)
    (why : String) : composeRoundChangeCertificate roundChanges ≠ .error why := by
  intro h
  unfold composeRoundChangeCertificate at h
  simp only at h
  split at h
  next pos hpos =>
    obtain ⟨hlt, hsome, -⟩ := List.findIdx?_eq_some_iff_getElem.mp hpos
    rw [List.getElem?_eq_getElem hlt, Option.map_some] at h
    obtain ⟨pp, hpp⟩ : ∃ pp, roundChanges[pos].message.latestPreparedProposed = some pp :=
      Option.isSome_iff_exists.mp hsome
    simp [RoundChangeMessageSigned.intoMetadata, hpp] at h
  next => cases h

theorem panicked_proposeFromRoundChanges {roundChanges : List RoundChangeMessageSigned}
    {why : String}
    (h : proposeFromRoundChanges cfg env view (some roundChanges) = .panicked why) :
    why = serializationMessage := by
  simp only [proposeFromRoundChanges] at h
  split at h
  next why' herror => exact absurd herror (composeRoundChangeCertificate_ne_error _ _)
  · exact panicked_propose h
  · exact panicked_buildAndPropose h

/-- A quorum of counted round changes is taken. -/
theorem takeValidRoundChangeMessages_some {quorum : ℕ} {f : RoundChangeMessageSigned → Bool}
    (h : ¬ (msgs.takeValidRoundChangeMessages env view f quorum).1.2 < quorum) :
    ∃ roundChanges, (msgs.takeValidRoundChangeMessages env view f quorum).1.1 =
      some roundChanges := by
  rw [ConsensusMessages.takeValidRoundChangeMessages_count] at h
  unfold ConsensusMessages.takeValidRoundChangeMessages
  simp only
  rw [if_pos (not_lt.mp h)]
  exact ⟨_, rfl⟩

/-- A quorum of counted seals is taken. -/
theorem takeValidCommitSeals_isSome {quorum : ℕ} {f : CommitMessageSigned → Bool}
    (h : ¬ (validSenders msgs.commitMessages view f).length < quorum) :
    ∃ seals, (msgs.takeValidCommitSeals env view f quorum).1.1 = some seals := by
  rw [length_validSenders] at h
  unfold ConsensusMessages.takeValidCommitSeals
  simp only
  rw [if_pos (not_lt.mp h)]
  exact ⟨_, rfl⟩

/-- A query finds nothing only where nothing is stored. -/
theorem storedProposal_of_getValidProposalDigest {f : ProposalMessageSigned → Except IBFTError Unit}
    (h : (msgs.getValidProposalDigest view f).1 = none) : msgs.storedProposal view = none := by
  unfold ConsensusMessages.getValidProposalDigest at h
  unfold ConsensusMessages.storedProposal
  split at h
  next hzero =>
    rw [if_pos hzero]
    split at h
    next hnone => exact hnone
    next => cases h
  next hne =>
    rw [if_neg hne]
    split at h
    next hnone => rw [hnone, Option.map_none]
    next => cases h
    next => cases h

/-- **Where the round task panics**: at a lagging receiver, at a block that is too large, or at a
proposal that is gone. -/
theorem panicked_of_step {task : RoundTask} {s : TaskStep RoundTask} {why : String}
    (hs : task.step cfg env view runState msgs = some s) (hwhy : s.task = .panicked why) :
    why ∈ recvMessages ∨ why = serializationMessage ∨
      (task = .getProposalAgain ∧ msgs.storedProposal view = none) := by
  have hrecv : ∀ {why' : String}, why' ∈ recvMessages → RoundTask.panicked why' = .panicked why →
      why ∈ recvMessages := by
    intro why' hmem heq
    rw [← RoundTask.panicked.inj heq]
    exact hmem
  cases task with
  | start =>
    cases hs
    simp only [goto, pollStart] at hwhy
    split at hwhy
    · split at hwhy
      · exact Or.inr (Or.inl (panicked_buildAndPropose hwhy))
      · cases hwhy
    · cases hwhy
  | takeRoundChanges rx =>
    cases hs
    let quorum := cfg.validatorManager.quorum view.height
    let taken :=
      (msgs.takeValidRoundChangeMessages env view (roundChangeVerifyFn cfg view.height) quorum).1
    have htask : (if taken.2 < quorum then .recvRoundChange rx taken.2
        else proposeFromRoundChanges cfg env view taken.1) = .panicked why := hwhy
    split at htask
    next => cases htask
    next hquorum =>
      -- A count of the quorum comes with the round changes.
      obtain ⟨roundChanges, hsome⟩ := takeValidRoundChangeMessages_some hquorum
      rw [show taken.1 = some roundChanges from hsome] at htask
      exact Or.inr (Or.inl (panicked_proposeFromRoundChanges htask))
  | getProposal rx =>
    cases hs
    simp only [prepareDigest] at hwhy
    split at hwhy <;> cases hwhy
  | getProposalAgain =>
    cases hs
    simp only [prepareDigest] at hwhy
    split at hwhy
    next hnone => exact Or.inr (Or.inr ⟨rfl, storedProposal_of_getValidProposalDigest hnone⟩)
    all_goals cases hwhy
  | takeSeals digest rx =>
    cases hs
    let quorum := cfg.validatorManager.quorum view.height
    let f : CommitMessageSigned → Bool := fun m => m.proposedBlockDigest = digest
    have htask : sealsTaken cfg view digest rx (msgs.takeValidCommitSeals env view f quorum).1 =
        .panicked why := hwhy
    rw [sealsTaken_eq] at htask
    split at htask
    next => cases htask
    next hquorum =>
      -- So does a count of commits with the seals.
      have htaken : ∃ seals, (msgs.takeValidCommitSeals env view f quorum).1.1 = some seals :=
        takeValidCommitSeals_isSome hquorum
      obtain ⟨seals, hsome⟩ := htaken
      rw [hsome] at htask
      cases htask
  | countPrepares digest rx =>
    cases hs
    simp only [goto, prepareCounted] at hwhy
    split at hwhy <;> cases hwhy
  | recvRoundChange | recvProposal | recvPrepare | recvCommit =>
    rcases step_of_waiting hs rfl with ⟨-, why', hmem, rfl⟩ | ⟨v, -, rfl⟩
    · exact Or.inl (hrecv hmem hwhy)
    · simp only [goto, notified] at hwhy
      repeat' split at hwhy
      all_goals cases hwhy
  | broadcastProposal | broadcastPrepare | broadcastCommit | addProposal | addPrepare
  | addCommit =>
    cases hs
    cases hwhy
  | finished | failed | panicked => cases hs

end RoundTask

/-- **Where the monitor of round changes panics**: at a lagging receiver. -/
theorem FutureRccTask.panicked_of_step {task : FutureRccTask} {s : TaskStep FutureRccTask}
    {why : String} (h : task.LoopInv cfg msgs view) (hinv : task.Inv view)
    (hstored : RoundChangesLe msgs) (hsent : ∀ v ∈ msgs.roundChangeTx.sent, v.round ≤ maxRound)
    (hs : task.step cfg view runState msgs = some s) (hwhy : s.task = .panicked why) :
    why ∈ recvMessages := by
  by_cases hlag : Lagging (task.waiting msgs)
  · cases task with
    | recv rx counts =>
      rw [waiting, lagging_some_iff, ← Channel.recv_eq_lagged_iff] at hlag
      simp only [FutureRccTask.step, hlag] at hs
      cases hs
      rw [← FutureRccTask.panicked.inj hwhy]
      decide
    | _ =>
      obtain ⟨ch, rx, hnone, -⟩ := hlag
      cases hnone
  · have hended : s.task.Ended := by rw [hwhy]; trivial
    obtain ⟨round, hround, -⟩ := reached_of_ended h hinv hstored hsent hlag hs hended
    rw [hround] at hwhy
    cases hwhy

namespace FutureProposalTask

theorem scanBelow_ne_panicked {rx : Receiver} {present : List Bool} {k : ℕ} {why : String} :
    scanBelow view rx present k ≠ .panicked why := by
  unfold scanBelow
  split <;> exact FutureProposalTask.noConfusion

theorem verifyFuture_ne_panicked {newView : View} {next : FutureProposalTask} {why : String}
    (hnext : next ≠ .panicked why) :
    (verifyFuture cfg env runState msgs newView next).task ≠ .panicked why := by
  unfold verifyFuture
  simp only
  split
  · exact FutureProposalTask.noConfusion
  · exact hnext

/-- **Where the monitor of proposals panics**: at a lagging receiver. -/
theorem panicked_of_step {task : FutureProposalTask} {s : TaskStep FutureProposalTask}
    {why : String} (hmax : ∀ v p, msgs.storedProposal v = some p → v.round ≤ maxRound)
    (hs : task.step cfg env view runState msgs = some s) (hwhy : s.task = .panicked why) :
    why ∈ recvMessages := by
  cases task with
  | start =>
    cases hs
    cases hwhy
  | hasByRound rx =>
    simp only [FutureProposalTask.step] at hs
    split at hs
    next hnone =>
      -- The array has an index for every stored proposal.
      unfold ConsensusMessages.hasProposalByRound at hnone
      simp only at hnone
      split at hnone
      · cases hnone
      next hall =>
        refine absurd (List.all_eq_true.mpr fun round hround => ?_) hall
        obtain ⟨v, e, hst, hv⟩ := FirstWinsMap.mem_select.mp hround
        have hle : v.round ≤ maxRound := by
          by_cases hzero : v.round = 0
          · rw [hzero]
            decide
          · refine hmax v e.1 ?_
            rw [ConsensusMessages.storedProposal, if_neg hzero,
              FirstWinsMap.get?_eq_some_iff.mpr hst]
            rfl
        have hround : round = v.round := by
          split at hv
          · split at hv <;> cases hv
            rfl
          · cases hv
        rw [hround]
        exact decide_eq_true (toNat_lt_roundArraySize hle)
    next =>
      cases hs
      exact absurd hwhy scanBelow_ne_panicked
  | scan rx present idx =>
    cases hs
    exact absurd hwhy (verifyFuture_ne_panicked scanBelow_ne_panicked)
  | recv rx =>
    simp only [FutureProposalTask.step] at hs
    split at hs
    · cases hs
    · cases hs
      rw [← FutureProposalTask.panicked.inj hwhy]
      decide
    · cases hs
      simp only [goto] at hwhy
      split at hwhy <;> cases hwhy
  | verify rx newView =>
    cases hs
    exact absurd hwhy (verifyFuture_ne_panicked FutureProposalTask.noConfusion)
  | sent | panicked => cases hs

end FutureProposalTask

/-- The texts of the panics of `run` that are about the height itself: no block was ever decided, or
nobody could decide one, or the height is already over. -/
def runMessages : List String :=
  ["Not producing blocks for a long time, chain is dead", "Quorum must be greater than 0",
    "Updated height must always be higher than the current height"]

theorem Run.panicked_enterRound {run : Run} {round : UInt8} {why : String}
    (h : (run.enterRound cfg round).phase = .panicked why) : why ∈ runMessages := by
  unfold Run.enterRound at h
  split at h
  · rw [← RunPhase.panicked.inj h]
    decide
  · simp only at h
    split at h
    · cases h
    · split at h
      · cases h
      · split at h <;> cases h

theorem Run.panicked_start {height : UInt64} {why : String}
    (h : (Run.start cfg msgs height).phase = .panicked why) : why ∈ runMessages := by
  unfold Run.start at h
  simp only at h
  split at h
  · rw [← RunPhase.panicked.inj h]
    decide
  · exact Run.panicked_enterRound h

variable {n n' : Node} {run run' : Run} {ev : Event} {K : Knowledge}

/-- **Where the task of `run_height` panics**: at a proposal that is gone, at missing prepares, or
with a text about the height. -/
theorem Node.panicked_of_stepMain {why : String} (h : n.stepMain cfg run env = some n')
    (hrun' : n'.run = some run') (hwhy : run'.phase = .panicked why) :
    why ∈ runMessages ∨
      ((∃ seals, run.phase = .takeFinalProposal seals) ∨ run.phase = .timeoutTakeProposal) ∧
        n.messages.storedProposal run.view = none ∨
      ∃ p, run.phase = .timeoutTakePrepares p ∧
        (n.messages.takeValidPrepareMessages env run.view
          (fun m => m.proposedBlockDigest = p.proposedBlockDigest)).1.length <
            cfg.validatorManager.quorum run.height - 1 := by
  unfold Node.stepMain at h
  cases hp : run.phase with
  | addOwnRoundChange rc =>
    rw [hp] at h
    cases h
    cases hrun'
    cases hwhy
  | takeFinalProposal seals =>
    rw [hp] at h
    simp only [ConsensusMessages.takeProposalMessage_fst] at h
    cases hstored : n.messages.storedProposal run.view with
    | none => exact Or.inr (Or.inl ⟨Or.inl ⟨seals, rfl⟩, rfl⟩)
    | some p =>
      rw [hstored] at h
      cases h
      cases hrun'
      cases hwhy
  | broadcastBlock block =>
    rw [hp] at h
    simp only at h
    split at h
    · cases h
      cases hrun'
      cases hwhy
    · cases h
      cases hrun'
      -- `update_height` asserts that the height is higher.
      rw [← RunPhase.panicked.inj hwhy]
      exact Or.inl (by decide)
  | prune block =>
    rw [hp] at h
    cases h
    cases hrun'
    cases hwhy
  | timeoutTakeProposal =>
    rw [hp] at h
    simp only [ConsensusMessages.takeProposalMessage_fst] at h
    cases hstored : n.messages.storedProposal run.view with
    | none => exact Or.inr (Or.inl ⟨Or.inr rfl, rfl⟩)
    | some p =>
      rw [hstored] at h
      cases h
      cases hrun'
      cases hwhy
  | timeoutTakePrepares p =>
    rw [hp] at h
    simp only at h
    split at h
    next hlt => exact Or.inr (Or.inr ⟨p, rfl, hlt⟩)
    next =>
      cases h
      cases hrun'
      cases hwhy
  | broadcastRoundChange rc =>
    rw [hp] at h
    cases h
    cases hrun'
    exact Or.inl (Run.panicked_enterRound hwhy)
  | select | returned | panicked =>
    rw [hp] at h
    cases h

/-! ## What a round relies on -/

/-- The store keeps the proposal of the view, and announces no proposal before it is stored. -/
structure ProposalKept (view : View) (msgs msgs' : ConsensusMessages) : Prop where
  stored : ∀ p, msgs.storedProposal view = some p → msgs'.storedProposal view = some p
  announced : ∃ added, msgs'.proposalTx.sent = msgs.proposalTx.sent ++ added ∧
    (view ∈ added → ∃ p, msgs'.storedProposal view = some p)

theorem ProposalKept.of_eq (hstored : msgs'.storedProposal view = msgs.storedProposal view)
    (hsent : msgs'.proposalTx = msgs.proposalTx) : ProposalKept view msgs msgs' where
  stored p hp := by rw [hstored, hp]
  announced := ⟨[], by rw [hsent, List.append_nil], fun h => by cases h⟩

theorem ProposalKept.addProposalMessage (p : ProposalMessageSigned) (a : Address) :
    ProposalKept view msgs (msgs.addProposalMessage p a) where
  stored q hq := ConsensusMessages.storedProposal_addMessage_of_some (m := .proposal p) hq
  announced := by
    by_cases hvacant : msgs.storedProposal p.view = none
    · refine ⟨[p.view], ?_, fun hmem => ⟨p, ?_⟩⟩
      · unfold ConsensusMessages.addProposalMessage
        simp only [if_pos hvacant]
        split <;> rfl
      · rw [ConsensusMessages.storedProposal_addProposalMessage,
          if_pos ⟨hvacant, List.mem_singleton.mp hmem⟩]
    · refine ⟨[], ?_, fun hmem => by cases hmem⟩
      unfold ConsensusMessages.addProposalMessage
      simp only [if_neg hvacant, List.append_nil]

theorem ProposalKept.addMessage (m : IBFTMessage) (a : Address) :
    ProposalKept view msgs (msgs.addMessage a m) := by
  cases m with
  | proposal p => exact .addProposalMessage p a
  | prepare m =>
    refine .of_eq (ConsensusMessages.storedProposal_addPrepareMessage m a view) ?_
    show (msgs.addPrepareMessage m a).proposalTx = msgs.proposalTx
    unfold ConsensusMessages.addPrepareMessage
    simp only
    split <;> rfl
  | commit m =>
    refine .of_eq (ConsensusMessages.storedProposal_addCommitMessage m a view) ?_
    show (msgs.addCommitMessage m a).proposalTx = msgs.proposalTx
    unfold ConsensusMessages.addCommitMessage
    simp only
    split <;> rfl
  | roundChange m =>
    refine .of_eq (ConsensusMessages.storedProposal_addRoundChangeMessage m a view) ?_
    show (msgs.addRoundChangeMessage m a).proposalTx = msgs.proposalTx
    unfold ConsensusMessages.addRoundChangeMessage
    simp only
    split <;> rfl

/-- While its tasks run, the run only adds proposals. -/
theorem StoreStep.proposalKept (h : StoreStep cfg run msgs ev msgs')
    (hev : ∀ env, ev ≠ .main env) : ProposalKept view msgs msgs' := by
  cases h with
  | same => exact .of_eq rfl rfl
  | addProposal => exact .addProposalMessage _ _
  | queryProposal =>
    refine .of_eq (ConsensusMessages.storedProposal_getValidProposalDigest _ _ _) ?_
    unfold ConsensusMessages.getValidProposalDigest
    split
    · split <;> rfl
    · split <;> rfl
  | addPrepare => exact .addMessage (.prepare _) _
  | addCommit => exact .addMessage (.commit _) _
  | countPrepares | countRoundChanges => exact .of_eq rfl rfl
  | takeSeals =>
    refine .of_eq (ConsensusMessages.storedProposal_takeValidCommitSeals _ _ _ _ _) ?_
    unfold ConsensusMessages.takeValidCommitSeals
    simp only
    split <;> rfl
  | takeRoundChanges =>
    refine .of_eq (ConsensusMessages.storedProposal_takeValidRoundChangeMessages _ _ _ _ _) ?_
    unfold ConsensusMessages.takeValidRoundChangeMessages
    simp only
    split <;> rfl
  | takeProposal | takePrepares | addRoundChange | prune => exact absurd rfl (hev _)

/-- The store keeps its prepares. -/
def PreparesKept (msgs msgs' : ConsensusMessages) : Prop :=
  ∀ k m, msgs.prepareMessages.Stores k m → msgs'.prepareMessages.Stores k m

theorem PreparesKept.of_eq (h : msgs'.prepareMessages = msgs.prepareMessages) :
    PreparesKept msgs msgs' :=
  fun _ _ hst => h ▸ hst

theorem PreparesKept.addMessage (m : IBFTMessage) (a : Address) :
    PreparesKept msgs (msgs.addMessage a m) := by
  cases m with
  | prepare m => exact fun _ _ hst => ConsensusMessages.stores_addPrepareMessage.mpr (Or.inl hst)
  | proposal p =>
    refine .of_eq ?_
    show (msgs.addProposalMessage p a).prepareMessages = msgs.prepareMessages
    unfold ConsensusMessages.addProposalMessage
    simp only
    split
    · split <;> rfl
    · rfl
  | commit m =>
    refine .of_eq ?_
    show (msgs.addCommitMessage m a).prepareMessages = msgs.prepareMessages
    unfold ConsensusMessages.addCommitMessage
    simp only
    split <;> rfl
  | roundChange m =>
    refine .of_eq ?_
    show (msgs.addRoundChangeMessage m a).prepareMessages = msgs.prepareMessages
    unfold ConsensusMessages.addRoundChangeMessage
    simp only
    split <;> rfl

/-- Only `run_prepare` and the timeout take prepares away. -/
theorem StoreStep.preparesKept (h : StoreStep cfg run msgs ev msgs')
    (hev : ∀ env, ev ≠ .main env)
    (htask : ∀ env d rx, ev = .round env → run.roundTask ≠ some (.countPrepares d rx)) :
    PreparesKept msgs msgs' := by
  cases h with
  | same => exact .of_eq rfl
  | addProposal => exact .addMessage (.proposal _) _
  | queryProposal =>
    refine .of_eq ?_
    unfold ConsensusMessages.getValidProposalDigest
    split
    · split <;> rfl
    · split <;> rfl
  | addPrepare => exact .addMessage (.prepare _) _
  | addCommit => exact .addMessage (.commit _) _
  | countPrepares hcount => exact absurd hcount (htask _ _ _ rfl)
  | countRoundChanges => exact .of_eq rfl
  | takeSeals =>
    refine .of_eq ?_
    unfold ConsensusMessages.takeValidCommitSeals
    simp only
    split <;> rfl
  | takeRoundChanges =>
    refine .of_eq ?_
    unfold ConsensusMessages.takeValidRoundChangeMessages
    simp only
    split <;> rfl
  | takeProposal | takePrepares | addRoundChange | prune => exact absurd rfl (hev _)

theorem CountingLoop.Reached.of_preparesKept {d : Digest}
    (h : (CountingLoop.prepare d).Reached cfg msgs view) (hkept : PreparesKept msgs msgs') :
    (CountingLoop.prepare d).Reached cfg msgs' view := by
  obtain ⟨senders, hnodup, hlen, hall⟩ := h
  refine ⟨senders, hnodup, hlen, fun a ha => ?_⟩
  obtain ⟨m, hst, hm⟩ := hall a ha
  exact ⟨m, hkept _ _ hst, hm⟩

namespace RoundTask

/-- A task that waits for the proposal of its view misses none: once it is announced, it is
stored. -/
def AwaitInv (msgs : ConsensusMessages) (view : View) : RoundTask → Prop
  | .getProposal rx | .recvProposal rx =>
    rx ≤ msgs.proposalTx.sent.length ∧
      (view ∈ msgs.proposalTx.sent.drop rx → ∃ p, msgs.storedProposal view = some p)
  | .getProposalAgain => ∃ p, msgs.storedProposal view = some p
  | _ => True

theorem AwaitInv.of_kept {task : RoundTask} (h : task.AwaitInv msgs view)
    (hkept : ProposalKept view msgs msgs') : task.AwaitInv msgs' view := by
  obtain ⟨added, hsent, hadded⟩ := hkept.announced
  have hwait : ∀ {rx : Receiver}, (rx ≤ msgs.proposalTx.sent.length ∧
      (view ∈ msgs.proposalTx.sent.drop rx → ∃ p, msgs.storedProposal view = some p)) →
      rx ≤ msgs'.proposalTx.sent.length ∧
        (view ∈ msgs'.proposalTx.sent.drop rx → ∃ p, msgs'.storedProposal view = some p) := by
    rintro rx ⟨hrx, hold⟩
    rw [hsent, List.drop_append_of_le_length hrx, List.length_append]
    refine ⟨hrx.trans (Nat.le_add_right _ _), fun hmem => ?_⟩
    rcases List.mem_append.mp hmem with hmem | hmem
    · obtain ⟨p, hp⟩ := hold hmem
      exact ⟨p, hkept.stored p hp⟩
    · exact hadded hmem
  cases task with
  | getProposal | recvProposal => exact hwait h
  | getProposalAgain =>
    obtain ⟨p, hp⟩ := h
    exact ⟨p, hkept.stored p hp⟩
  | _ => trivial

theorem awaitInv_propose (rawBlock : RawBlock) (rcc : Option RoundChangeCertificate) :
    (propose cfg view rawBlock rcc).AwaitInv msgs view := by
  unfold propose
  split <;> trivial

theorem awaitInv_buildAndPropose (rcc : Option RoundChangeCertificate) :
    (buildAndPropose cfg env view rcc).AwaitInv msgs view := by
  unfold buildAndPropose
  split
  · trivial
  · exact awaitInv_propose _ _

/-- **One step of a task that waits for the proposal.** -/
theorem AwaitInv.step {task : RoundTask} {s : TaskStep RoundTask} (h : task.AwaitInv msgs view)
    (hs : task.step cfg env view runState msgs = some s)
    (hkept : ProposalKept view msgs s.messages) : s.task.AwaitInv s.messages view := by
  suffices h : s.task.AwaitInv msgs view from h.of_kept hkept
  cases task with
  | start =>
    cases hs
    show (pollStart cfg env view msgs).AwaitInv msgs view
    unfold pollStart
    split
    · split
      · exact awaitInv_buildAndPropose _
      · trivial
    · -- A receiver that has just subscribed has nothing to read.
      refine ⟨le_rfl, fun hmem => ?_⟩
      rw [Channel.subscribe, List.drop_length] at hmem
      cases hmem
  | getProposal rx =>
    cases hs
    show (prepareDigest cfg view (.recvProposal rx) _).AwaitInv msgs view
    unfold prepareDigest
    split
    · exact h
    · trivial
    · trivial
  | recvProposal rx =>
    obtain ⟨-, hstored⟩ := h
    rcases step_of_waiting hs rfl with ⟨-, why, -, rfl⟩ | ⟨v, hrecv, rfl⟩
    · trivial
    · -- The notification that was read is no longer in front of the receiver.
      have hdrop : msgs.proposalTx.sent.drop rx = v :: msgs.proposalTx.sent.drop (rx + 1) ∧
          rx + 1 ≤ msgs.proposalTx.sent.length := by
        unfold Channel.recv at hrecv
        split at hrecv
        · cases hrecv
        · split at hrecv
          · cases hrecv
          next hget =>
            cases hrecv
            obtain ⟨hlt, hv⟩ := List.getElem?_eq_some_iff.mp hget
            exact ⟨by rw [List.drop_eq_getElem_cons hlt, hv], hlt⟩
      show AwaitInv msgs view (if v = view then _ else _)
      split
      next hv =>
        subst hv
        exact hstored (by rw [hdrop.1]; exact List.mem_cons_self)
      next => exact ⟨hdrop.2, fun hmem => hstored (by rw [hdrop.1]; exact List.mem_cons_of_mem _ hmem)⟩
  | getProposalAgain =>
    cases hs
    show (prepareDigest cfg view (.panicked _) _).AwaitInv msgs view
    unfold prepareDigest
    split <;> trivial
  | takeRoundChanges rx =>
    cases hs
    show AwaitInv msgs view (if _ then _ else proposeFromRoundChanges cfg env view _)
    split
    · trivial
    · unfold proposeFromRoundChanges
      split
      · trivial
      · split
        · trivial
        · exact awaitInv_propose _ _
        · exact awaitInv_buildAndPropose _
  | countPrepares digest rx =>
    cases hs
    show (prepareCounted cfg view digest rx _).AwaitInv msgs view
    unfold prepareCounted
    split <;> trivial
  | takeSeals digest rx =>
    cases hs
    show (sealsTaken cfg view digest rx _).AwaitInv msgs view
    unfold sealsTaken
    split
    split
    · trivial
    · split <;> trivial
  | recvRoundChange | recvPrepare | recvCommit =>
    rcases step_of_waiting hs rfl with ⟨-, why, -, rfl⟩ | ⟨v, -, rfl⟩
    · trivial
    · show AwaitInv msgs view (if v = view then _ else _)
      split
      · split <;> trivial
      · trivial
  | broadcastProposal | broadcastPrepare | broadcastCommit | addProposal | addPrepare
  | addCommit =>
    cases hs
    trivial
  | finished | failed | panicked => cases hs

/-- A commit follows the last count of the prepares. -/
theorem broadcastCommit_of_step {task : RoundTask} {s : TaskStep RoundTask}
    {m : CommitMessageSigned} (hs : task.step cfg env view runState msgs = some s)
    (hm : s.task = .broadcastCommit m) : ∃ rx, task = .countPrepares m.proposedBlockDigest rx := by
  cases task with
  | countPrepares digest rx =>
    cases hs
    simp only [goto, prepareCounted] at hm
    split at hm
    · cases hm
    · cases hm
      exact ⟨rx, rfl⟩
  | _ => cases builds_of_step hs (congrArg outgoing hm)

end RoundTask

/-- What a running round relies on, and what the handling of its end does. -/
structure Run.Relies (cfg : Config) (msgs : ConsensusMessages) (run : Run) : Prop where
  awaited : ∀ task, run.roundTask = some task → task.AwaitInv msgs run.view
  committing : ∀ m, run.roundTask = some (.broadcastCommit m) →
    (CountingLoop.prepare m.proposedBlockDigest).Reached cfg msgs run.view
  committed : run.phase.HoldsProposal → ∀ d, .commit d ∈ votesAt run.log run.view →
    (CountingLoop.prepare d).Reached cfg msgs run.view
  taken : ∀ p, run.phase = .timeoutTakePrepares p →
    (CountingLoop.prepare p.proposedBlockDigest).Reached cfg msgs run.view

namespace Run.Relies

theorem of_kept (h : run.Relies cfg msgs) (hproposal : ProposalKept run.view msgs msgs')
    (hprepares : PreparesKept msgs msgs') : run.Relies cfg msgs' where
  awaited task htask := (h.awaited task htask).of_kept hproposal
  committing m hm := (h.committing m hm).of_preparesKept hprepares
  committed hphase d hd := (h.committed hphase d hd).of_preparesKept hprepares
  taken p hp := (h.taken p hp).of_preparesKept hprepares

/-- A run that has no vote in its view yet. -/
theorem of_spawned (h : ∀ task, run.roundTask = some task → task = .start)
    (hphase : ∀ p, run.phase ≠ .timeoutTakePrepares p)
    (hvotes : run.phase.HoldsProposal → votesAt run.log run.view = []) : run.Relies cfg msgs where
  awaited task htask := by rw [h task htask]; trivial
  committing m hm := by cases h _ hm
  committed hholds d hd := by
    rw [hvotes hholds] at hd
    cases hd
  taken p hp := absurd hp (hphase p)

/-- A run that has left its round for good. -/
theorem of_left (htask : run.roundTask = none) (hphase : ∀ p, run.phase ≠ .timeoutTakePrepares p)
    (hholds : ¬ run.phase.HoldsProposal) : run.Relies cfg msgs :=
  of_spawned (fun task h => by rw [htask] at h; cases h) hphase (fun h => absurd h hholds)

theorem enterRound {round : UInt8} (hinv : (run.enterRound cfg round).Inv cfg K) :
    (run.enterRound cfg round).Relies cfg msgs := by
  refine of_spawned (Run.spawned_enterRound cfg run round).round (fun p hp => ?_) (fun hholds => ?_)
  · rcases run.enterRound_cases cfg round with
      ⟨⟨why, hphase⟩, -⟩ | ⟨⟨hphase, -⟩ | ⟨⟨rc, hphase⟩, -⟩, -⟩ <;> rw [hphase] at hp <;> cases hp
  · rcases run.enterRound_cases cfg round with
      ⟨⟨why, hphase⟩, -⟩ | ⟨⟨hphase, htask⟩ | ⟨⟨rc, hphase⟩, -⟩, -⟩
    · rw [hphase] at hholds
      exact absurd hholds id
    · obtain ⟨-, -, hvotes⟩ := hinv.select_of_task htask
      exact hvotes
    · rw [hphase] at hholds
      exact absurd hholds id

/-- The run leaves `select!` in the same round. -/
theorem leave (h : run.Relies cfg msgs) (hselect : run.phase = .select) {phase : RunPhase}
    (hphase : ∀ p, phase ≠ .timeoutTakePrepares p) :
    Run.Relies cfg msgs { run.abort with phase } where
  awaited task htask := by cases htask
  committing m hm := by cases hm
  committed _ d hd := h.committed (by rw [hselect]; trivial) d hd
  taken p hp := absurd hp (hphase p)

/-- A step of the round task. -/
theorem round {task : RoundTask} {s : TaskStep RoundTask} (h : run.Relies cfg msgs)
    (hinv : run.Inv cfg K) (htask : run.roundTask = some task)
    (hs : task.step cfg env run.view run.runState msgs = some s)
    (hstore : StoreStep cfg run msgs (.round env) s.messages) :
    Run.Relies cfg s.messages
      { run with roundTask := some s.task, runState := s.runState, log := run.log ++ s.actions } := by
  obtain ⟨hselect, htaskinv⟩ := hinv.select_of_task htask
  have hholds : run.phase.HoldsProposal := by rw [hselect]; trivial
  have hnot : ∀ p, run.phase ≠ .timeoutTakePrepares p := by
    intro p hp
    rw [hselect] at hp
    cases hp
  have hawaited := (h.awaited task htask).step hs (hstore.proposalKept (by simp))
  -- The last count found the prepares, and keeps them.
  have hcommitting : ∀ m, s.task = .broadcastCommit m →
      (CountingLoop.prepare m.proposedBlockDigest).Reached cfg s.messages run.view := by
    intro m hm
    obtain ⟨rx, rfl⟩ := RoundTask.broadcastCommit_of_step hs hm
    obtain ⟨senders, hnodup, hlen, hall⟩ := RoundTask.reached_of_exit hs rfl
      (fun hlag => by obtain ⟨ch, rx', hnone, -⟩ := hlag; cases hnone)
      (by rw [hm]; exact fun heq => by cases heq)
    refine ⟨senders, hnodup, hlen, fun a ha => ?_⟩
    obtain ⟨p, hst, hp⟩ := hall a ha
    cases hs
    exact ⟨p, ConsensusMessages.stores_getValidPrepareCount.mpr ⟨hst, fun _ => hp⟩, hp⟩
  refine ⟨fun task' h' => ?_, fun m hm => hcommitting m (Option.some.inj hm), fun _ d hd => ?_,
    fun p hp => absurd hp (hnot p)⟩
  · cases h'
    exact hawaited
  · show (CountingLoop.prepare d).Reached cfg s.messages run.view
    by_cases hcount : ∃ d' rx, task = .countPrepares d' rx
    · -- There is no commit before the prepares are counted.
      obtain ⟨d', rx, rfl⟩ := hcount
      obtain ⟨-, hvotes, -⟩ := htaskinv
      have hd' : .commit d ∈ votesAt (run.log ++ s.actions) run.view := hd
      cases hs
      rw [votesAt_append] at hd'
      rcases List.mem_append.mp hd' with hd' | hd'
      · rcases hvotes with hvotes | hvotes <;> rw [hvotes] at hd' <;> simp at hd'
      · cases hd'
    · have hkept := hstore.preparesKept (by simp) (fun env' d' rx _ htask' => by
        rw [htask] at htask'
        exact hcount ⟨d', rx, Option.some.inj htask'⟩)
      have hd' : .commit d ∈ votesAt (run.log ++ s.actions) run.view := hd
      rw [votesAt_append] at hd'
      rcases List.mem_append.mp hd' with hd' | hd'
      · exact (h.committed hholds d hd').of_preparesKept hkept
      · obtain ⟨m, hm, -, hvote⟩ := mem_votesAt.mp hd'
        have hout := RoundTask.outgoing_of_mem hs hm
        cases m with
        | commit m =>
          cases hvote
          have hcommit := RoundTask.eq_broadcastCommit hout
          exact (h.committing m (hcommit ▸ htask)).of_preparesKept hkept
        | proposal | prepare | roundChange => cases hvote

/-- The proposal that is taken after a commit has its prepares in the store. -/
theorem takeProposal (h : run.Relies cfg msgs) (hdrive : run.Drive cfg msgs) (hinv : run.Inv cfg K)
    (hphase : run.phase = .timeoutTakeProposal) {p : ProposalMessageSigned}
    (hstored : msgs.storedProposal run.view = some p) :
    (CountingLoop.prepare p.proposedBlockDigest).Reached cfg (msgs.takeProposalMessage run.view).2
      run.view := by
  have hinvPhase := hinv.phase
  rw [hphase] at hinvPhase
  obtain ⟨-, hstate, d, hvotes⟩ := hinvPhase
  have hholds : run.phase.HoldsProposal := by rw [hphase]; trivial
  -- The proposal taken is the one that the round was driven by.
  obtain ⟨q, hq, hd, -⟩ := hdrive.driven_of_commit hholds hstate hvotes
  rw [hstored] at hq
  cases hq
  rw [hd]
  have hcommit : .commit d ∈ votesAt run.log run.view := by
    rcases hvotes with hvotes | hvotes <;> rw [hvotes] <;> simp
  refine (h.committed hholds d hcommit).of_preparesKept (.of_eq ?_)
  unfold ConsensusMessages.takeProposalMessage
  split <;> rfl

/-- **What a round relies on is kept** by every step of the run. -/
theorem step (h : run.Relies cfg msgs) (hdrive : run.Drive cfg msgs) (hinv : run.Inv cfg K)
    {K' : Knowledge} (hinv' : run'.Inv cfg K') (hstep : RunStep cfg msgs run ev msgs' run')
    (hstore : StoreStep cfg run msgs ev msgs') (hmax : ∀ v p,
      msgs.storedProposal v = some p → v.round ≤ maxRound) : run'.Relies cfg msgs' := by
  -- The round task is aborted whenever the run leaves its `select!`.
  have hnone : ∀ {phase : RunPhase}, run.phase = phase → phase ≠ .select →
      run.roundTask = none := by
    intro phase hphase hne
    by_contra hsome
    obtain ⟨task, htask⟩ := Option.ne_none_iff_exists'.mp hsome
    exact hne (hphase ▸ (hinv.select_of_task htask).1)
  cases hstep with
  | round htask hs => exact h.round hinv htask hs hstore
  | @futureProposal env task s htask hs =>
    have hkept := h.of_kept (hstore.proposalKept (by simp)) (hstore.preparesKept (by simp) (by simp))
    refine ⟨hkept.awaited, hkept.committing, fun hholds d hd => hkept.committed hholds d ?_,
      hkept.taken⟩
    -- What the monitor logs is no vote.
    have hvotes : votesAt s.actions run.view = [] := by
      rcases (FutureProposalTask.step_spec hmax (hinv.proposalTask task htask) hs).2 with
        ⟨hnil, -⟩ | ⟨w, -, hchecks, -⟩
      · rw [hnil]
        rfl
      · rw [hchecks, RoundTask.votesAt_blockChecks]
    have hd' : .commit d ∈ votesAt (run.log ++ s.actions) run.view := hd
    rwa [votesAt_append, hvotes, List.append_nil] at hd'
  | @futureRcc task s htask hs =>
    have hkept := h.of_kept (hstore.proposalKept (by simp)) (hstore.preparesKept (by simp) (by simp))
    refine ⟨hkept.awaited, hkept.committing, fun hholds d hd => hkept.committed hholds d ?_,
      hkept.taken⟩
    have hd' : .commit d ∈ votesAt (run.log ++ s.actions) run.view := hd
    rwa [(FutureRccTask.step_spec (hinv.rccTask task htask) hs).2.1, List.append_nil] at hd'
  | addOwnRoundChange hphase =>
    refine of_spawned (fun task htask => (Option.some.inj htask).symm) (fun p hp => by cases hp)
      (fun _ => ?_)
    obtain ⟨-, -, hvotes⟩ := hinv'.select_of_task rfl
    exact hvotes
  | finalProposalMissing hphase | takeFinalProposal hphase | prune hphase
  | timeoutProposalMissing hphase =>
    exact of_left (hnone hphase (by simp)) (fun p hp => by cases hp) id
  | broadcastBlock hphase hnext =>
    refine of_left (hnone hphase (by simp)) (fun p hp => ?_) (fun hp => ?_)
    · rcases hnext with rfl | ⟨why, rfl⟩ <;> cases hp
    · rcases hnext with rfl | ⟨why, rfl⟩ <;> exact hp
  | @timeoutTakeProposal env p hphase hstored =>
    refine ⟨fun task htask => ?_, fun m hm => ?_, fun hholds => absurd hholds id, fun q hq => ?_⟩
    · rw [hnone hphase (by simp)] at htask
      cases htask
    · rw [hnone hphase (by simp)] at hm
      cases hm
    · cases hq
      exact h.takeProposal hdrive hinv hphase hstored
  | timeoutTakePrepares hphase hnext =>
    refine of_left (hnone hphase (by simp)) (fun p hp => ?_) (fun hp => ?_)
    · rcases hnext with ⟨why, rfl⟩ | ⟨-, rfl⟩ <;> cases hp
    · rcases hnext with ⟨why, rfl⟩ | ⟨-, rfl⟩ <;> exact hp
  | broadcastRoundChange | futureProposalReady | futureRccReady => exact enterRound hinv'
  | cancel => exact of_left rfl (fun p hp => by cases hp) id
  | roundFinished hphase => exact h.leave hphase (by simp)
  | timeoutCommit hphase => exact h.leave hphase (by simp)
  | timeoutEarly => exact of_left rfl (fun p hp => by cases hp) id

end Run.Relies

/-! ## The assertions hold -/

/-- A run panics, if it does, at a lagging receiver, at a block too large to hash, or with a text
about its height: no `expect` on what it stored or took, no `assert` and no index fails. -/
structure Run.AssertionsHold (run : Run) : Prop where
  phase : ∀ why, run.phase = .panicked why → why ∈ runMessages
  round : ∀ why, run.roundTask = some (.panicked why) →
    why ∈ recvMessages ∨ why = serializationMessage
  futureProposal : ∀ why, run.futureProposalTask = some (.panicked why) → why ∈ recvMessages
  futureRcc : ∀ why, run.futureRccTask = some (.panicked why) → why ∈ recvMessages
  timeout : ∀ baseRoundTime, (getRoundTimeout baseRoundTime run.round).isSome = true

theorem Run.Spawned.assertionsHold (h : run.Spawned)
    (hphase : ∀ why, run.phase = .panicked why → why ∈ runMessages)
    (hround : run.round ≤ maxRound) : run.AssertionsHold where
  phase := hphase
  round why htask := by cases h.round _ htask
  futureProposal why htask := by cases h.futureProposal _ htask
  futureRcc why htask := by cases h.futureRcc _ htask
  timeout := isSome_getRoundTimeout hround

/-- The timeout takes as many prepares as a query counts. -/
theorem length_takeValidPrepareMessages (msgs : ConsensusMessages) (env : Env) (v : View)
    (f : PrepareMessageSigned → Bool) :
    (msgs.takeValidPrepareMessages env v f).1.length =
      (validSenders msgs.prepareMessages v f).length := by
  rw [length_validSenders]
  show ((List.insertionSort _ _).map Prod.snd).length = _
  rw [List.length_map, List.length_insertionSort]

/-- What is known of every reachable node while its assertions are followed. -/
structure Node.AssertionsKnown (cfg : Config) (n : Node) : Prop where
  store : n.StoreKnown cfg
  loops : n.LoopsInv cfg
  roundChanges : RoundChangesLe n.messages
  clean : n.Clean cfg

theorem Node.assertionsKnown_of_reachable (hsole : SoleProposer cfg) {height : UInt64}
    (h : Reachable (Node.step cfg) (Node.init cfg height) n) : n.AssertionsKnown cfg :=
  ⟨Node.storeKnown_of_reachable h, Node.loopsInv_of_reachable h, Node.roundChangesLe_of_reachable h,
    (Node.provenInv_of_reachable hsole h).clean⟩

theorem Run.Relies.stored (hdrive : run.Drive cfg msgs) (hinv : run.Inv cfg K)
    (hphase : (∃ seals, run.phase = .takeFinalProposal seals) ∨ run.phase = .timeoutTakeProposal) :
    msgs.storedProposal run.view ≠ none := by
  have hphaseInv := hinv.phase
  obtain ⟨hstate, d, hvotes⟩ : run.runState = .commit ∧
      ∃ d, VotedTwice (votesAt run.log run.view) d := by
    rcases hphase with ⟨seals, hphase⟩ | hphase
    · rw [hphase] at hphaseInv
      obtain ⟨-, hstate, d, hvotes, -⟩ := hphaseInv
      exact ⟨hstate, d, hvotes⟩
    · rw [hphase] at hphaseInv
      obtain ⟨-, hstate, d, hvotes⟩ := hphaseInv
      exact ⟨hstate, d, hvotes⟩
  have hholds : run.phase.HoldsProposal := by
    rcases hphase with ⟨seals, hphase⟩ | hphase <;> rw [hphase] <;> trivial
  obtain ⟨p, hp, -⟩ := hdrive.driven_of_commit hholds hstate hvotes
  rw [hp]
  simp

/-- The task of `run_height` does not come to panic at an assertion. -/
theorem Run.Relies.runMessages_of_step (h : run.Relies cfg n.messages)
    (hdrive : run.Drive cfg n.messages) (hinv : run.Inv cfg K) (hrun : n.run = some run)
    (hstep : n.step cfg ev = some n') (hrun' : n'.run = some run')
    (hrunstep : RunStep cfg n.messages run ev n'.messages run')
    (hold : ∀ why, run.phase = .panicked why → why ∈ runMessages) {why : String}
    (hwhy : run'.phase = .panicked why) : why ∈ runMessages := by
  by_cases hmain : ∃ env, ev = .main env
  · obtain ⟨env, rfl⟩ := hmain
    have hmain : n.stepMain cfg run env = some n' := by
      have hbind : n.run.bind (fun run => n.stepMain cfg run env) = some n' := hstep
      rwa [hrun, Option.bind_some] at hbind
    rcases Node.panicked_of_stepMain hmain hrun' hwhy with hmem | ⟨hphase, hnone⟩ | ⟨p, hp, hlt⟩
    · exact hmem
    · exact absurd hnone (stored hdrive hinv hphase)
    · have hcount := holds_iff.mp (h.taken p hp)
      rw [length_takeValidPrepareMessages] at hlt
      exact absurd hlt (not_lt.mpr hcount)
  · generalize n'.messages = msgs' at hrunstep
    cases hrunstep with
    | round | futureProposal | futureRcc => exact hold why hwhy
    | futureProposalReady | futureRccReady => exact Run.panicked_enterRound hwhy
    | cancel | roundFinished | timeoutCommit | timeoutEarly => cases hwhy
    | _ => exact absurd ⟨_, rfl⟩ hmain

theorem RunStep.assertionsHold (h : run.Relies cfg n.messages) (hknown : n.AssertionsKnown cfg)
    (hdrive : run.Drive cfg n.messages) (hrun : n.run = some run)
    (hstep : n.step cfg ev = some n') (hrun' : n'.run = some run') (hinv' : run'.Inv cfg K)
    (hrunstep : RunStep cfg n.messages run ev n'.messages run') (hold : run.AssertionsHold) :
    run'.AssertionsHold := by
  have hinv := hknown.store.inv.run run hrun
  have hphase : ∀ why, run'.phase = .panicked why → why ∈ runMessages := fun why hwhy =>
    h.runMessages_of_step hdrive hinv hrun hstep hrun' hrunstep hold.phase hwhy
  have htimeout := fun base => isSome_getRoundTimeout hinv'.round_le base
  generalize n'.messages = msgs' at hrunstep
  cases hrunstep with
  | @round env task s htask hs =>
    refine ⟨hphase, fun why hwhy => ?_, hold.futureProposal, hold.futureRcc, htimeout⟩
    rcases RoundTask.panicked_of_step hs (Option.some.inj hwhy) with hmem | heq | ⟨rfl, hnone⟩
    · exact Or.inl hmem
    · exact Or.inr heq
    · obtain ⟨p, hp⟩ := h.awaited _ htask
      rw [hp] at hnone
      cases hnone
  | @futureProposal env task s htask hs =>
    exact ⟨hphase, hold.round, fun why hwhy => FutureProposalTask.panicked_of_step
      hknown.store.inv.round_le_of_storedProposal hs (Option.some.inj hwhy), hold.futureRcc, htimeout⟩
  | @futureRcc task s htask hs =>
    exact ⟨hphase, hold.round, hold.futureProposal, fun why hwhy => FutureRccTask.panicked_of_step
      ((hknown.loops.run run hrun).futureRcc task htask) (hinv.rccTask task htask)
      hknown.roundChanges hknown.loops.round_le hs (Option.some.inj hwhy), htimeout⟩
  | addOwnRoundChange =>
    exact ⟨hphase, (fun why hwhy => by cases hwhy), hold.futureProposal, hold.futureRcc, htimeout⟩
  | broadcastRoundChange | futureProposalReady | futureRccReady =>
    exact (Run.spawned_enterRound cfg _ _).assertionsHold hphase hinv'.round_le
  | cancel | roundFinished | timeoutCommit | timeoutEarly =>
    exact Run.Spawned.assertionsHold (Run.spawned_abort run _) hphase hinv'.round_le
  | _ => exact ⟨hphase, hold.round, hold.futureProposal, hold.futureRcc, htimeout⟩

/-- What the assertions of a node rest on, and that they hold. -/
structure Node.AssertionsInv (cfg : Config) (n : Node) : Prop where
  relies : ∀ run, n.run = some run → NoOwnMessages cfg run.initialMessages run.height →
    run.Relies cfg n.messages
  holds : ∀ run ∈ n.runs, NoOwnMessages cfg run.initialMessages run.height → run.AssertionsHold

theorem Run.relies_start {height : UInt64} (hinv : (Run.start cfg msgs height).Inv cfg K) :
    (Run.start cfg msgs height).Relies cfg msgs' := by
  unfold Run.start at hinv ⊢
  simp only at hinv ⊢
  split
  · exact .of_left rfl (fun p hp => by cases hp) id
  next hq =>
    rw [if_neg hq] at hinv
    exact .enterRound hinv

theorem Node.AssertionsInv.step (h : n.AssertionsInv cfg) (hknown : n.AssertionsKnown cfg)
    (hknown' : n'.AssertionsKnown cfg) (hstep : n.step cfg ev = some n') : n'.AssertionsInv cfg := by
  have hcases := nodeStep_of_step hstep
  refine ⟨?_, ?_⟩
  · intro run' hrun' hclean
    have hinv' := hknown'.store.inv.run run' hrun'
    cases hcases with
    | receive => exact h.relies run' hrun' hclean
    | addPending => exact (h.relies run' hrun' hclean).of_kept (.addMessage _ _) (.addMessage _ _)
    | runHeight =>
      cases hrun'
      exact Run.relies_start hinv'
    | @run ev run new msgs height hrun hrunstep =>
      cases hrun'
      obtain ⟨hheight, hinitial⟩ := hrunstep.same
      rw [hheight, hinitial] at hclean
      exact (h.relies run hrun hclean).step (hknown.clean run hrun hclean).2
        (hknown.store.inv.run run hrun) hinv' hrunstep (hknown.store.storeStep hrun hrunstep)
        hknown.store.inv.round_le_of_storedProposal
  · refine hcases.forall_runs
      (P := fun _ run => NoOwnMessages cfg run.initialMessages run.height → run.AssertionsHold)
      (fun _ hP => hP) (fun height _ => ?_) (fun run run' hrun hrun' hrunstep hold hclean => ?_)
      h.holds
    · exact (Run.spawned_start cfg _ _).assertionsHold (fun why hwhy => Run.panicked_start hwhy)
        (Node.inv_start cfg n.knowledge _ _).1.round_le
    · obtain ⟨hheight, hinitial⟩ := hrunstep.same
      rw [hheight, hinitial] at hclean
      exact RunStep.assertionsHold (h.relies run hrun hclean) hknown (hknown.clean run hrun hclean).2
        hrun hstep hrun' (hknown'.store.inv.run run' hrun') hrunstep (hold hclean)

/-- **The assertions of a clean run are unreachable**, whatever its tasks and the handler do. -/
theorem assertions_hold (hunique : cfg.validatorManager.UniqueProposer) {height : UInt64}
    (h : Reachable (Node.step cfg) (Node.init cfg height) n) (hrun : run ∈ n.runs)
    (hclean : NoOwnMessages cfg run.initialMessages run.height) : run.AssertionsHold := by
  have hinv : n.AssertionsInv cfg := h.invariant_of
    (fun _ hn => Node.assertionsKnown_of_reachable hunique.soleProposer hn)
    (fun _ _ _ hknown hknown' hold hstep => hold.step hknown hknown' hstep)
    ⟨fun _ hrun => (nomatch hrun), fun _ hrun => (nomatch hrun)⟩
  exact hinv.holds run hrun hclean

/-- The run of one of four validators in its second round, after a timeout in the commit state. -/
theorem assertions_hold_sealing : sealingRun.AssertionsHold :=
  assertions_hold (fun _ _ _ ha hb => mockManager_proposer_unique _ ha hb) (reachable_get _)
    sealingRun_mem (Node.noOwnMessages_of_once (reachable_get _) (by decide +kernel) sealingRun_mem)

end Tonic
