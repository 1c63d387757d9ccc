/-
# Waiting for proposals

Two tasks wait for proposals: the round task for the one of its view (`run_proposal_0`,
`run_proposal_1`), and `wait_future_proposal` for the one of any later round of the height.
Both subscribe to the notifications of proposals before they query the store, so a proposal
that is stored behind their backs is still in front of their receiver.

The invariant says so: whatever a waiting task could use is announced by a notification it
has not read, or is what it looks at next.  A task that has read everything and still waits
therefore has nothing to find in the store.
-/
import Tonic.Assertions

namespace Tonic

open Transition

variable {cfg : Config} {msgs msgs' : ConsensusMessages} {view v w : View} {env : Env}
  {runState : RunState}

/-! ## Candidates -/

/-- A proposal is stored for the view and is not known to be invalid. -/
def Candidate (msgs : ConsensusMessages) (view : View) : Prop :=
  ∃ p cached, msgs.proposal1Messages.Stores view (p, cached) ∧ ∀ e, cached ≠ some (.error e)

/-- A query for the proposal of a view that does not return its digest leaves no candidate. -/
theorem not_candidate_of_query {f : ProposalMessageSigned → Except IBFTError Unit}
    (hround : v.round ≠ 0) (h : ∀ d, (msgs.getValidProposalDigest v f).1 ≠ some (.ok d)) :
    ¬ Candidate (msgs.getValidProposalDigest v f).2 v := by
  rintro ⟨p, cached, hst, hcached⟩
  unfold ConsensusMessages.getValidProposalDigest at h hst
  rw [if_neg hround] at h hst
  split at hst
  next hnone =>
    have hget := FirstWinsMap.get?_eq_some_iff.mpr hst
    rw [hnone] at hget
    cases hget
  next q result hget =>
    -- The result was cached, and it is not an error.
    obtain ⟨rfl, rfl⟩ := Prod.mk.inj ((FirstWinsMap.get?_eq_some_iff.mp hget).unique hst)
    cases result with
    | error e => exact hcached e rfl
    | ok u =>
      rw [hget] at h
      exact h _ rfl
  next q hget =>
    obtain ⟨e, hold, hnew⟩ := FirstWinsMap.stores_filterMapVal.mp hst
    rw [if_pos rfl] at hnew
    obtain ⟨-, rfl⟩ := Prod.mk.inj (Option.some.inj hnew)
    rw [hget] at h
    simp only at h
    cases hf : f q with
    | error e => exact hcached e (congrArg some hf)
    | ok u =>
      rw [hf] at h
      exact h _ rfl

/-- A query makes no candidate. -/
theorem candidate_of_query {f : ProposalMessageSigned → Except IBFTError Unit}
    (h : Candidate (msgs.getValidProposalDigest v f).2 w) : Candidate msgs w := by
  obtain ⟨p, cached, hst, hcached⟩ := h
  cases cached with
  | some result =>
    rcases ConsensusMessages.verdict_getValidProposalDigest hst with hold | ⟨rfl, hun, -⟩
    · exact ⟨p, some result, hold, hcached⟩
    · obtain ⟨r', hold⟩ := ConsensusMessages.stores_getValidProposalDigest hst
      by_cases hzero : w.round = 0
      · -- A query of round 0 leaves the other map alone.
        refine ⟨p, some result, ?_, hcached⟩
        unfold ConsensusMessages.getValidProposalDigest at hst
        rw [if_pos hzero] at hst
        split at hst <;> exact hst
      · unfold ConsensusMessages.unverifiedProposal at hun
        rw [if_neg hzero] at hun
        split at hun
        next q hget =>
          refine ⟨q, none, FirstWinsMap.get?_eq_some_iff.mp hget, ?_⟩
          intro e he
          cases he
        next => cases hun
  | none =>
    unfold ConsensusMessages.getValidProposalDigest at hst
    split at hst
    · split at hst <;> exact ⟨p, none, hst, hcached⟩
    · split at hst
      · exact ⟨p, none, hst, hcached⟩
      · exact ⟨p, none, hst, hcached⟩
      · obtain ⟨e, hold, hnew⟩ := FirstWinsMap.stores_filterMapVal.mp hst
        split at hnew
        · cases hnew
        · cases hnew
          exact ⟨p, none, hold, hcached⟩

/-! ## What is added is announced -/

/-- A step of the store announces every proposal that it adds. -/
structure ProposalGrowth (msgs msgs' : ConsensusMessages) (added : List View) : Prop where
  sent : msgs'.proposalTx.sent = msgs.proposalTx.sent ++ added
  stored : ∀ v, msgs'.storedProposal v ≠ none → msgs.storedProposal v ≠ none ∨ v ∈ added
  candidate : ∀ v, Candidate msgs' v → Candidate msgs v ∨ v ∈ added

namespace ProposalGrowth

theorem of_subset (hsent : msgs'.proposalTx = msgs.proposalTx)
    (hstored : ∀ v p, msgs'.storedProposal v = some p → msgs.storedProposal v = some p)
    (hcandidate : ∀ v, Candidate msgs' v → Candidate msgs v) : ProposalGrowth msgs msgs' [] where
  sent := by rw [hsent, List.append_nil]
  stored v h := by
    obtain ⟨p, hp⟩ := Option.ne_none_iff_exists'.mp h
    rw [hstored v p hp]
    exact Or.inl (by simp)
  candidate v h := Or.inl (hcandidate v h)

/-- An operation that leaves the proposals alone. -/
theorem of_same (hsent : msgs'.proposalTx = msgs.proposalTx)
    (hstored : ∀ v, msgs'.storedProposal v = msgs.storedProposal v)
    (hproposals : msgs'.proposal1Messages = msgs.proposal1Messages) :
    ProposalGrowth msgs msgs' [] := by
  apply of_subset hsent
  · intro v p hp
    rw [← hstored v, hp]
  · intro v h
    unfold Candidate at h ⊢
    rwa [hproposals] at h

/-- An operation that only drops proposals. -/
theorem of_dropped (hsent : msgs'.proposalTx = msgs.proposalTx)
    (hstored : ∀ v p, msgs'.storedProposal v = some p → msgs.storedProposal v = some p)
    (hproposals : ∀ v e, msgs'.proposal1Messages.Stores v e → msgs.proposal1Messages.Stores v e) :
    ProposalGrowth msgs msgs' [] := by
  apply of_subset hsent hstored
  rintro v ⟨p, cached, hst, hcached⟩
  exact ⟨p, cached, hproposals v _ hst, hcached⟩

theorem addProposalMessage (p : ProposalMessageSigned) (a : Address) :
    ∃ added, ProposalGrowth msgs (msgs.addProposalMessage p a) added := by
  by_cases hvacant : msgs.storedProposal p.view = none
  · refine ⟨[p.view], ?_, ?_, ?_⟩
    · unfold ConsensusMessages.addProposalMessage
      simp only [if_pos hvacant]
      split <;> rfl
    · intro v h
      rw [ConsensusMessages.storedProposal_addProposalMessage] at h
      split at h
      next hnew => exact Or.inr (List.mem_singleton.mpr hnew.2)
      next => exact Or.inl h
    · rintro v ⟨q, cached, hst, hcached⟩
      unfold ConsensusMessages.addProposalMessage at hst
      simp only [if_pos hvacant] at hst
      split at hst
      · exact Or.inl ⟨q, cached, hst, hcached⟩
      · rcases FirstWinsMap.stores_insertVacant.mp hst with hold | ⟨-, hv, -⟩
        · exact Or.inl ⟨q, cached, hold, hcached⟩
        · exact Or.inr (List.mem_singleton.mpr hv)
  · refine ⟨[], ?_⟩
    unfold ConsensusMessages.addProposalMessage
    simp only [if_neg hvacant]
    exact of_same rfl (fun _ => rfl) rfl

theorem addMessage (m : IBFTMessage) (a : Address) :
    ∃ added, ProposalGrowth msgs (msgs.addMessage a m) added := by
  cases m with
  | proposal p => exact addProposalMessage p a
  | prepare m =>
    refine ⟨[], of_same ?_ (ConsensusMessages.storedProposal_addPrepareMessage m a)
      (ConsensusMessages.proposal1Messages_addPrepareMessage m a)⟩
    show (msgs.addPrepareMessage m a).proposalTx = msgs.proposalTx
    unfold ConsensusMessages.addPrepareMessage
    simp only
    split <;> rfl
  | commit m =>
    refine ⟨[], of_same ?_ (ConsensusMessages.storedProposal_addCommitMessage m a)
      (ConsensusMessages.proposal1Messages_addCommitMessage m a)⟩
    show (msgs.addCommitMessage m a).proposalTx = msgs.proposalTx
    unfold ConsensusMessages.addCommitMessage
    simp only
    split <;> rfl
  | roundChange m =>
    refine ⟨[], of_same ?_ (ConsensusMessages.storedProposal_addRoundChangeMessage m a)
      (ConsensusMessages.proposal1Messages_addRoundChangeMessage m a)⟩
    show (msgs.addRoundChangeMessage m a).proposalTx = msgs.proposalTx
    unfold ConsensusMessages.addRoundChangeMessage
    simp only
    split <;> rfl

theorem query (v : View) (f : ProposalMessageSigned → Except IBFTError Unit) :
    ProposalGrowth msgs (msgs.getValidProposalDigest v f).2 [] := by
  refine of_subset ?_ ?_ fun _ => candidate_of_query
  · unfold ConsensusMessages.getValidProposalDigest
    split
    · split <;> rfl
    · split <;> rfl
  · intro w p hp
    rwa [ConsensusMessages.storedProposal_getValidProposalDigest] at hp

end ProposalGrowth

variable {run run' : Run} {ev : Event} {K : Knowledge}

/-- Every operation of a run on the store announces the proposals it adds. -/
theorem StoreStep.proposalGrowth (h : StoreStep cfg run msgs ev msgs') :
    ∃ added, ProposalGrowth msgs msgs' added := by
  cases h with
  | same => exact ⟨[], .of_same rfl (fun _ => rfl) rfl⟩
  | addProposal => exact ProposalGrowth.addProposalMessage _ _
  | queryProposal => exact ⟨[], .query _ _⟩
  | addPrepare => exact ProposalGrowth.addMessage (.prepare _) _
  | addCommit => exact ProposalGrowth.addMessage (.commit _) _
  | addRoundChange => exact ProposalGrowth.addMessage (.roundChange _) _
  | countPrepares | takePrepares | countRoundChanges => exact ⟨[], .of_same rfl (fun _ => rfl) rfl⟩
  | takeProposal =>
    refine ⟨[], .of_dropped ?_ (fun _ _ => ConsensusMessages.storedProposal_takeProposalMessage)
      (fun _ _ => ConsensusMessages.verdict_takeProposalMessage)⟩
    unfold ConsensusMessages.takeProposalMessage
    split <;> rfl
  | takeSeals =>
    refine ⟨[], .of_same ?_ (fun v => ConsensusMessages.storedProposal_takeValidCommitSeals _ _ v _ _)
      (ConsensusMessages.proposal1Messages_takeValidCommitSeals _ _ _ _)⟩
    unfold ConsensusMessages.takeValidCommitSeals
    simp only
    split <;> rfl
  | takeRoundChanges =>
    refine ⟨[], .of_same ?_ (fun v => ConsensusMessages.storedProposal_takeValidRoundChangeMessages _ _ v _ _)
      (ConsensusMessages.proposal1Messages_takeValidRoundChangeMessages _ _ _ _)⟩
    unfold ConsensusMessages.takeValidRoundChangeMessages
    simp only
    split <;> rfl
  | prune =>
    exact ⟨[], .of_dropped rfl (fun _ _ => ConsensusMessages.storedProposal_prune)
      (fun _ _ hst => (FirstWinsMap.stores_retain.mp hst).1)⟩

/-! ## The round task -/

namespace RoundTask

/-- A task that waits for the proposal of its view has a notification to read, if the proposal is
there. -/
def WaitInv (msgs : ConsensusMessages) (view : View) : RoundTask → Prop
  | .getProposal rx => rx ≤ msgs.proposalTx.sent.length
  | .recvProposal rx =>
    rx ≤ msgs.proposalTx.sent.length ∧
      (msgs.storedProposal view ≠ none → view ∈ msgs.proposalTx.sent.drop rx)
  | _ => True

/-- The two await points in front of the proposal of the view. -/
def awaitsProposal : RoundTask → Bool
  | .getProposal _ | .recvProposal _ => true
  | _ => false

theorem WaitInv.of_not_awaits {task : RoundTask} (h : task.awaitsProposal = false) :
    task.WaitInv msgs view := by
  cases task with
  | getProposal | recvProposal => cases h
  | _ => trivial

theorem WaitInv.grow {task : RoundTask} {added : List View} (h : task.WaitInv msgs view)
    (hgrow : ProposalGrowth msgs msgs' added) : task.WaitInv msgs' view := by
  have hlen : ∀ {rx : Receiver}, rx ≤ msgs.proposalTx.sent.length →
      rx ≤ msgs'.proposalTx.sent.length := by
    intro rx hrx
    rw [hgrow.sent, List.length_append]
    exact hrx.trans (Nat.le_add_right _ _)
  cases task with
  | getProposal rx => exact hlen h
  | recvProposal rx =>
    obtain ⟨hrx, hold⟩ := h
    refine ⟨hlen hrx, ?_⟩
    intro hstored
    rw [hgrow.sent, List.drop_append_of_le_length hrx]
    rcases hgrow.stored view hstored with hstored | hmem
    · exact List.mem_append_left _ (hold hstored)
    · exact List.mem_append_right _ hmem
  | _ => trivial

theorem awaitsProposal_propose (rawBlock : RawBlock) (rcc : Option RoundChangeCertificate) :
    (propose cfg view rawBlock rcc).awaitsProposal = false := by
  unfold propose
  split <;> rfl

theorem awaitsProposal_buildAndPropose (rcc : Option RoundChangeCertificate) :
    (buildAndPropose cfg env view rcc).awaitsProposal = false := by
  unfold buildAndPropose
  split
  · rfl
  · exact awaitsProposal_propose _ _

theorem awaitsProposal_proposeFromRoundChanges
    (roundChanges : Option (List RoundChangeMessageSigned)) :
    (proposeFromRoundChanges cfg env view roundChanges).awaitsProposal = false := by
  unfold proposeFromRoundChanges
  split
  · rfl
  · split
    · rfl
    · exact awaitsProposal_propose _ _
    · exact awaitsProposal_buildAndPropose _

/-- Reading the notification of another view keeps the one of the own view in front. -/
theorem mem_drop_succ {ch : Channel} {rx : Receiver} (hrecv : ch.recv rx = .notified w)
    (hne : w ≠ v) (h : v ∈ ch.sent.drop rx) : v ∈ ch.sent.drop (rx + 1) := by
  unfold Channel.recv at hrecv
  split at hrecv
  · cases hrecv
  · split at hrecv
    · cases hrecv
    next hget =>
      cases hrecv
      obtain ⟨hlt, hw⟩ := List.getElem?_eq_some_iff.mp hget
      rw [List.drop_eq_getElem_cons hlt, hw] at h
      rcases List.mem_cons.mp h with heq | hmem
      · exact absurd heq.symm hne
      · exact hmem

/-- **One step of the round task**: it never leaves the proposal of its view behind. -/
theorem WaitInv.step {task : RoundTask} {s : TaskStep RoundTask} {added : List View}
    (h : task.WaitInv msgs view) (hs : task.step cfg env view runState msgs = some s)
    (hgrow : ProposalGrowth msgs s.messages added) : s.task.WaitInv s.messages view := by
  suffices h : s.task.WaitInv msgs view from h.grow hgrow
  cases task with
  | start =>
    cases hs
    show (pollStart cfg env view msgs).WaitInv msgs view
    unfold pollStart
    split
    · split
      · exact .of_not_awaits (awaitsProposal_buildAndPropose _)
      · trivial
    · exact le_rfl
  | getProposal rx =>
    cases hs
    show (prepareDigest cfg view (.recvProposal rx) _).WaitInv msgs view
    unfold prepareDigest
    split
    next hnone =>
      -- The task goes on to wait only where the query found nothing.
      refine ⟨h, ?_⟩
      intro hstored
      exact absurd (storedProposal_of_getValidProposalDigest hnone) hstored
    next => trivial
    next => trivial
  | recvProposal rx =>
    obtain ⟨-, hunread⟩ := h
    rcases step_of_waiting hs rfl with ⟨-, why, -, rfl⟩ | ⟨v, hrecv, rfl⟩
    · trivial
    · show WaitInv msgs view (if v = view then _ else _)
      split
      next => trivial
      next hne =>
        refine ⟨(Channel.pendingAt_notified (v := v) hrecv).1, ?_⟩
        intro hstored
        exact mem_drop_succ hrecv hne (hunread hstored)
  | getProposalAgain =>
    cases hs
    show (prepareDigest cfg view (.panicked _) _).WaitInv msgs view
    unfold prepareDigest
    split <;> trivial
  | takeRoundChanges rx =>
    cases hs
    show WaitInv msgs view (if _ then _ else proposeFromRoundChanges cfg env view _)
    split
    · trivial
    · exact .of_not_awaits (awaitsProposal_proposeFromRoundChanges _)
  | countPrepares digest rx =>
    cases hs
    show (prepareCounted cfg view digest rx _).WaitInv msgs view
    unfold prepareCounted
    split <;> trivial
  | takeSeals digest rx =>
    cases hs
    show (sealsTaken cfg view digest rx _).WaitInv msgs view
    unfold sealsTaken
    split
    split
    · trivial
    · split <;> trivial
  | recvRoundChange | recvPrepare | recvCommit =>
    rcases step_of_waiting hs rfl with ⟨-, why, -, rfl⟩ | ⟨v, -, rfl⟩
    · trivial
    · show WaitInv msgs view (if v = view then _ else _)
      split
      · split <;> trivial
      · trivial
  | broadcastProposal | broadcastPrepare | broadcastCommit =>
    cases hs
    trivial
  | addProposal | addPrepare | addCommit =>
    cases hs
    trivial
  | finished | failed | panicked => cases hs

end RoundTask

/-! ## The monitor of later rounds -/

namespace FutureProposalTask

/-- Every candidate of a later round is announced by an unread notification, or will be looked
at. -/
structure Awaits (msgs : ConsensusMessages) (view : View) (rx : Receiver)
    (next : UInt8 → Prop) : Prop where
  rx_le : rx ≤ msgs.proposalTx.sent.length
  unread : ∀ round, view.round < round → Candidate msgs { height := view.height, round } →
    ({ height := view.height, round } : View) ∈ msgs.proposalTx.sent.drop rx ∨ next round

namespace Awaits

variable {rx : Receiver} {next next' : UInt8 → Prop}

theorem grow {added : List View} (h : Awaits msgs view rx next)
    (hgrow : ProposalGrowth msgs msgs' added) : Awaits msgs' view rx next where
  rx_le := by
    rw [hgrow.sent, List.length_append]
    exact h.rx_le.trans (Nat.le_add_right _ _)
  unread round hround hcandidate := by
    rw [hgrow.sent, List.drop_append_of_le_length h.rx_le]
    rcases hgrow.candidate _ hcandidate with hold | hmem
    · exact (h.unread round hround hold).imp_left (List.mem_append_left _)
    · exact Or.inl (List.mem_append_right _ hmem)

theorem imp (h : Awaits msgs view rx next)
    (hnext : ∀ round, view.round < round → Candidate msgs { height := view.height, round } →
      next round → next' round) : Awaits msgs view rx next' where
  rx_le := h.rx_le
  unread round hround hcandidate :=
    (h.unread round hround hcandidate).imp_right (hnext round hround hcandidate)

/-- A notification that is read is looked at next, or is of no later round. -/
theorem read (h : Awaits msgs view rx (fun _ => False))
    (hrecv : msgs.proposalTx.recv rx = .notified w) :
    Awaits msgs view (rx + 1) (fun round => ({ height := view.height, round } : View) = w) where
  rx_le := (Channel.pendingAt_notified (v := w) hrecv).1
  unread round hround hcandidate := by
    rcases h.unread round hround hcandidate with hmem | hfalse
    · by_cases heq : w = { height := view.height, round }
      · exact Or.inr heq.symm
      · exact Or.inl (RoundTask.mem_drop_succ hrecv heq hmem)
    · exact absurd hfalse id

end Awaits

/-- What the monitor has not looked at yet at its await points. -/
def WaitInv (msgs : ConsensusMessages) (view : View) : FutureProposalTask → Prop
  | .hasByRound rx => rx ≤ msgs.proposalTx.sent.length
  | .scan rx present idx => Awaits msgs view rx fun round =>
      round.toNat ≤ idx ∧ present[round.toNat]?.getD false = true
  | .recv rx => Awaits msgs view rx fun _ => False
  | .verify rx newView => Awaits msgs view rx fun round =>
      ({ height := view.height, round } : View) = newView
  | _ => True

theorem WaitInv.grow {task : FutureProposalTask} {added : List View} (h : task.WaitInv msgs view)
    (hgrow : ProposalGrowth msgs msgs' added) : task.WaitInv msgs' view := by
  cases task with
  | hasByRound rx =>
    have hrx : rx ≤ msgs.proposalTx.sent.length := h
    show rx ≤ msgs'.proposalTx.sent.length
    rw [hgrow.sent, List.length_append]
    exact hrx.trans (Nat.le_add_right _ _)
  | scan | recv | verify => exact Awaits.grow h hgrow
  | start | sent | panicked => trivial

/-- The scan goes on to the next round that has a proposal. -/
theorem waitInv_scanBelow {rx : Receiver} {present : List Bool} {k : ℕ}
    (h : Awaits msgs view rx fun round =>
      round.toNat < k ∧ present[round.toNat]?.getD false = true) :
    (scanBelow view rx present k).WaitInv msgs view := by
  unfold scanBelow
  split
  next idx hscan =>
    refine h.imp ?_
    rintro round hround - ⟨hlt, hpresent⟩
    refine ⟨not_lt.mp ?_, hpresent⟩
    intro hskipped
    -- No round between the last one and the next one has a proposal.
    have htest := nextScan_skips hscan (UInt8.lt_iff_toNat_lt.mp hround) hlt
      (fun i hi => by rw [← Option.some.inj hi]; exact hskipped)
    rw [hpresent] at htest
    cases htest
  next hscan =>
    refine h.imp ?_
    rintro round hround - ⟨hlt, hpresent⟩
    have htest := nextScan_skips hscan (UInt8.lt_iff_toNat_lt.mp hround) hlt
      (fun i hi => by cases hi)
    rw [hpresent] at htest
    cases htest

/-- The initial query finds every candidate. -/
theorem present_of_candidate {present : List Bool} {round : UInt8}
    (h : msgs.hasProposalByRound view.height = some present)
    (hcandidate : Candidate msgs { height := view.height, round }) :
    round.toNat < roundArraySize ∧ present[round.toNat]?.getD false = true := by
  obtain ⟨p, cached, hst, hcached⟩ := hcandidate
  unfold ConsensusMessages.hasProposalByRound at h
  simp only at h
  split at h
  next hall =>
    have hlt : round.toNat < roundArraySize := by
      refine of_decide_eq_true (List.all_eq_true.mp hall round ?_)
      exact FirstWinsMap.mem_select.mpr ⟨_, _, hst, by simp⟩
    refine ⟨hlt, ?_⟩
    cases h
    rw [List.getElem?_map, List.getElem?_range hlt, Option.map_some, Option.getD_some,
      UInt8.ofNat_toNat]
    refine List.contains_iff_mem.mpr ?_
    exact FirstWinsMap.mem_select.mpr ⟨_, _, hst, by simp⟩
  next => cases h

/-- Verifying the proposal of a view ends the monitor, or leaves no candidate there. -/
theorem waitInv_verifyFuture {newView : View} {next : FutureProposalTask} {rx : Receiver}
    (rest : UInt8 → Prop) (hround : view.round < newView.round)
    (h : Awaits msgs view rx fun round =>
      ({ height := view.height, round } : View) = newView ∨ rest round)
    (hnext : ∀ msgs', Awaits msgs' view rx rest → next.WaitInv msgs' view) :
    (verifyFuture cfg env runState msgs newView next).task.WaitInv
      (verifyFuture cfg env runState msgs newView next).messages view := by
  have hne : newView.round ≠ 0 := by
    intro hzero
    rw [hzero] at hround
    exact absurd hround (UInt8.not_lt.mpr UInt8.zero_le)
  unfold verifyFuture
  simp only
  split
  next => trivial
  next hnot =>
    apply hnext
    refine (h.grow (.query newView _)).imp ?_
    rintro round - hcandidate (heq | hrest)
    · rw [heq] at hcandidate
      exact absurd hcandidate (not_candidate_of_query hne hnot)
    · exact hrest

/-- **One step of the monitor**: it leaves no candidate of a later round behind. -/
theorem WaitInv.step {task : FutureProposalTask} {s : TaskStep FutureProposalTask}
    (h : task.WaitInv msgs view) (hinv : task.Inv view)
    (hs : task.step cfg env view runState msgs = some s) : s.task.WaitInv s.messages view := by
  cases task with
  | start =>
    cases hs
    exact le_rfl
  | hasByRound rx =>
    have hrx : rx ≤ msgs.proposalTx.sent.length := h
    simp only [FutureProposalTask.step] at hs
    split at hs
    · cases hs
      trivial
    next present hpresent =>
      cases hs
      apply waitInv_scanBelow
      exact ⟨hrx, fun round _ hcandidate => Or.inr (present_of_candidate hpresent hcandidate)⟩
  | scan rx present idx =>
    obtain ⟨hlt, hidx⟩ := hinv
    cases hs
    -- The candidate at the index is verified now, the ones below it are still to be scanned.
    apply waitInv_verifyFuture (fun round =>
      round.toNat < idx ∧ present[round.toNat]?.getD false = true) (round_of_index hlt hidx).1
    · refine Awaits.imp h ?_
      rintro round - - ⟨hle, hpresent⟩
      rcases Nat.lt_or_eq_of_le hle with hbelow | heq
      · exact Or.inr ⟨hbelow, hpresent⟩
      · left
        rw [← heq, UInt8.ofNat_toNat]
    · intro msgs' hrest
      exact waitInv_scanBelow hrest
  | recv rx =>
    simp only [FutureProposalTask.step] at hs
    split at hs
    · cases hs
    · cases hs
      trivial
    next newView hrecv =>
      cases hs
      -- A candidate is still unread, or it is the one of this notification.
      have hread := Awaits.read h hrecv
      show WaitInv msgs view (if _ then _ else _)
      split
      next => exact hread
      next hother =>
        refine hread.imp ?_
        rintro round hround - rfl
        exact hother ⟨rfl, hround⟩
  | verify rx newView =>
    obtain ⟨-, hround⟩ := hinv
    cases hs
    apply waitInv_verifyFuture (fun _ => False) hround
    · exact Awaits.imp h fun _ _ _ => Or.inl
    · intro msgs' hrest
      exact hrest
  | sent | panicked => cases hs

end FutureProposalTask

/-! ## Runs -/

/-- What the tasks of a run know that wait for proposals. -/
structure Run.WaitsInv (msgs : ConsensusMessages) (run : Run) : Prop where
  round : ∀ task, run.roundTask = some task → task.WaitInv msgs run.view
  futureProposal : ∀ task, run.futureProposalTask = some task → task.WaitInv msgs run.view

theorem Run.Spawned.waitsInv (h : run.Spawned) : run.WaitsInv msgs where
  round task htask := by rw [h.round task htask]; trivial
  futureProposal task htask := by rw [h.futureProposal task htask]; trivial

theorem Run.WaitsInv.grow {added : List View} (h : run.WaitsInv msgs)
    (hgrow : ProposalGrowth msgs msgs' added) : run.WaitsInv msgs' where
  round task htask := (h.round task htask).grow hgrow
  futureProposal task htask := (h.futureProposal task htask).grow hgrow

theorem RunStep.waitsInv (h : RunStep cfg msgs run ev msgs' run') (hinv : run.Inv cfg K)
    (hstore : StoreStep cfg run msgs ev msgs') (hold : run.WaitsInv msgs) :
    run'.WaitsInv msgs' := by
  obtain ⟨added, hgrow⟩ := hstore.proposalGrowth
  have hnew := hold.grow hgrow
  cases h with
  | @round env task s htask hs =>
    refine ⟨fun task' h => ?_, hnew.futureProposal⟩
    cases h
    exact (hold.round task htask).step hs hgrow
  | @futureProposal env task s htask hs =>
    refine ⟨hnew.round, fun task' h => ?_⟩
    cases h
    exact (hold.futureProposal task htask).step (hinv.proposalTask task htask) hs
  | addOwnRoundChange =>
    refine ⟨fun task' h => ?_, hnew.futureProposal⟩
    cases h
    trivial
  | broadcastRoundChange | futureProposalReady | futureRccReady =>
    exact (Run.spawned_enterRound cfg _ _).waitsInv
  | cancel | roundFinished | timeoutCommit | timeoutEarly =>
    exact Run.Spawned.waitsInv (Run.spawned_abort run _)
  | _ => exact ⟨hnew.round, hnew.futureProposal⟩

variable {n n' : Node}

/-- What the tasks of a node's run know. -/
def Node.WaitsInv (n : Node) : Prop := ∀ run, n.run = some run → run.WaitsInv n.messages

theorem Node.WaitsInv.step (h : n.WaitsInv) (hknown : n.StoreKnown cfg)
    (hstep : NodeStep cfg n ev n') : n'.WaitsInv := by
  intro run' hrun'
  cases hstep with
  | receive => exact h run' hrun'
  | addPending =>
    obtain ⟨added, hgrow⟩ := ProposalGrowth.addMessage _ _
    exact (h run' hrun').grow hgrow
  | runHeight =>
    cases hrun'
    exact (Run.spawned_start cfg _ _).waitsInv
  | run hrun hrunstep =>
    cases hrun'
    exact hrunstep.waitsInv (hknown.inv.run _ hrun) (hknown.storeStep hrun hrunstep) (h _ hrun)

theorem Node.waitsInv_of_reachable {height : UInt64}
    (h : Reachable (Node.step cfg) (Node.init cfg height) n) : n.WaitsInv :=
  h.invariant_of (fun _ hn => Node.storeKnown_of_reachable hn)
    (fun _ _ _ hknown _ hold hstep => hold.step hknown (nodeStep_of_step hstep))
    (fun _ hrun => (nomatch hrun))

/-- **No lost proposal.**  What is known where a task has read every notification and waits. -/
structure Run.ProposalsAwaited (msgs : ConsensusMessages) (run : Run) : Prop where
  /-- The round task waits only while no proposal of its view is stored. -/
  round : ∀ rx, run.roundTask = some (.recvProposal rx) → msgs.proposalTx.recv rx = .pending →
    msgs.storedProposal run.view = none
  /-- The monitor waits only while every stored proposal of a later round is known to be
  invalid. -/
  later : ∀ rx, run.futureProposalTask = some (.recv rx) → msgs.proposalTx.recv rx = .pending →
    ∀ v : View, v.height = run.height → run.round < v.round → ¬ Candidate msgs v

theorem Channel.drop_eq_nil {ch : Channel} {rx : Receiver} (h : ch.recv rx = .pending) :
    ch.sent.drop rx = [] := by
  unfold Channel.recv at h
  split at h
  · cases h
  · split at h
    next hnone => exact List.drop_eq_nil_of_le (List.getElem?_eq_none_iff.mp hnone)
    next => cases h

theorem Run.WaitsInv.proposalsAwaited (h : run.WaitsInv msgs) : run.ProposalsAwaited msgs where
  round rx htask hrecv := by
    obtain ⟨-, hunread⟩ := h.round _ htask
    rw [Channel.drop_eq_nil hrecv] at hunread
    by_contra hstored
    cases hunread hstored
  later rx htask hrecv := by
    rintro ⟨height, round⟩ rfl hround hcandidate
    rcases (h.futureProposal _ htask).unread round hround hcandidate with hmem | hfalse
    · rw [Channel.drop_eq_nil hrecv] at hmem
      cases hmem
    · exact hfalse

/-- **The tasks that wait for proposals miss none**, in every reachable state. -/
theorem proposals_awaited {height : UInt64}
    (h : Reachable (Node.step cfg) (Node.init cfg height) n) (hrun : n.run = some run) :
    run.ProposalsAwaited n.messages :=
  (Node.waitsInv_of_reachable h run hrun).proposalsAwaited

/-- Both tasks of the waiting validator wait for a proposal. -/
theorem proposals_awaited_waiting :
    waitingRun.roundTask = some (.recvProposal 0) ∧
      waitingRun.futureProposalTask = some (.recv 0) ∧
      waitingNode.messages.proposalTx.recv 0 = .pending ∧
      waitingRun.ProposalsAwaited waitingNode.messages :=
  ⟨by decide +kernel, by decide +kernel, by decide +kernel,
    proposals_awaited (reachable_get _) waitingNode_run⟩

end Tonic
