/-
# The message store is sound

What every entry of the store is, at any time in the life of a node: a message under its
own view and its own signer, from a validator of its height within the round limit, and
of a kind that its sender may send; and a cached verdict is the one that verifying the
message again would give.  Runs may be cancelled and heights run again; the verdicts are
compared for a block service that always answers the same.

An entry of the node itself is flagged as verified without verification.  It passes all
the same, since the node puts only blocks it has checked into its round changes.  That
fails where a view of the node has a second proposer.
-/
import Tonic.StoreStep
import Tonic.UsableRoundChange

namespace Tonic

open Transition

variable (cfg : Config) (verifyBlock : RawBlock → Except String Unit)

/-- `verify_block` answers as the given function does. -/
def Event.VerifiesBy (ev : Event) : Prop := ∀ env, ev.env? = some env → env.verifyBlock = verifyBlock

/-- The proposal is signed by a proposer of its view, within the round limit. -/
structure ProposalEntry (view : View) (p : ProposalMessageSigned) : Prop where
  view_eq : p.view = view
  round_le : view.round ≤ maxRound
  signed : ∃ proposer, p.recoverSigner cfg.crypto = .ok proposer ∧
    cfg.validatorManager.isProposer proposer view = true

/-- The message is signed by the sender it is stored under, a validator of the height, within the
round limit. -/
structure SenderEntry (view : View) (sender : Address) (m : IBFTMessage) : Prop where
  view_eq : m.view = view
  round_le : view.round ≤ maxRound
  signed : m.recoverSigner cfg.crypto = .ok sender
  isValidator : cfg.validatorManager.isValidator sender view.height = true

/-- What every entry of a sound store is. -/
structure ConsensusMessages.Sound (msgs : ConsensusMessages) : Prop where
  proposal0 : ∀ height p, msgs.proposal0Messages.Stores height p →
    ProposalEntry cfg { height, round := 0 } p
  proposal1 : ∀ view p verdict, msgs.proposal1Messages.Stores view (p, verdict) →
    view.round ≠ 0 ∧ ProposalEntry cfg view p
  prepare : ∀ view sender m, msgs.prepareMessages.Stores (view, sender) m →
    SenderEntry cfg view sender (.prepare m) ∧
      cfg.validatorManager.isProposer sender view = false
  commit : ∀ view sender m, msgs.commitMessages.Stores (view, sender) m →
    SenderEntry cfg view sender (.commit m) ∧
      m.recoverCommitSealSigner cfg.crypto = .ok sender
  roundChange : ∀ view sender m flag,
    msgs.roundChangeMessages.Stores (view, sender) (m, flag) →
    SenderEntry cfg view sender (.roundChange m) ∧ view.round ≠ 0
  flag : ∀ view sender m, msgs.roundChangeMessages.Stores (view, sender) (m, true) →
    roundChangeVerifyFn cfg view.height m = true
  verdict : ∀ view p result, msgs.proposal1Messages.Stores view (p, some result) →
    p.recoverSigner cfg.crypto ≠ .ok cfg.address → ∀ env, env.verifyBlock = verifyBlock →
    proposal1VerifyFn cfg env (cfg.validatorManager.quorum view.height) p = result

/-! ## Marks -/

/-- A round change that is marked as verified is the node's own, or its verify function accepts
it. -/
structure MarkedInv (msgs : ConsensusMessages) : Prop where
  selfAddress : msgs.selfAddress = cfg.address
  marked : ∀ v a m, msgs.roundChangeMessages.Stores (v, a) (m, true) →
    a = cfg.address ∨ roundChangeVerifyFn cfg v.height m = true

/-- What holds of the keys and the caches, whoever the messages are from. -/
structure CacheInv (msgs : ConsensusMessages) : Prop where
  selfAddress : msgs.selfAddress = cfg.address
  round_ne : ∀ view e, msgs.proposal1Messages.Stores view e → view.round ≠ 0
  flag : ∀ view sender m, msgs.roundChangeMessages.Stores (view, sender) (m, true) →
    sender = cfg.address ∨ roundChangeVerifyFn cfg view.height m = true
  verdict : ∀ view p result, msgs.proposal1Messages.Stores view (p, some result) →
    p.recoverSigner cfg.crypto ≠ .ok cfg.address → ∀ env, env.verifyBlock = verifyBlock →
    proposal1VerifyFn cfg env (cfg.validatorManager.quorum view.height) p = result

variable {cfg verifyBlock} {n n' : Node} {msgs msgs' : ConsensusMessages} {run run' : Run}
  {ev : Event} {K K' : Knowledge}

namespace MarkedInv

theorem of_subset (h : MarkedInv cfg msgs) (hself : msgs'.selfAddress = msgs.selfAddress)
    (hsub : ∀ k e, msgs'.roundChangeMessages.Stores k e → msgs.roundChangeMessages.Stores k e) :
    MarkedInv cfg msgs' :=
  ⟨hself.trans h.selfAddress, fun v a m hm => h.marked v a m (hsub _ _ hm)⟩

/-- Counting or taking round changes marks those that their verify function accepts. -/
theorem of_verified (h : MarkedInv cfg msgs) {v : View} (hself : msgs'.selfAddress = msgs.selfAddress)
    (hmarked : ∀ k p flag, msgs'.roundChangeMessages.Stores k (p, flag) →
      msgs.roundChangeMessages.Stores k (p, flag) ∨
        (k.1 = v ∧ roundChangeVerifyFn cfg v.height p = true ∧ flag = true ∧
          msgs.roundChangeMessages.Stores k (p, false))) : MarkedInv cfg msgs' := by
  refine ⟨hself.trans h.selfAddress, fun w a m hm => ?_⟩
  rcases hmarked _ m true hm with hold | ⟨rfl, hok, -, -⟩
  · exact h.marked w a m hold
  · exact Or.inr hok

theorem addMessage (h : MarkedInv cfg msgs) (m : IBFTMessage) (a : Address) :
    MarkedInv cfg (msgs.addMessage a m) := by
  cases m with
  | proposal m =>
    show MarkedInv cfg (msgs.addProposalMessage m a)
    unfold ConsensusMessages.addProposalMessage
    simp only
    repeat' split
    all_goals exact h.of_subset rfl fun _ _ he => he
  | prepare m =>
    show MarkedInv cfg (msgs.addPrepareMessage m a)
    unfold ConsensusMessages.addPrepareMessage
    simp only
    split <;> exact h.of_subset rfl fun _ _ he => he
  | commit m =>
    show MarkedInv cfg (msgs.addCommitMessage m a)
    unfold ConsensusMessages.addCommitMessage
    simp only
    split <;> exact h.of_subset rfl fun _ _ he => he
  | roundChange m =>
    refine ⟨?_, fun v b q hq => ?_⟩
    · show (msgs.addRoundChangeMessage m a).selfAddress = cfg.address
      unfold ConsensusMessages.addRoundChangeMessage
      simp only
      split <;> exact h.selfAddress
    · rcases ConsensusMessages.stores_addRoundChangeMessage.mp hq with hold | ⟨-, hk, rfl, hflag⟩
      · exact h.marked v b q hold
      · obtain ⟨rfl, rfl⟩ := Prod.mk.inj hk
        exact Or.inl ((of_decide_eq_true hflag.symm).trans h.selfAddress)

theorem storeStep (h : MarkedInv cfg msgs) (hstep : StoreStep cfg run msgs ev msgs') :
    MarkedInv cfg msgs' := by
  cases hstep with
  | same => exact h
  | addProposal => exact h.addMessage (.proposal _) _
  | addPrepare => exact h.addMessage (.prepare _) _
  | addCommit => exact h.addMessage (.commit _) _
  | addRoundChange => exact h.addMessage (.roundChange _) _
  | queryProposal =>
    unfold ConsensusMessages.getValidProposalDigest
    repeat' split
    all_goals exact h.of_subset rfl fun _ _ he => he
  | takeProposal =>
    unfold ConsensusMessages.takeProposalMessage
    split <;> exact h.of_subset rfl fun _ _ he => he
  | countPrepares | takePrepares => exact h.of_subset rfl fun _ _ he => he
  | takeSeals =>
    unfold ConsensusMessages.takeValidCommitSeals
    simp only
    split <;> exact h.of_subset rfl fun _ _ he => he
  | takeRoundChanges =>
    exact h.of_verified (v := run.view)
      (ConsensusMessages.subStore_takeValidRoundChangeMessages _ _ _ _).selfAddress
      fun k p flag hp => ConsensusMessages.stores_takeValidRoundChangeMessages hp
  | countRoundChanges hheight =>
    rw [← hheight]
    exact h.of_verified rfl fun k p flag hp =>
      ConsensusMessages.stores_getValidRoundChangeCount hp
  | prune => exact h.of_subset rfl fun _ _ he => (FirstWinsMap.stores_retain.mp he).1

end MarkedInv

theorem Node.markedInv_of_reachable {height₀ : UInt64}
    (h : Reachable (Node.step cfg) (Node.init cfg height₀) n) : MarkedInv cfg n.messages := by
  refine h.invariant_of (I := fun n => MarkedInv cfg n.messages)
    (fun _ hn => Node.storeKnown_of_reachable hn) (fun n ev n' hn _ hmarked hstep => ?_)
    ⟨rfl, fun _ _ _ hm => absurd hm (FirstWinsMap.not_stores_empty _ _)⟩
  cases nodeStep_of_step hstep with
  | receive | runHeight => exact hmarked
  | addPending => exact hmarked.addMessage _ _
  | run hrun hrunstep => exact hmarked.storeStep (hn.storeStep hrun hrunstep)

/-! ## What is cached -/

/-- The verify function of proposals depends on the environment through `verify_block` only. -/
theorem proposal1VerifyFn_congr {env env' : Env} (h : env.verifyBlock = env'.verifyBlock)
    (quorum : ℕ) (p : ProposalMessageSigned) :
    proposal1VerifyFn cfg env quorum p = proposal1VerifyFn cfg env' quorum p := by
  unfold proposal1VerifyFn
  rw [h]

namespace CacheInv

theorem new : CacheInv cfg verifyBlock (ConsensusMessages.new cfg.address) where
  selfAddress := rfl
  round_ne _ _ h := absurd h (FirstWinsMap.not_stores_empty _ _)
  flag _ _ _ h := absurd h (FirstWinsMap.not_stores_empty _ _)
  verdict _ _ _ h := absurd h (FirstWinsMap.not_stores_empty _ _)

theorem markedInv (h : CacheInv cfg verifyBlock msgs) : MarkedInv cfg msgs :=
  ⟨h.selfAddress, h.flag⟩

/-- Whatever adds no proposal and caches no verdict keeps the verdicts right. -/
theorem of_markedInv (h : CacheInv cfg verifyBlock msgs) (hmarked : MarkedInv cfg msgs')
    (hproposal : ∀ v e, msgs'.proposal1Messages.Stores v e → msgs.proposal1Messages.Stores v e) :
    CacheInv cfg verifyBlock msgs' where
  selfAddress := hmarked.selfAddress
  round_ne v e he := h.round_ne v e (hproposal v e he)
  flag := hmarked.marked
  verdict v p r hp := h.verdict v p r (hproposal v _ hp)

theorem of_proposals_eq (h : CacheInv cfg verifyBlock msgs) (hmarked : MarkedInv cfg msgs')
    (heq : msgs'.proposal1Messages = msgs.proposal1Messages) : CacheInv cfg verifyBlock msgs' :=
  h.of_markedInv hmarked fun _ _ he => heq ▸ he

theorem addProposalMessage (h : CacheInv cfg verifyBlock msgs) {p : ProposalMessageSigned}
    {a : Address} (hsigned : p.recoverSigner cfg.crypto = .ok a) :
    CacheInv cfg verifyBlock (msgs.addProposalMessage p a) := by
  have hverdict : ∀ v q r, (msgs.addProposalMessage p a).proposal1Messages.Stores v (q, some r) →
      q.recoverSigner cfg.crypto ≠ .ok cfg.address → ∀ env, env.verifyBlock = verifyBlock →
      proposal1VerifyFn cfg env (cfg.validatorManager.quorum v.height) q = r := by
    intro v q r hq hne
    rcases ConsensusMessages.verdict_addProposalMessage hq with hold | ⟨hself, rfl⟩
    · exact h.verdict v q r hold hne
    · -- A result is only ever inserted for a proposal of the node itself.
      rw [hsigned, ← h.selfAddress] at hne
      exact absurd (congrArg Except.ok hself.symm) hne
  unfold ConsensusMessages.addProposalMessage at hverdict ⊢
  simp only at hverdict ⊢
  split
  next hvac =>
    split
    next => exact h.of_markedInv (h.markedInv.of_subset rfl fun _ _ he => he) fun _ _ he => he
    next hr =>
      rw [if_pos hvac, if_neg hr] at hverdict
      refine ⟨h.selfAddress, fun v e he => ?_, h.flag, hverdict⟩
      rcases FirstWinsMap.stores_insertVacant.mp he with hold | ⟨-, rfl, -⟩
      · exact h.round_ne v e hold
      · exact hr
  next => exact h

theorem addMessage (h : CacheInv cfg verifyBlock msgs) {m : IBFTMessage} {a : Address}
    (hsigned : m.recoverSigner cfg.crypto = .ok a) :
    CacheInv cfg verifyBlock (msgs.addMessage a m) := by
  have hmarked : MarkedInv cfg (msgs.addMessage a m) := h.markedInv.addMessage m a
  cases m with
  | proposal p => exact h.addProposalMessage hsigned
  | prepare m =>
    exact h.of_proposals_eq hmarked (ConsensusMessages.proposal1Messages_addPrepareMessage m a)
  | commit m =>
    exact h.of_proposals_eq hmarked (ConsensusMessages.proposal1Messages_addCommitMessage m a)
  | roundChange m =>
    exact h.of_proposals_eq hmarked (ConsensusMessages.proposal1Messages_addRoundChangeMessage m a)

/-- The query of a proposal caches what its verify function says. -/
theorem getValidProposalDigest (h : CacheInv cfg verifyBlock msgs) {env : Env}
    (henv : env.verifyBlock = verifyBlock) (v : View) :
    CacheInv cfg verifyBlock
      (msgs.getValidProposalDigest v (proposalVerifyFn cfg env v)).2 := by
  have hsub : SubStore msgs (msgs.getValidProposalDigest v (proposalVerifyFn cfg env v)).2 :=
    ConsensusMessages.subStore_getValidProposalDigest v _
  have hsame : (msgs.getValidProposalDigest v (proposalVerifyFn cfg env v)).2.roundChangeMessages =
      msgs.roundChangeMessages := by
    unfold ConsensusMessages.getValidProposalDigest
    repeat' split
    all_goals rfl
  have hround : ∀ w e,
      (msgs.getValidProposalDigest v (proposalVerifyFn cfg env v)).2.proposal1Messages.Stores w e →
      w.round ≠ 0 := by
    intro w e he
    obtain ⟨r, hr⟩ := ConsensusMessages.stores_getValidProposalDigest he
    exact h.round_ne w _ hr
  refine ⟨hsub.selfAddress.trans h.selfAddress, hround, ?_, fun w p r hp hne env' henv' => ?_⟩
  · rw [hsame]
    exact h.flag
  · rcases ConsensusMessages.verdict_getValidProposalDigest hp with hold | ⟨rfl, -, hok⟩
    · exact h.verdict w p r hold hne env' henv'
    · rw [proposalVerifyFn, if_neg (hround w _ hp)] at hok
      rw [← hok]
      exact proposal1VerifyFn_congr (henv'.trans henv.symm) _ p

/-- **The caches stay right** under every step of a run. -/
theorem storeStep (h : CacheInv cfg verifyBlock msgs) (henv : ev.VerifiesBy verifyBlock)
    (hactions : ∀ a ∈ K.history, ActionOk cfg K a) (hinv : run.Inv cfg K)
    (hstep : StoreStep cfg run msgs ev msgs') : CacheInv cfg verifyBlock msgs' := by
  have hmarked : MarkedInv cfg msgs' := h.markedInv.storeStep hstep
  cases hstep with
  | addProposal htask =>
    obtain ⟨-, -, -, -, hsent⟩ := hinv.select_of_task htask
    have hown : OwnProposal cfg _ := hactions _ hsent
    exact h.addProposalMessage hown.recoverSigner
  | queryProposal henv' => exact h.getValidProposalDigest (henv _ henv') _
  | takeProposal =>
    exact h.of_markedInv hmarked fun v e he => ConsensusMessages.verdict_takeProposalMessage he
  | addPrepare =>
    exact h.of_proposals_eq hmarked (ConsensusMessages.proposal1Messages_addPrepareMessage _ _)
  | addCommit =>
    exact h.of_proposals_eq hmarked (ConsensusMessages.proposal1Messages_addCommitMessage _ _)
  | addRoundChange =>
    exact h.of_proposals_eq hmarked (ConsensusMessages.proposal1Messages_addRoundChangeMessage _ _)
  | takeSeals =>
    exact h.of_proposals_eq hmarked (ConsensusMessages.proposal1Messages_takeValidCommitSeals ..)
  | takeRoundChanges =>
    exact h.of_proposals_eq hmarked
      (ConsensusMessages.proposal1Messages_takeValidRoundChangeMessages ..)
  | same | countPrepares | takePrepares | countRoundChanges => exact h.of_proposals_eq hmarked rfl
  | prune => exact h.of_markedInv hmarked fun _ _ he => (FirstWinsMap.stores_retain.mp he).1

end CacheInv

/-! ## The round changes of the node -/

/-- A round change that a node has broadcast for a height of which it is a validator passes the
verify function. -/
theorem Node.CheckedInv.roundChangeVerifyFn_of_validator (h : n.CheckedInv cfg)
    {rc : RoundChangeMessageSigned} (hrc : .broadcast (.roundChange rc) ∈ n.history)
    (hself : cfg.validatorManager.isValidator cfg.address rc.view.height = true) :
    Tonic.roundChangeVerifyFn cfg rc.view.height rc = true := by
  obtain ⟨run, hrun, hlog⟩ := List.mem_flatMap.mp hrc
  have hown : OwnRoundChange cfg n.knowledge rc := h.inv.actions _ hrc
  unfold Tonic.roundChangeVerifyFn
  split
  · rfl
  next pp hpp =>
    obtain ⟨p, entries, hfrom⟩ := hown.prepared pp hpp
    simp only
    rw [if_neg (not_not.mpr (h.boundBlock hrun hlog pp hpp))]
    exact verifyPreparedCertificate_iff.mpr (hfrom.validCertificate h.inv.actions hself)

/-- Every round change that a validator has broadcast passes the verify function. -/
theorem Node.CheckedInv.roundChangeVerifyFn (h : n.CheckedInv cfg)
    (hval : ∀ run ∈ n.runs, cfg.validatorManager.isValidator cfg.address run.height = true)
    {rc : RoundChangeMessageSigned} (hrc : .broadcast (.roundChange rc) ∈ n.history) :
    Tonic.roundChangeVerifyFn cfg rc.view.height rc = true := by
  obtain ⟨run, hrun, hlog⟩ := List.mem_flatMap.mp hrc
  have hheight : rc.view.height = run.height := (h.inv.logOk hrun).height_eq _ hlog
  apply h.roundChangeVerifyFn_of_validator hrc
  rw [hheight]
  exact hval run hrun

/-! ## Soundness -/

theorem Node.cacheInv_of_reachable {height : UInt64}
    (h : ReachableWithin (Node.step cfg) (fun _ ev => ev.VerifiesBy verifyBlock)
      (Node.init cfg height) n) : CacheInv cfg verifyBlock n.messages := by
  refine h.invariant_of (I := fun n => CacheInv cfg verifyBlock n.messages)
    (fun _ hn => Node.storeKnown_of_reachable hn) (fun n ev n' hn _ henv hcache hstep => ?_)
    CacheInv.new
  cases nodeStep_of_step hstep with
  | receive | runHeight => exact hcache
  | addPending hpending => exact hcache.addMessage (hn.inv.pending _ _ hpending).2.2
  | run hrun hrunstep =>
    exact hcache.storeStep henv hn.inv.actions (hn.inv.run _ hrun) (hn.storeStep hrun hrunstep)

variable (cfg) in
/-- **The store is sound** in every reachable state of a node that is a validator of the heights it
runs and, in the views in which it proposes, the only proposer. -/
theorem messages_sound {height₀ : UInt64}
    (h : ReachableWithin (Node.step cfg) (fun _ ev => ev.VerifiesBy verifyBlock)
      (Node.init cfg height₀) n)
    (hval : ∀ run ∈ n.runs, cfg.validatorManager.isValidator cfg.address run.height = true)
    (hsole : SoleProposer cfg) : n.messages.Sound cfg verifyBlock := by
  have hchecked := Node.checkedInv_of_reachable hsole h.reachable
  have hinv := hchecked.inv
  have hcache := Node.cacheInv_of_reachable h
  -- A message of the node itself was broadcast by a run of its height.
  have hself : ∀ {m : IBFTMessage}, .broadcast m ∈ n.history →
      cfg.validatorManager.isValidator cfg.address m.view.height = true := by
    intro m hm
    obtain ⟨run, hrun, hlog⟩ := List.mem_flatMap.mp hm
    rw [show m.view.height = run.height from (hinv.logOk hrun).height_eq _ hlog]
    exact hval run hrun
  have hproposal : ∀ v p, n.messages.storedProposal v = some p → ProposalEntry cfg v p := by
    intro v p hp
    obtain ⟨rfl, a, horigin⟩ := hinv.store.proposal v p hp
    refine ⟨rfl, hinv.round_le_of_storedProposal _ p hp, ?_⟩
    cases horigin with
    | peer _ _ hrec hadm => exact ⟨a, hrec, hadm⟩
    | own _ hsent =>
      have hown : OwnProposal cfg p := hinv.actions _ hsent
      exact ⟨cfg.address, hown.recoverSigner, hown.isProposer⟩
  refine ⟨fun height p hp => ?_, fun v p verdict hp => ?_, fun v a m hm => ?_,
    fun v a m hm => ?_, fun v a m flag hm => ?_, fun v a m hm => ?_, hcache.verdict⟩
  · refine hproposal { height, round := 0 } p ?_
    exact FirstWinsMap.get?_eq_some_iff.mpr hp
  · have hround := hcache.round_ne v _ hp
    refine ⟨hround, hproposal v p ?_⟩
    rw [ConsensusMessages.storedProposal, if_neg hround,
      FirstWinsMap.get?_eq_some_iff.mpr hp]
    rfl
  · obtain ⟨rfl, horigin⟩ := hinv.store.prepare v a m hm
    cases horigin with
    | peer _ _ hrec hadm hround => exact ⟨⟨rfl, hround, hrec, hadm.1⟩, hadm.2⟩
    | own heq hsent =>
      have hown : OwnPrepare cfg n.knowledge m := hinv.actions _ hsent
      rw [heq]
      refine ⟨⟨rfl, hown.round_le, ?_, hself hsent⟩, hown.not_proposer⟩
      change m.recoverSigner cfg.crypto = .ok cfg.address
      rw [hown.eq_own]
      exact PrepareMessage.recoverSigner_intoSigned _ _ _
  · obtain ⟨rfl, horigin⟩ := hinv.store.commit v a m hm
    cases horigin with
    | peer _ _ hrec hadm hround => exact ⟨⟨rfl, hround, hrec, hadm.1⟩, hadm.2⟩
    | own heq hsent =>
      have hown : OwnCommit cfg n.knowledge m := hinv.actions _ hsent
      rw [heq]
      refine ⟨⟨rfl, hown.round_le, ?_, hself hsent⟩, ?_⟩
      · change m.recoverSigner cfg.crypto = .ok cfg.address
        rw [hown.eq_own]
        exact CommitMessage.recoverSigner_intoSigned _ _ _
      · rw [hown.eq_own]
        exact CommitMessage.recoverCommitSealSigner_new _ _ _ _
  · have hround := Node.roundChangesLe_of_reachable h.reachable _ _ hm
    obtain ⟨rfl, horigin⟩ := hinv.store.roundChange v a m flag hm
    cases horigin with
    | peer _ _ hrec hadm => exact ⟨⟨rfl, hround, hrec, hadm.1⟩, hadm.2⟩
    | own heq hsent =>
      have hown : OwnRoundChange cfg n.knowledge m := hinv.actions _ hsent
      rw [heq]
      refine ⟨⟨rfl, hround, ?_, hself hsent⟩, hown.round_ne⟩
      change m.recoverSigner cfg.crypto = .ok cfg.address
      rw [hown.eq_own]
      exact RoundChangeMessage.recoverSigner_intoSigned _ _ _
  · rcases hcache.flag v a m hm with rfl | hok
    · obtain ⟨rfl, horigin⟩ := hinv.store.roundChange v _ m true hm
      cases horigin with
      | peer _ hne => exact absurd rfl hne
      | own _ hsent => exact hchecked.roundChangeVerifyFn hval hsent
    · exact hok

/-! ## Runs -/

/-- A block service that accepts every block. -/
def acceptAll : RawBlock → Except String Unit := fun _ => .ok ()

theorem verifiesBy_modelEnv {b : RawBlock} (h : ev.env? = none ∨ ev.env? = some (modelEnv b)) :
    ev.VerifiesBy acceptAll := by
  intro env henv
  rcases h with h | h <;> rw [h] at henv <;> cases henv
  rfl

/-- One of four validators counts the round changes of the others, follows them to round 1, and
accepts the proposal that is made there. -/
def overtakenEvents : List Event :=
  List.flatten
    [waitingEvents, [1, 2, 3].flatMap fun signer => arrives (.roundChange (fourRoundChange signer)),
      List.replicate 4 .futureRcc, [.futureRccReady], arrives (.proposal fourReproposal),
      arrives (.prepare (fourPrepare 1 1)), List.replicate 6 (.round (modelEnv [7]))]

def overtakenNode : Node :=
  (exec (Node.step fourConfig) (Node.init fourConfig 0) overtakenEvents).get (by decide +kernel)

/-- Its store holds round changes with certificates that are flagged as verified, and the proposal
with its verdict. -/
theorem messages_sound_overtaken :
    overtakenNode.messages.Sound fourConfig acceptAll := by
  have hserved : ∀ ev ∈ overtakenEvents, ev.env? = none ∨ ev.env? = some (modelEnv [7]) := by
    simp [overtakenEvents, waitingEvents, arrives, Event.env?, or_imp, forall_and]
  exact messages_sound fourConfig
    (reachableWithin_of_exec (fun _ ev hev => verifiesBy_modelEnv (hserved ev hev))
      (Option.some_get _).symm)
    (by decide +kernel)
    (ValidatorManager.UniqueProposer.soleProposer fun _ _ _ => mockManager_proposer_unique _)

/-- The validator with a second proposer has added the round change with the swapped block. -/
def twoProposersAddedEvents : List Event := twoProposersEvents ++ [.main (modelEnv [7])]

def twoProposersAddedNode : Node :=
  (exec (Node.step twoProposersConfig) (Node.init twoProposersConfig 0)
    twoProposersAddedEvents).get (by decide +kernel)

/-- Where a view of the node has a second proposer, its own round change is flagged as verified
although it does not pass. -/
theorem messages_not_sound :
    ReachableWithin (Node.step twoProposersConfig) (fun _ ev => ev.VerifiesBy acceptAll)
        (Node.init twoProposersConfig 0) twoProposersAddedNode ∧
      (∀ run ∈ twoProposersAddedNode.runs,
        twoProposers.isValidator twoProposersConfig.address run.height = true) ∧
      ¬ twoProposersAddedNode.messages.Sound twoProposersConfig acceptAll := by
  refine ⟨reachableWithin_of_exec (fun _ ev hev => verifiesBy_modelEnv (b := [7]) ?_)
    (Option.some_get _).symm, by decide +kernel, fun hsound => ?_⟩
  · simp only [twoProposersAddedEvents, twoProposersEvents, List.flatten_cons, List.flatten_nil,
      List.append_nil, List.mem_append, List.mem_cons, List.mem_replicate, List.not_mem_nil,
      or_false] at hev
    rcases hev with ((rfl | rfl | rfl) | ⟨-, rfl⟩ | rfl | ⟨-, rfl⟩) | rfl <;> simp [Event.env?]
  · have hstored : twoProposersAddedNode.messages.roundChangeMessages.Stores
        ({ height := 1, round := 1 }, modelAddress 0) (swappedRoundChange, true) :=
      FirstWinsMap.get?_eq_some_iff.mp (by decide +kernel)
    have hpasses := hsound.flag _ _ _ hstored
    revert hpasses
    decide +kernel

end Tonic
