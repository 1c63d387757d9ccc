/-
# Where messages come from

What a node has done and received is its knowledge; it only grows.  A stored message
originates there: a peer sent it and the handler checked it, or the node broadcast
it itself.  Every action a node takes rests on such messages, and `ActionOk` says on
which ones.  All these facts are kept when the knowledge grows.
-/
import Tonic.StoreSpec
import Tonic.Ibft

namespace Tonic

/-! ## Knowledge -/

/-- What a node has done and what it has received. -/
structure Knowledge where
  history : List Action
  received : List IBFTMessage

instance : LE Knowledge :=
  ⟨fun K K' => K.history ⊆ K'.history ∧ K.received ⊆ K'.received⟩

theorem Knowledge.le_refl (K : Knowledge) : K ≤ K := ⟨fun _ h => h, fun _ h => h⟩

theorem Knowledge.le_of_history {K K' : Knowledge} (h : K.history ⊆ K'.history)
    (hr : K'.received = K.received) : K ≤ K' :=
  ⟨h, fun _ hm => hr ▸ hm⟩

variable (cfg : Config)

/-! ## Own messages -/

def Config.ownProposal (view : View) (rawBlock : RawBlock) (rcc : Option RoundChangeCertificate) :
    ProposalMessageSigned :=
  (ProposalMessage.new cfg.crypto view rawBlock rcc).intoSigned cfg.crypto cfg.key

def Config.ownPrepare (view : View) (digest : Digest) : PrepareMessageSigned :=
  (PrepareMessage.new view digest).intoSigned cfg.crypto cfg.key

def Config.ownCommit (view : View) (digest : Digest) : CommitMessageSigned :=
  (CommitMessage.new cfg.crypto cfg.key view digest).intoSigned cfg.crypto cfg.key

/-! ## Origins -/

/-- A message of a sender that a node may have stored: a checked message of a peer, or a message
the node has broadcast. -/
inductive Origin (K : Knowledge) (m : IBFTMessage) (sender : Address) : Prop where
  | peer (received : m ∈ K.received) (ne_self : sender ≠ cfg.address)
      (recover : m.recoverSigner cfg.crypto = .ok sender) (admissible : m.Admissible cfg sender)
      (round_le : m.view.round ≤ maxRound)
  | own (eq_self : sender = cfg.address) (sent : Action.broadcast m ∈ K.history)

/-- The verify function of its view accepted the proposal, in an environment whose successful
block check is on record. -/
def Judged (K : Knowledge) (p : ProposalMessageSigned) : Prop :=
  ∃ env, proposalVerifyFn cfg env p.view p = .ok () ∧
    (callsVerifyBlock cfg p.view p = true →
      Action.verifiedBlock p.view.height p.proposedBlock.rawBlock ∈ K.history)

/-- A peer's proposal of the view with the digest was accepted. -/
def Accepted (K : Knowledge) (view : View) (digest : Digest) : Prop :=
  ∃ p proposer, p.view = view ∧ p.proposedBlockDigest = digest ∧
    IBFTMessage.proposal p ∈ K.received ∧ p.recoverSigner cfg.crypto = .ok proposer ∧
    cfg.validatorManager.isProposer proposer view = true ∧ Judged cfg K p

/-- Messages of one kind that satisfy a condition, each of another sender. -/
structure Collected {T : Type} (K : Knowledge) (kind : T → IBFTMessage) (P : T → Prop)
    (entries : List (Address × T)) : Prop where
  senders : (entries.map Prod.fst).Nodup
  origin : ∀ e ∈ entries, Origin cfg K (kind e.2) e.1 ∧ P e.2

/-- Prepares for the digest in the view that are enough to commit. -/
def Prepared (K : Knowledge) (view : View) (digest : Digest) : Prop :=
  ∃ entries, Collected cfg K IBFTMessage.prepare
      (fun m => m.view = view ∧ m.proposedBlockDigest = digest) entries ∧
    cfg.validatorManager.quorum view.height - 1 ≤ entries.length

/-- The seals of commits for the digest in the view that are enough to finalize. -/
def Sealed (K : Knowledge) (view : View) (digest : Digest) (seals : CommitSeals) : Prop :=
  ∃ entries, Collected cfg K IBFTMessage.commit
      (fun m => m.view = view ∧ m.proposedBlockDigest = digest) entries ∧
    cfg.validatorManager.quorum view.height ≤ entries.length ∧
    seals = entries.map (fun e => e.2.commitSeal)

/-- The node has proposed or prepared the digest in the view. -/
def VotedFor (K : Knowledge) (view : View) (digest : Digest) : Prop :=
  (∃ p : ProposalMessageSigned, Action.broadcast (.proposal p) ∈ K.history ∧ p.view = view ∧
      p.proposedBlockDigest = digest) ∨
    Action.broadcast (.prepare (cfg.ownPrepare view digest)) ∈ K.history

/-- A prepared block that the node put together from a proposal and prepares for it, in a round of
the height before the given one. -/
structure PreparedFrom (K : Knowledge) (pp : PreparedProposed) (view : View)
    (p : ProposalMessageSigned) (entries : List (Address × PrepareMessageSigned)) : Prop where
  eq_new : pp = PreparedProposed.new p (entries.map Prod.snd)
  height_eq : p.view.height = view.height
  round_lt : p.view.round < view.round
  proposal : ∃ proposer, Origin cfg K (.proposal p) proposer
  prepares : Collected cfg K IBFTMessage.prepare
    (fun m => m.view = p.view ∧ m.proposedBlockDigest = p.proposedBlockDigest) entries
  quorum_le : cfg.validatorManager.quorum view.height - 1 ≤ entries.length

/-! ## What actions rest on -/

structure OwnProposal (p : ProposalMessageSigned) : Prop where
  isProposer : cfg.validatorManager.isProposer cfg.address p.view = true
  round_le : p.view.round ≤ maxRound
  eq_own : ∃ rawBlock rcc, p = cfg.ownProposal p.view rawBlock rcc

structure OwnPrepare (K : Knowledge) (m : PrepareMessageSigned) : Prop where
  not_proposer : cfg.validatorManager.isProposer cfg.address m.view = false
  round_le : m.view.round ≤ maxRound
  eq_own : m = cfg.ownPrepare m.view m.proposedBlockDigest
  accepted : Accepted cfg K m.view m.proposedBlockDigest

structure OwnCommit (K : Knowledge) (m : CommitMessageSigned) : Prop where
  round_le : m.view.round ≤ maxRound
  eq_own : m = cfg.ownCommit m.view m.proposedBlockDigest
  voted : VotedFor cfg K m.view m.proposedBlockDigest
  prepared : Prepared cfg K m.view m.proposedBlockDigest

structure OwnRoundChange (K : Knowledge) (m : RoundChangeMessageSigned) : Prop where
  round_ne : m.view.round ≠ 0
  eq_own : m = m.message.intoSigned cfg.crypto cfg.key
  prepared : ∀ pp, m.latestPreparedProposed = some pp →
    ∃ p entries, PreparedFrom cfg K pp m.view p entries

/-- A block returned by a run: the block of a stored proposal with the seals of a view. -/
structure OwnFinalized (K : Knowledge) (height : UInt64) (block : FinalizedBlock) (view : View)
    (digest : Digest) (p : ProposalMessageSigned) : Prop where
  height_eq : view.height = height
  view_eq : p.view = view
  proposal : ∃ proposer, Origin cfg K (.proposal p) proposer
  rawBlock_eq : block.rawBlock = p.proposedBlock.rawBlock
  round_eq : block.proof.round = p.proposedBlock.round
  committed : Action.broadcast (.commit (cfg.ownCommit view digest)) ∈ K.history
  sealed : Sealed cfg K view digest block.proof.commitSeals

/-- What an action of a node rests on. -/
def ActionOk (K : Knowledge) : Action → Prop
  | .entered view => view.round ≤ maxRound
  | .broadcast (.proposal p) => OwnProposal cfg p
  | .broadcast (.prepare m) => OwnPrepare cfg K m
  | .broadcast (.commit m) => OwnCommit cfg K m
  | .broadcast (.roundChange m) => OwnRoundChange cfg K m
  | .verifiedBlock _ _ => True
  | .finalized height block => ∃ view digest p, OwnFinalized cfg K height block view digest p

/-! ## Knowledge only grows -/

section Mono

variable {cfg} {K K' : Knowledge} (hK : K ≤ K')
include hK

theorem Origin.mono {m : IBFTMessage} {a : Address} (h : Origin cfg K m a) : Origin cfg K' m a := by
  cases h with
  | peer hrecv hne hrec hadm hround => exact .peer (hK.2 hrecv) hne hrec hadm hround
  | own heq hsent => exact .own heq (hK.1 hsent)

theorem Judged.mono {p : ProposalMessageSigned} (h : Judged cfg K p) : Judged cfg K' p := by
  obtain ⟨env, hok, hblock⟩ := h
  exact ⟨env, hok, fun hcalls => hK.1 (hblock hcalls)⟩

theorem Accepted.mono {v : View} {d : Digest} (h : Accepted cfg K v d) : Accepted cfg K' v d := by
  obtain ⟨p, a, hv, hd, hrecv, hrec, hprop, hjudged⟩ := h
  exact ⟨p, a, hv, hd, hK.2 hrecv, hrec, hprop, hjudged.mono hK⟩

theorem Collected.mono {T : Type} {kind : T → IBFTMessage} {P : T → Prop}
    {entries : List (Address × T)} (h : Collected cfg K kind P entries) :
    Collected cfg K' kind P entries where
  senders := h.senders
  origin e he := ⟨(h.origin e he).1.mono hK, (h.origin e he).2⟩

theorem Prepared.mono {v : View} {d : Digest} (h : Prepared cfg K v d) : Prepared cfg K' v d := by
  obtain ⟨entries, hcollected, hlen⟩ := h
  exact ⟨entries, hcollected.mono hK, hlen⟩

theorem Sealed.mono {v : View} {d : Digest} {seals : CommitSeals} (h : Sealed cfg K v d seals) :
    Sealed cfg K' v d seals := by
  obtain ⟨entries, hcollected, hlen, hseals⟩ := h
  exact ⟨entries, hcollected.mono hK, hlen, hseals⟩

theorem VotedFor.mono {v : View} {d : Digest} (h : VotedFor cfg K v d) : VotedFor cfg K' v d := by
  rcases h with ⟨p, hsent, hv, hd⟩ | hsent
  · exact Or.inl ⟨p, hK.1 hsent, hv, hd⟩
  · exact Or.inr (hK.1 hsent)

theorem PreparedFrom.mono {pp : PreparedProposed} {v : View} {p : ProposalMessageSigned}
    {entries : List (Address × PrepareMessageSigned)} (h : PreparedFrom cfg K pp v p entries) :
    PreparedFrom cfg K' pp v p entries where
  eq_new := h.eq_new
  height_eq := h.height_eq
  round_lt := h.round_lt
  proposal := by
    obtain ⟨a, ha⟩ := h.proposal
    exact ⟨a, ha.mono hK⟩
  prepares := h.prepares.mono hK
  quorum_le := h.quorum_le

theorem OwnPrepare.mono {m : PrepareMessageSigned} (h : OwnPrepare cfg K m) :
    OwnPrepare cfg K' m :=
  ⟨h.not_proposer, h.round_le, h.eq_own, h.accepted.mono hK⟩

theorem OwnCommit.mono {m : CommitMessageSigned} (h : OwnCommit cfg K m) : OwnCommit cfg K' m :=
  ⟨h.round_le, h.eq_own, h.voted.mono hK, h.prepared.mono hK⟩

theorem OwnRoundChange.mono {m : RoundChangeMessageSigned} (h : OwnRoundChange cfg K m) :
    OwnRoundChange cfg K' m where
  round_ne := h.round_ne
  eq_own := h.eq_own
  prepared pp hpp := by
    obtain ⟨p, entries, hfrom⟩ := h.prepared pp hpp
    exact ⟨p, entries, hfrom.mono hK⟩

theorem OwnFinalized.mono {height : UInt64} {block : FinalizedBlock} {v : View} {d : Digest}
    {p : ProposalMessageSigned} (h : OwnFinalized cfg K height block v d p) :
    OwnFinalized cfg K' height block v d p where
  height_eq := h.height_eq
  view_eq := h.view_eq
  proposal := by
    obtain ⟨a, ha⟩ := h.proposal
    exact ⟨a, ha.mono hK⟩
  rawBlock_eq := h.rawBlock_eq
  round_eq := h.round_eq
  committed := hK.1 h.committed
  sealed := h.sealed.mono hK

theorem ActionOk.mono {a : Action} (h : ActionOk cfg K a) : ActionOk cfg K' a := by
  cases a with
  | entered v => exact h
  | verifiedBlock height b => trivial
  | finalized height b =>
    obtain ⟨v, d, p, hfin⟩ := h
    exact ⟨v, d, p, hfin.mono hK⟩
  | broadcast m =>
    cases m with
    | proposal p => exact h
    | prepare m => exact OwnPrepare.mono hK h
    | commit m => exact OwnCommit.mono hK h
    | roundChange m => exact OwnRoundChange.mono hK h

end Mono

/-! ## The store -/

/-- Every stored message is kept under its view and its sender and has an origin; every cached
acceptance of a proposal stands for one. -/
structure StoreInv (K : Knowledge) (msgs : ConsensusMessages) : Prop where
  selfAddress : msgs.selfAddress = cfg.address
  proposal : ∀ v p, msgs.storedProposal v = some p →
    p.view = v ∧ ∃ a, Origin cfg K (.proposal p) a
  prepare : ∀ v a m, msgs.prepareMessages.Stores (v, a) m →
    m.view = v ∧ Origin cfg K (.prepare m) a
  commit : ∀ v a m, msgs.commitMessages.Stores (v, a) m →
    m.view = v ∧ Origin cfg K (.commit m) a
  roundChange : ∀ v a m flag, msgs.roundChangeMessages.Stores (v, a) (m, flag) →
    m.view = v ∧ Origin cfg K (.roundChange m) a
  verdict : ∀ v p, msgs.proposal1Messages.Stores v (p, some (.ok ())) →
    Judged cfg K p ∨ Action.broadcast (.proposal p) ∈ K.history

namespace StoreInv

variable {cfg} {K K' : Knowledge} {msgs msgs' : ConsensusMessages}

theorem mono (hK : K ≤ K') (h : StoreInv cfg K msgs) : StoreInv cfg K' msgs where
  selfAddress := h.selfAddress
  proposal v p hp := by
    obtain ⟨hv, a, ha⟩ := h.proposal v p hp
    exact ⟨hv, a, ha.mono hK⟩
  prepare v a m hm := ⟨(h.prepare v a m hm).1, (h.prepare v a m hm).2.mono hK⟩
  commit v a m hm := ⟨(h.commit v a m hm).1, (h.commit v a m hm).2.mono hK⟩
  roundChange v a m flag hm :=
    ⟨(h.roundChange v a m flag hm).1, (h.roundChange v a m flag hm).2.mono hK⟩
  verdict v p hp := (h.verdict v p hp).imp (·.mono hK) (hK.1 ·)

/-- Whatever only takes messages away keeps the invariant, if its cached results are justified. -/
theorem of_subStore (h : StoreInv cfg K msgs) (hsub : SubStore msgs msgs')
    (hverdict : ∀ v p, msgs'.proposal1Messages.Stores v (p, some (.ok ())) →
      Judged cfg K p ∨ Action.broadcast (.proposal p) ∈ K.history) : StoreInv cfg K msgs' where
  selfAddress := hsub.selfAddress.trans h.selfAddress
  proposal v p hp := h.proposal v p (hsub.proposal v p hp)
  prepare v a m hm := h.prepare v a m (hsub.prepare _ m hm)
  commit v a m hm := h.commit v a m (hsub.commit _ m hm)
  roundChange v a m flag hm := by
    obtain ⟨flag', hm'⟩ := hsub.roundChange _ m flag hm
    exact h.roundChange v a m flag' hm'
  verdict := hverdict

theorem new (K : Knowledge) : StoreInv cfg K (ConsensusMessages.new cfg.address) where
  selfAddress := rfl
  proposal v p hp := by
    unfold ConsensusMessages.storedProposal at hp
    split at hp <;> cases hp
  prepare v a m hm := absurd hm (FirstWinsMap.not_stores_empty _ _)
  commit v a m hm := absurd hm (FirstWinsMap.not_stores_empty _ _)
  roundChange v a m flag hm := absurd hm (FirstWinsMap.not_stores_empty _ _)
  verdict v p hp := absurd hp (FirstWinsMap.not_stores_empty _ _)

/-! ### Additions -/

theorem addProposalMessage {p : ProposalMessageSigned} {a : Address} (h : StoreInv cfg K msgs)
    (horigin : Origin cfg K (.proposal p) a) :
    StoreInv cfg K (msgs.addProposalMessage p a) := by
  have hrest : (msgs.addProposalMessage p a).selfAddress = msgs.selfAddress ∧
      (msgs.addProposalMessage p a).prepareMessages = msgs.prepareMessages ∧
      (msgs.addProposalMessage p a).commitMessages = msgs.commitMessages ∧
      (msgs.addProposalMessage p a).roundChangeMessages = msgs.roundChangeMessages := by
    unfold ConsensusMessages.addProposalMessage
    simp only
    split
    · split <;> exact ⟨rfl, rfl, rfl, rfl⟩
    · exact ⟨rfl, rfl, rfl, rfl⟩
  obtain ⟨hself, hprepare, hcommit, hroundChange⟩ := hrest
  refine ⟨hself.trans h.selfAddress, fun v q hq => ?_, ?_, ?_, ?_, fun v q hq => ?_⟩
  · rw [ConsensusMessages.storedProposal_addProposalMessage] at hq
    split at hq
    next hnew =>
      cases hq
      exact ⟨hnew.2.symm, a, horigin⟩
    next => exact h.proposal v q hq
  · rw [hprepare]
    exact h.prepare
  · rw [hcommit]
    exact h.commit
  · rw [hroundChange]
    exact h.roundChange
  · rcases ConsensusMessages.verdict_addProposalMessage hq with hold | ⟨hselfa, rfl⟩
    · exact h.verdict v q hold
    · -- Only an own proposal is inserted as valid.
      cases horigin with
      | peer _ hne => exact absurd (hselfa.symm.trans h.selfAddress) hne
      | own _ hsent => exact Or.inr hsent

theorem addPrepareMessage {m : PrepareMessageSigned} {a : Address} (h : StoreInv cfg K msgs)
    (horigin : Origin cfg K (.prepare m) a) : StoreInv cfg K (msgs.addPrepareMessage m a) := by
  have hstores : ∀ v b q, (msgs.addPrepareMessage m a).prepareMessages.Stores (v, b) q →
      q.view = v ∧ Origin cfg K (.prepare q) b := by
    intro v b q hq
    rcases ConsensusMessages.stores_addPrepareMessage.mp hq with hold | ⟨-, hk, rfl⟩
    · exact h.prepare v b q hold
    · obtain ⟨rfl, rfl⟩ := Prod.mk.inj hk
      exact ⟨rfl, horigin⟩
  unfold ConsensusMessages.addPrepareMessage at hstores ⊢
  simp only at hstores ⊢
  split
  next hvac =>
    rw [if_pos hvac] at hstores
    exact ⟨h.selfAddress, h.proposal, hstores, h.commit, h.roundChange, h.verdict⟩
  next => exact h

theorem addCommitMessage {m : CommitMessageSigned} {a : Address} (h : StoreInv cfg K msgs)
    (horigin : Origin cfg K (.commit m) a) : StoreInv cfg K (msgs.addCommitMessage m a) := by
  have hstores : ∀ v b q, (msgs.addCommitMessage m a).commitMessages.Stores (v, b) q →
      q.view = v ∧ Origin cfg K (.commit q) b := by
    intro v b q hq
    rcases ConsensusMessages.stores_addCommitMessage.mp hq with hold | ⟨-, hk, rfl⟩
    · exact h.commit v b q hold
    · obtain ⟨rfl, rfl⟩ := Prod.mk.inj hk
      exact ⟨rfl, horigin⟩
  unfold ConsensusMessages.addCommitMessage at hstores ⊢
  simp only at hstores ⊢
  split
  next hvac =>
    rw [if_pos hvac] at hstores
    exact ⟨h.selfAddress, h.proposal, h.prepare, hstores, h.roundChange, h.verdict⟩
  next => exact h

theorem addRoundChangeMessage {m : RoundChangeMessageSigned} {a : Address}
    (h : StoreInv cfg K msgs) (horigin : Origin cfg K (.roundChange m) a) :
    StoreInv cfg K (msgs.addRoundChangeMessage m a) := by
  have hstores : ∀ v b q flag,
      (msgs.addRoundChangeMessage m a).roundChangeMessages.Stores (v, b) (q, flag) →
      q.view = v ∧ Origin cfg K (.roundChange q) b := by
    intro v b q flag hq
    rcases ConsensusMessages.stores_addRoundChangeMessage.mp hq with hold | ⟨-, hk, rfl, -⟩
    · exact h.roundChange v b q flag hold
    · obtain ⟨rfl, rfl⟩ := Prod.mk.inj hk
      exact ⟨rfl, horigin⟩
  unfold ConsensusMessages.addRoundChangeMessage at hstores ⊢
  simp only at hstores ⊢
  split
  next hvac =>
    rw [if_pos hvac] at hstores
    exact ⟨h.selfAddress, h.proposal, h.prepare, h.commit, hstores, h.verdict⟩
  next => exact h

theorem addMessage {m : IBFTMessage} {a : Address} (h : StoreInv cfg K msgs)
    (horigin : Origin cfg K m a) : StoreInv cfg K (msgs.addMessage a m) := by
  cases m with
  | proposal p => exact h.addProposalMessage horigin
  | prepare m => exact h.addPrepareMessage horigin
  | commit m => exact h.addCommitMessage horigin
  | roundChange m => exact h.addRoundChangeMessage horigin

/-! ### Queries, takes and prunes -/

theorem getValidPrepareCount (h : StoreInv cfg K msgs) (v : View)
    (f : PrepareMessageSigned → Bool) : StoreInv cfg K (msgs.getValidPrepareCount v f).2 :=
  h.of_subStore (ConsensusMessages.subStore_getValidPrepareCount v f) h.verdict

theorem takeValidPrepareMessages (h : StoreInv cfg K msgs) (env : Env) (v : View)
    (f : PrepareMessageSigned → Bool) :
    StoreInv cfg K (msgs.takeValidPrepareMessages env v f).2 :=
  h.of_subStore (ConsensusMessages.subStore_takeValidPrepareMessages env v f) h.verdict

theorem takeValidCommitSeals (h : StoreInv cfg K msgs) (env : Env) (v : View)
    (f : CommitMessageSigned → Bool) (quorum : ℕ) :
    StoreInv cfg K (msgs.takeValidCommitSeals env v f quorum).2 := by
  refine h.of_subStore (ConsensusMessages.subStore_takeValidCommitSeals env v f quorum) ?_
  unfold ConsensusMessages.takeValidCommitSeals
  simp only
  split <;> exact h.verdict

theorem takeValidRoundChangeMessages (h : StoreInv cfg K msgs) (env : Env) (v : View)
    (f : RoundChangeMessageSigned → Bool) (quorum : ℕ) :
    StoreInv cfg K (msgs.takeValidRoundChangeMessages env v f quorum).2 := by
  refine h.of_subStore (ConsensusMessages.subStore_takeValidRoundChangeMessages env v f quorum) ?_
  unfold ConsensusMessages.takeValidRoundChangeMessages
  simp only
  split <;> exact h.verdict

theorem getValidRoundChangeCount (h : StoreInv cfg K msgs) (v : View)
    (f : RoundChangeMessageSigned → Bool) :
    StoreInv cfg K (msgs.getValidRoundChangeCount v f).2 :=
  h.of_subStore (ConsensusMessages.subStore_getValidRoundChangeCount v f) h.verdict

theorem takeProposalMessage (h : StoreInv cfg K msgs) (v : View) :
    StoreInv cfg K (msgs.takeProposalMessage v).2 :=
  h.of_subStore (ConsensusMessages.subStore_takeProposalMessage v)
    (fun w p hp => h.verdict w p (ConsensusMessages.verdict_takeProposalMessage hp))

theorem prune (h : StoreInv cfg K msgs) (height : UInt64) :
    StoreInv cfg K (msgs.prune height) :=
  h.of_subStore (ConsensusMessages.subStore_prune height)
    (fun v p hp => h.verdict v p (FirstWinsMap.stores_retain.mp hp).1)

/-- The proposal that a query hands to the verify function is the stored one. -/
theorem storedProposal_of_unverified {v : View} {p : ProposalMessageSigned}
    (h : msgs.unverifiedProposal v = some p) : msgs.storedProposal v = some p := by
  unfold ConsensusMessages.unverifiedProposal at h
  unfold ConsensusMessages.storedProposal
  split at h
  next hr => rw [if_pos hr, h]
  next hr =>
    split at h
    next q hget =>
      cases h
      rw [if_neg hr, hget]
      rfl
    next => cases h

/-- A proposal that the verify function accepts in a query is judged, once the block check of the
query is on record. -/
theorem judged_of_unverified (h : StoreInv cfg K msgs) {env : Env} {v : View}
    {p : ProposalMessageSigned} (hun : msgs.unverifiedProposal v = some p)
    (hok : proposalVerifyFn cfg env v p = .ok ())
    (hchecks : RoundTask.blockChecks cfg env msgs v ⊆ K'.history) : Judged cfg K' p := by
  obtain ⟨rfl, -⟩ := h.proposal v p (storedProposal_of_unverified hun)
  refine ⟨env, hok, fun hcalls => hchecks ?_⟩
  have hblock : env.verifyBlock p.proposedBlock.rawBlock = .ok () := by
    unfold proposalVerifyFn at hok
    unfold callsVerifyBlock at hcalls
    split at hok
    next hr =>
      rw [if_pos hr] at hcalls
      unfold proposal0VerifyFn at hok
      rw [if_neg (by simp [hcalls])] at hok
      split at hok
      · cases hok
      · assumption
    next hr =>
      rw [if_neg hr] at hcalls
      unfold proposal1VerifyFn at hok
      split at hcalls
      · cases hcalls
      next highest hrcc =>
        simp only [hrcc, Option.isNone_iff_eq_none.mp hcalls] at hok
        split at hok
        · cases hok
        · assumption
  rw [RoundTask.blockChecks, hun]
  simp only
  rw [if_pos ⟨hcalls, hblock⟩]
  exact List.mem_singleton_self _

theorem getValidProposalDigest (h : StoreInv cfg K msgs) (env : Env) (v : View) (hK : K ≤ K')
    (hchecks : RoundTask.blockChecks cfg env msgs v ⊆ K'.history) :
    StoreInv cfg K' (msgs.getValidProposalDigest v (proposalVerifyFn cfg env v)).2 := by
  refine (h.mono hK).of_subStore (ConsensusMessages.subStore_getValidProposalDigest v _) ?_
  intro w p hp
  rcases ConsensusMessages.verdict_getValidProposalDigest hp with hold | ⟨rfl, hun, hok⟩
  · exact (h.mono hK).verdict w p hold
  · exact Or.inl (h.judged_of_unverified hun hok hchecks)

/-- A query that returns a digest found a stored proposal with that digest, which is judged or
the node's own. -/
theorem getValidProposalDigest_ok (h : StoreInv cfg K msgs) {env : Env} {v : View} {d : Digest}
    (hd : (msgs.getValidProposalDigest v (proposalVerifyFn cfg env v)).1 = some (.ok d))
    (hK : K ≤ K') (hchecks : RoundTask.blockChecks cfg env msgs v ⊆ K'.history) :
    ∃ p, msgs.storedProposal v = some p ∧ p.view = v ∧ p.proposedBlockDigest = d ∧
      (∃ a, Origin cfg K (.proposal p) a) ∧
      (Judged cfg K' p ∨ Action.broadcast (.proposal p) ∈ K.history) := by
  obtain ⟨p, hp, hdigest, hcases⟩ := ConsensusMessages.getValidProposalDigest_ok hd
  obtain ⟨hv, horigin⟩ := h.proposal v p hp
  refine ⟨p, hp, hv, hdigest, horigin, ?_⟩
  rcases hcases with ⟨hun, hok⟩ | ⟨-, hst⟩
  · exact Or.inl (h.judged_of_unverified hun hok hchecks)
  · exact (h.verdict v p hst).imp (·.mono hK) id

/-! ### Lists of stored messages -/

theorem collected_prepares (h : StoreInv cfg K msgs) {v : View} {p : PrepareMessageSigned → Bool}
    {entries : List (Address × PrepareMessageSigned)}
    (hentries : ConsensusMessages.SenderEntries msgs.prepareMessages v p entries) :
    Collected cfg K IBFTMessage.prepare (fun m => m.view = v ∧ p m = true) entries where
  senders := hentries.nodup
  origin e he := by
    obtain ⟨hst, hp⟩ := hentries.stored e he
    obtain ⟨hv, horigin⟩ := h.prepare v e.1 e.2 hst
    exact ⟨horigin, hv, hp⟩

theorem collected_commits (h : StoreInv cfg K msgs) {v : View} {p : CommitMessageSigned → Bool}
    {entries : List (Address × CommitMessageSigned)}
    (hentries : ConsensusMessages.SenderEntries msgs.commitMessages v p entries) :
    Collected cfg K IBFTMessage.commit (fun m => m.view = v ∧ p m = true) entries where
  senders := hentries.nodup
  origin e he := by
    obtain ⟨hst, hp⟩ := hentries.stored e he
    obtain ⟨hv, horigin⟩ := h.commit v e.1 e.2 hst
    exact ⟨horigin, hv, hp⟩

end StoreInv

end Tonic
