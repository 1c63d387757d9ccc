/-
# A finalized block carries its proof

The seals of a finalized block are taken from the commits of its view, the block from
the proposals, at different times.  What ties them together is the digest the round is
driven by: the stored commits whose seals are taken are for that digest, and in a clean
run the stored proposal is for it too.
-/
import Tonic.CleanRun
import Tonic.ModelCrypto

namespace Tonic

open Transition

variable {cfg : Config} {n n' : Node} {msgs msgs' : ConsensusMessages} {run run' : Run}
  {ev : Event} {K K' : Knowledge}

/-! ## The digest of a final proposal -/

theorem Run.Drive.driven_of_commit (h : run.Drive cfg msgs) (hholds : run.phase.HoldsProposal)
    (hstate : run.runState = .commit) {d : Digest}
    (hvotes : VotedTwice (votesAt run.log run.view) d) : Driven cfg msgs run.view d := by
  rcases hvotes with hvotes | hvotes
  · exact h.proposed hholds (by simp [hstate]) d (by simp [hvotes])
  · exact h.prepared hholds d (by simp [hvotes])

variable (cfg) in
/-- The node has broadcast the proposal, or received it and found that its verify function accepts
it. -/
def Endorsed (K : Knowledge) (p : ProposalMessageSigned) : Prop :=
  .broadcast (.proposal p) ∈ K.history ∨ .proposal p ∈ K.received ∧ Acceptable cfg p

theorem Endorsed.mono (hK : K ≤ K') {p : ProposalMessageSigned} (h : Endorsed cfg K p) :
    Endorsed cfg K' p :=
  h.imp (fun hsent => hK.1 hsent) (And.imp_left fun hreceived => hK.2 hreceived)

theorem Endorsed.verifyBlockDigest (hactions : ∀ a ∈ K.history, ActionOk cfg K a)
    {p : ProposalMessageSigned} (h : Endorsed cfg K p) : p.verifyBlockDigest cfg.crypto = true := by
  rcases h with hsent | ⟨-, hacceptable⟩
  · have hown : OwnProposal cfg p := hactions _ hsent
    exact hown.verifyBlockDigest
  · exact hacceptable.verifyBlockDigest

/-- The stored proposal of a driven view is endorsed. -/
theorem Driven.endorsed (hsole : SoleProposer cfg) (hstore : StoreInv cfg K msgs) {v : View}
    {d : Digest} (h : Driven cfg msgs v d) {p : ProposalMessageSigned}
    (hp : msgs.storedProposal v = some p) : p.proposedBlockDigest = d ∧ Endorsed cfg K p := by
  obtain ⟨q, hq, hd, haccepted⟩ := h
  rw [hp] at hq
  cases hq
  refine ⟨hd, ?_⟩
  cases hprop : cfg.validatorManager.isProposer cfg.address v with
  | true => exact Or.inl (hstore.sent_of_proposer hsole hprop hp)
  | false =>
    obtain ⟨-, a, horigin⟩ := hstore.proposal v p hp
    cases horigin with
    | peer hreceived => exact Or.inr ⟨hreceived, haccepted hprop⟩
    | own _ hsent => exact Or.inl hsent

/-! ## Proven blocks -/

variable (cfg) in
/-- The seals of the block are those of commits for its digest in a view of the height, to which the
node has committed itself. -/
def ProvenBlock (K : Knowledge) (height : UInt64) (block : FinalizedBlock) : Prop :=
  ∃ view p, view.height = height ∧
    (∃ proposer, Origin cfg K (.proposal p) proposer) ∧ p.view = view ∧
    block.rawBlock = p.proposedBlock.rawBlock ∧ block.proof.round = p.proposedBlock.round ∧
    p.verifyBlockDigest cfg.crypto = true ∧
    Action.broadcast (.commit (cfg.ownCommit view p.proposedBlockDigest)) ∈ K.history ∧
    Sealed cfg K view p.proposedBlockDigest block.proof.commitSeals

theorem ProvenBlock.mono (hK : K ≤ K') {height : UInt64} {block : FinalizedBlock}
    (h : ProvenBlock cfg K height block) : ProvenBlock cfg K' height block := by
  obtain ⟨v, p, hv, ⟨a, horigin⟩, hview, hraw, hround, hgood, hsent, hsealed⟩ := h
  exact ⟨v, p, hv, ⟨a, horigin.mono hK⟩, hview, hraw, hround, hgood, hK.1 hsent,
    hsealed.mono hK⟩

variable (cfg) in
/-- Blocks that a run is about to return or has returned are proven. -/
def Run.ProvenBlocks (K : Knowledge) (run : Run) : Prop :=
  (∀ block, run.phase = .broadcastBlock block → ProvenBlock cfg K run.height block) ∧
    ∀ height block, .finalized height block ∈ run.log → ProvenBlock cfg K height block

theorem Run.ProvenBlocks.mono (hK : K ≤ K') (h : run.ProvenBlocks cfg K) :
    run.ProvenBlocks cfg K' :=
  ⟨fun block hp => (h.1 block hp).mono hK, fun height block hmem => (h.2 height block hmem).mono hK⟩

variable (cfg) in
/-- Blocks that a clean run is about to return or has returned are proven. -/
def Run.Proven (K : Knowledge) (run : Run) : Prop :=
  NoOwnMessages cfg run.initialMessages run.height →
    (∀ block, run.phase = .broadcastBlock block → ProvenBlock cfg K run.height block) ∧
      ∀ height block, .finalized height block ∈ run.log → ProvenBlock cfg K height block

theorem Run.Proven.mono (hK : K ≤ K') (h : run.Proven cfg K) : run.Proven cfg K' :=
  fun hclean => Run.ProvenBlocks.mono hK (h hclean)

/-- Only taking the final proposal leads to a block. -/
theorem RunStep.phase_broadcastBlock (h : RunStep cfg msgs run ev msgs' run') {block : FinalizedBlock}
    (hphase' : run'.phase = .broadcastBlock block) :
    (∃ seals p, run.phase = .takeFinalProposal seals ∧ msgs.storedProposal run.view = some p ∧
        block = FinalizedBlock.new p.proposedBlock seals) ∨
      run.phase = .broadcastBlock block := by
  have henter : ∀ {run₁ : Run} {round : UInt8},
      (run₁.enterRound cfg round).phase ≠ .broadcastBlock block := by
    intro run₁ round hp
    rcases Run.enterRound_cases cfg run₁ round with
      ⟨⟨why, hphase⟩, -⟩ | ⟨⟨hphase, -⟩ | ⟨⟨rc, hphase⟩, -⟩, -⟩ <;> rw [hphase] at hp <;> cases hp
  cases h with
  | round | futureProposal | futureRcc => exact Or.inr hphase'
  | takeFinalProposal hphase hstored =>
    cases hphase'
    exact Or.inl ⟨_, _, hphase, hstored, rfl⟩
  | broadcastBlock hphase hnext =>
    rcases hnext with rfl | ⟨why, rfl⟩ <;> cases hphase'
  | timeoutTakePrepares hphase hnext =>
    rcases hnext with ⟨why, rfl⟩ | ⟨-, rfl⟩ <;> cases hphase'
  | broadcastRoundChange | futureProposalReady | futureRccReady => exact absurd hphase' henter
  | addOwnRoundChange | finalProposalMissing | prune | timeoutProposalMissing
  | timeoutTakeProposal | cancel | roundFinished | timeoutCommit | timeoutEarly => cases hphase'

/-- A step of a driven run keeps its blocks proven. -/
theorem Run.ProvenBlocks.step (hsole : SoleProposer cfg) (hinv : n.Inv cfg)
    (hdrive : run.Drive cfg n.messages) (hrun : n.run = some run)
    (hstep : RunStep cfg n.messages run ev msgs' run') (h : run.ProvenBlocks cfg n.knowledge) :
    run'.ProvenBlocks cfg n.knowledge := by
  obtain ⟨hpending, hlog⟩ := h
  have hrunInv := hinv.run run hrun
  constructor
  · intro block hphase'
    rw [hstep.same.1]
    rcases hstep.phase_broadcastBlock hphase' with ⟨seals, p, hphase, hstored, rfl⟩ | hphase
    · have hinvPhase := hrunInv.phase
      rw [hphase] at hinvPhase
      obtain ⟨-, hstate, d, hvotes, hsent, hsealed⟩ := hinvPhase
      have hdriven := hdrive.driven_of_commit (by rw [hphase]; trivial) hstate hvotes
      obtain ⟨rfl, hendorsed⟩ := hdriven.endorsed hsole hinv.store hstored
      have hgood := hendorsed.verifyBlockDigest hinv.actions
      obtain ⟨hview, horigin⟩ := hinv.store.proposal _ _ hstored
      exact ⟨run.view, p, rfl, horigin, hview, rfl, rfl, hgood, hsent, hsealed⟩
    · exact hpending block hphase
  · intro height block hmem
    rcases hstep.logged hmem with hold | hlogged
    · exact hlog height block hold
    · cases hlogged with
      | finalized hphase => exact hpending block hphase

/-- A step of a clean run keeps its blocks proven. -/
theorem Run.Proven.step (hsole : SoleProposer cfg) (hinv : n.Inv cfg) (hclean : n.Clean cfg)
    (hrun : n.run = some run) (hstep : RunStep cfg n.messages run ev msgs' run')
    (h : run.Proven cfg n.knowledge) : run'.Proven cfg n.knowledge := by
  intro hown
  obtain ⟨hheight, hinitial⟩ := hstep.same
  rw [hheight, hinitial] at hown
  exact Run.ProvenBlocks.step hsole hinv (hclean run hrun hown).2 hrun hstep (h hown)

theorem Run.start_provenBlocks (height : UInt64) :
    (Run.start cfg msgs height).ProvenBlocks cfg K := by
  unfold Run.start
  simp only
  split
  · exact ⟨(fun block hp => by cases hp), (fun _ _ hmem => by cases hmem)⟩
  · constructor
    · intro block hp
      rcases Run.enterRound_cases cfg _ 0 with
        ⟨⟨why, hphase⟩, -⟩ | ⟨⟨hphase, -⟩ | ⟨⟨rc, hphase⟩, -⟩, -⟩ <;>
        rw [hphase] at hp <;> cases hp
    · intro _ _ hmem
      rcases Run.log_enterRound cfg _ 0 with heq | ⟨-, heq⟩ <;> rw [heq] at hmem <;>
        simp at hmem

theorem Run.start_proven (height : UInt64) : (Run.start cfg msgs height).Proven cfg K :=
  fun _ => Run.start_provenBlocks height

namespace Node

variable (cfg) in
/-- The invariant behind finalized blocks. -/
structure ProvenInv (n : Node) : Prop where
  inv : n.Inv cfg
  clean : n.Clean cfg
  proven : ∀ run ∈ n.runs, run.Proven cfg n.knowledge

theorem ProvenInv.step (hsole : SoleProposer cfg) (h : n.ProvenInv cfg)
    (hstep : n.step cfg ev = some n') : n'.ProvenInv cfg := by
  have hcases := nodeStep_of_step hstep
  have hinv' := h.inv.step hstep
  refine ⟨hinv', h.clean.step hsole h.inv hinv' hcases, ?_⟩
  exact hcases.forall_runs (fun hK hP => hP.mono hK) (fun height => Run.start_proven height)
    (fun run run' hrun _ hrunstep hP =>
      (hP.step hsole h.inv h.clean hrun hrunstep).mono hcases.knowledge_le) h.proven

theorem ProvenInv.init (height : UInt64) : (Node.init cfg height).ProvenInv cfg where
  inv := Inv.init height
  clean run hrun := by cases hrun
  proven run hrun := by cases hrun

theorem provenInv_of_reachable (hsole : SoleProposer cfg) {height : UInt64}
    (h : Reachable (Node.step cfg) (Node.init cfg height) n) : n.ProvenInv cfg :=
  h.invariant (fun _ _ _ hinv hstep => hinv.step hsole hstep) (ProvenInv.init height)

end Node

/-! ## The signers of the seals -/

variable (cfg) in
/-- The seals are signatures over the digest by different validators of the height. -/
def SealsOf (height : UInt64) (digest : Digest) (seals : CommitSeals) : Prop :=
  ∃ signers : List Address, signers.Nodup ∧
    List.Forall₂ (fun commitSeal signer =>
      cfg.crypto.recoverFromPrehash commitSeal digest = .ok signer ∧
        cfg.validatorManager.isValidator signer height = true) seals signers

variable (cfg) in
/-- The seals are signatures over the digest by different signers, the node itself or validators of
the height. -/
def SignedSeals (height : UInt64) (digest : Digest) (seals : CommitSeals) : Prop :=
  ∃ signers : List Address, signers.Nodup ∧
    List.Forall₂ (fun commitSeal signer =>
      cfg.crypto.recoverFromPrehash commitSeal digest = .ok signer ∧
        (signer = cfg.address ∨ cfg.validatorManager.isValidator signer height = true))
      seals signers

theorem SignedSeals.sealsOf {height : UInt64} {digest : Digest} {seals : CommitSeals}
    (h : SignedSeals cfg height digest seals)
    (hval : cfg.validatorManager.isValidator cfg.address height = true) :
    SealsOf cfg height digest seals := by
  obtain ⟨signers, hnodup, hseals⟩ := h
  refine ⟨signers, hnodup, hseals.imp ?_⟩
  rintro commitSeal signer ⟨hrecover, rfl | hvalidator⟩
  · exact ⟨hrecover, hval⟩
  · exact ⟨hrecover, hvalidator⟩

/-- Collected commits give seals of different senders. -/
theorem Collected.signedSeals (hactions : ∀ a ∈ K.history, ActionOk cfg K a) {v : View} {d : Digest}
    {entries : List (Address × CommitMessageSigned)}
    (h : Collected cfg K IBFTMessage.commit
      (fun m => m.view = v ∧ m.proposedBlockDigest = d) entries) :
    SignedSeals cfg v.height d (entries.map (fun e => e.2.commitSeal)) := by
  refine ⟨entries.map Prod.fst, h.senders, ?_⟩
  rw [List.forall₂_map_left_iff, List.forall₂_map_right_iff, List.forall₂_same]
  intro e he
  obtain ⟨horigin, hview, rfl⟩ := h.origin e he
  cases horigin with
  | peer _ _ _ hadm =>
    rw [← hview]
    exact ⟨hadm.2, Or.inr hadm.1⟩
  | own heq hsent =>
    have hown : OwnCommit cfg K e.2 := hactions _ hsent
    refine ⟨?_, Or.inl heq⟩
    rw [heq, hown.eq_own]
    exact CommitMessage.recoverCommitSealSigner_new _ _ _ _

/-- A proven block has a quorum of seals for its digest. -/
theorem ProvenBlock.signedSeals (hactions : ∀ a ∈ K.history, ActionOk cfg K a) {height : UInt64}
    {block : FinalizedBlock} (h : ProvenBlock cfg K height block) :
    cfg.validatorManager.quorum height ≤ block.proof.commitSeals.length ∧
      SignedSeals cfg height (digestBlock cfg.crypto block.rawBlock block.proof.round)
        block.proof.commitSeals := by
  obtain ⟨v, p, rfl, -, -, hraw, hround, hgood, -, entries, hcollected, hlen, hseals⟩ := h
  have hdigest : digestBlock cfg.crypto block.rawBlock block.proof.round =
      p.proposedBlockDigest := by
    rw [hraw, hround]
    exact of_decide_eq_true hgood
  rw [hdigest, hseals]
  refine ⟨by rw [List.length_map]; exact hlen, ?_⟩
  exact hcollected.signedSeals hactions

/-- **Every finalized block carries a valid proof of itself.**  The run starts on a store without
own messages for the height, the node is a validator, and a view has one proposer; nothing is
assumed of the peers. -/
theorem finalized_proof_valid {height₀ : UInt64}
    (hreach : Reachable (Node.step cfg) (Node.init cfg height₀) n)
    (hunique : cfg.validatorManager.UniqueProposer) (hrun : run ∈ n.runs)
    (hown : NoOwnMessages cfg run.initialMessages run.height)
    (hval : cfg.validatorManager.isValidator cfg.address run.height = true) {height : UInt64}
    {block : FinalizedBlock} (hfin : .finalized height block ∈ run.log) :
    height = run.height ∧
      cfg.validatorManager.quorum height ≤ block.proof.commitSeals.length ∧
      SealsOf cfg height (digestBlock cfg.crypto block.rawBlock block.proof.round)
        block.proof.commitSeals := by
  have hinv := Node.provenInv_of_reachable hunique.soleProposer hreach
  have hheight : height = run.height := (hinv.inv.logOk hrun).height_eq _ hfin
  refine ⟨hheight, ?_⟩
  obtain ⟨hquorum, hseals⟩ :=
    ((hinv.proven run hrun hown).2 height block hfin).signedSeals hinv.inv.actions
  exact ⟨hquorum, hseals.sealsOf (hheight ▸ hval)⟩

/-- One of four validators finalizes in its second round a block prepared in the first, with the
seals of three of them for the block of the second. -/
theorem finalized_proof_valid_four : 1 = fourRun.height ∧
    fourConfig.validatorManager.quorum 1 ≤ fourBlock.proof.commitSeals.length ∧
    SealsOf fourConfig 1 (digestBlock modelCrypto fourBlock.rawBlock fourBlock.proof.round)
      fourBlock.proof.commitSeals :=
  finalized_proof_valid fourNode_reachable (fun _ _ _ => mockManager_proposer_unique _) fourRun_mem
    (Node.noOwnMessages_of_once fourNode_reachable (by decide +kernel) fourRun_mem)
    (by decide +kernel) (by decide +kernel)

end Tonic
