/-
# Finalized blocks were verified

A later round takes over the block of a prepared certificate without calling
`verify_block`.  The certificate has a lower round, and an honest node among those who
prepared it accepted the same block there; so the block is traced back, round by round,
to a node that did call `verify_block`.  With one validator nobody else prepares, and a
block may be finalized that was never verified.
-/
import Tonic.ViewUniqueness

namespace Tonic

open Transition

/-! ## Accepted proposals -/

/-- A judged proposal: its block is on record as verified, or it is the block of a valid
certificate of a lower round. -/
theorem Judged.cases {cfg : Config} {K : Knowledge} {p : ProposalMessageSigned}
    (h : Judged cfg K p) :
    .verifiedBlock p.view.height p.proposedBlock.rawBlock ∈ K.history ∨
      ∃ pc ∈ p.certificates,
        digestBlock cfg.crypto p.proposedBlock.rawBlock pc.proposalMeta.view.round =
          pc.proposalMeta.proposedBlockDigest ∧
        ValidCertificate cfg pc p.view.height p.view.round := by
  obtain ⟨env, hok, hchecks⟩ := h
  rcases proposalVerifyFn_ok hok with ⟨-, hcalls⟩ | ⟨-, validators, highest, hfor, hcases⟩
  · exact Or.inl (hchecks hcalls)
  · rcases hcases with ⟨-, hcalls⟩ | ⟨pc, hpc, hdigest, hvalid⟩
    · exact Or.inl (hchecks hcalls)
    · exact Or.inr ⟨pc, (hfor.highest_of.of_some pc hpc).1, hdigest, hvalid⟩

/-! ## Blocks of digests -/

section Blocks

variable (c : Crypto) (contents : Set SignedContent)

open Classical in
/-- The block that was hashed to a digest. -/
noncomputable def blockOf (d : Digest) : Option RawBlock :=
  if h : ∃ b r, SignedContent.block b r ∈ contents ∧ digestBlock c b r = d then some h.choose
  else none

variable {c contents}

theorem blockOf_digestBlock (hfree : c.CollisionFree contents) {b : RawBlock} {r : UInt8}
    (hmem : SignedContent.block b r ∈ contents) :
    blockOf c contents (digestBlock c b r) = some b := by
  have h : ∃ b' r', SignedContent.block b' r' ∈ contents ∧
      digestBlock c b' r' = digestBlock c b r := ⟨b, r, hmem, rfl⟩
  rw [blockOf, dif_pos h]
  obtain ⟨r', hmem', hdigest⟩ := h.choose_spec
  have heq := hfree.eq_of_digest_eq hmem' hmem hdigest
  exact congrArg some (SignedContent.block.inj heq).1

end Blocks

namespace Deployment

variable {ι : Type} [Fintype ι] {S : Deployment ι} {net : Network ι} {height : UInt64}

/-- An honest validator of the height has found the block valid. -/
def VerifiedBy (S : Deployment ι) (net : Network ι) (height : UInt64) (b : RawBlock) : Prop :=
  ∃ i, S.address i ∈ S.validators height ∧ .verifiedBlock height b ∈ (net i).history

/-- The proposer is the one who proposes. -/
theorem eq_proposer_of_proposed {i : ι} {p : ProposalMessageSigned}
    (hown : OwnProposal (S.config i) p) : S.address i = S.proposer p.view :=
  (S.isProposer_iff _ _).mp hown.isProposer

variable [DecidableEq ι] {heights : ι → UInt64}

/-- From two validators on, a certificate has an honest signer who is not the proposer, and so has
prepared. -/
theorem exists_prepared (hreach : Reachable S.step (S.init heights) net)
    (htwo : 2 ≤ (S.validators height).card) {r : ℕ} {d : Digest}
    (h : (S.votes net height).Certified (S.quorumSystem height) r d) :
    ∃ a, a ∉ (S.quorumSystem height).byzantine ∧ (S.votes net height).prepared r a d := by
  obtain ⟨signers, ⟨-, hcard⟩, hvoted⟩ := h
  let proposer := S.proposer { height, round := UInt8.ofNat r }
  have hbig : (S.quorumSystem height).byzantine.card < (signers.erase proposer).card := by
    have hlt := QuorumSystem.byzantine_lt_quorum_sub_one htwo (S.byzantine_le height)
    have hcard : 2 * (S.validators height).card / 3 + 1 ≤ signers.card := hcard
    have herase := Finset.pred_card_le_card_erase (s := signers) (a := proposer)
    exact hlt.trans_le (le_trans (Nat.sub_le_sub_right hcard 1) herase)
  obtain ⟨a, ha, hhonest⟩ := QuorumSystem.exists_honest_mem hbig
  obtain ⟨hne, ha⟩ := Finset.mem_erase.mp ha
  refine ⟨a, hhonest, (hvoted a ha hhonest).resolve_left ?_⟩
  rintro ⟨p, ⟨i, rfl, -, hsent, hheight, hround⟩, -⟩
  have hview : p.view = { height, round := UInt8.ofNat r } := by
    refine View.eq_of_toNat hheight ?_
    have hlt := p.view.round.toNat_lt
    have hround : p.view.round.toNat = r := hround
    simp only [UInt8.toNat_ofNat']
    omega
  have hown : OwnProposal (S.config i) p := (inv_node hreach i).actions _ hsent
  exact hne ((eq_proposer_of_proposed hown).trans (congrArg S.proposer hview))

/-- The proposal that a prepare has accepted, with what is known of it. -/
theorem exists_accepted (hreach : Reachable S.step (S.init heights) net) {i : ι}
    {m : PrepareMessageSigned} (hsent : .broadcast (.prepare m) ∈ (net i).history) :
    ∃ p : ProposalMessageSigned, p.view = m.view ∧ p.proposedBlockDigest = m.proposedBlockDigest ∧
      .proposal p ∈ (net i).received ∧ Judged (S.config i) (net i).knowledge p := by
  have hown : OwnPrepare (S.config i) (net i).knowledge m := (inv_node hreach i).actions _ hsent
  obtain ⟨p, -, hview, hd, hrecv, -, -, hjudged⟩ := hown.accepted
  exact ⟨p, hview, hd, hrecv, hjudged⟩

omit [DecidableEq ι] in
/-- The block of an accepted proposal is the one of its digest. -/
theorem blockOf_accepted (hfree : S.crypto.CollisionFree net.hashed) {i : ι}
    {p : ProposalMessageSigned} (hseen : .proposal p ∈ (net i).seen)
    (hgood : p.verifyBlockDigest S.crypto = true) :
    blockOf S.crypto net.hashed p.proposedBlockDigest = some p.proposedBlock.rawBlock := by
  have hdigest : p.proposedBlockDigest =
      digestBlock S.crypto p.proposedBlock.rawBlock p.proposedBlock.round :=
    (of_decide_eq_true hgood).symm
  rw [hdigest]
  exact blockOf_digestBlock hfree ⟨i, _, hseen, IBFTMessage.block_mem_hashed List.mem_cons_self⟩

/-- A certificate in a received proposal is one, and its block is the one of the proposal if its
digest says so. -/
theorem certified_of_carried (hreach : Reachable S.step (S.init heights) net)
    (hfree : S.crypto.CollisionFree net.hashed) {i : ι} {p : ProposalMessageSigned}
    (hrecv : .proposal p ∈ (net i).received) {pc : PreparedCertificate}
    (hpc : pc ∈ p.certificates)
    (hvalid : ValidCertificate (S.config i) pc p.view.height p.view.round)
    (hdigest : digestBlock S.crypto p.proposedBlock.rawBlock pc.proposalMeta.view.round =
      pc.proposalMeta.proposedBlockDigest) :
    (S.votes net p.view.height).Certified (S.quorumSystem p.view.height)
        pc.proposalMeta.view.round.toNat pc.proposalMeta.proposedBlockDigest ∧
      blockOf S.crypto net.hashed pc.proposalMeta.proposedBlockDigest =
        some p.proposedBlock.rawBlock := by
  have hseen : IBFTMessage.proposal p ∈ (net i).seen := Node.mem_seen.mpr (Or.inl hrecv)
  have hcarried : ∀ a ∈ pc.attestations, a ∈ (IBFTMessage.proposal p).carried := by
    intro a ha
    obtain ⟨rc, hrc, hcert⟩ := List.mem_filterMap.mp hpc
    refine List.mem_flatMap.mpr ⟨rc, hrc, List.mem_cons_of_mem _ ?_⟩
    rw [hcert]
    exact ha
  constructor
  · refine certified_of_validCertificate hreach hfree subset_rfl rfl rfl hvalid (fun a ha => ?_)
      (fun a ha => ⟨i, _, hseen, IBFTMessage.carried_mem_hashed (hcarried a ha)⟩)
    exact unforged_of_received hreach hrecv (List.mem_cons_of_mem _ (hcarried a ha))
  · rw [← hdigest]
    refine blockOf_digestBlock hfree ⟨i, _, hseen, IBFTMessage.block_mem_hashed ?_⟩
    exact List.mem_cons_of_mem _ (List.mem_map.mpr ⟨pc, hpc, rfl⟩)

/-- **The rules of validity** hold of the honest nodes of a network. -/
theorem validityRules (hreach : Reachable S.step (S.init heights) net)
    (hfree : S.crypto.CollisionFree net.hashed) (htwo : 2 ≤ (S.validators height).card) :
    (S.votes net height).ValidityRules (S.quorumSystem height) (blockOf S.crypto net.hashed)
      (fun block => ∃ b, block = some b ∧ S.VerifiedBy net height b) where
  exists_prepared _ _ h := exists_prepared hreach htwo h
  prepared_valid r a d _ hprepared := by
    obtain ⟨m, ⟨i, rfl, hmem, hsent, hheight, rfl⟩, rfl⟩ := hprepared
    obtain ⟨p, hview, hd, hrecv, hjudged⟩ := exists_accepted hreach hsent
    have hheight' : p.view.height = height := (congrArg View.height hview).trans hheight
    have hblock := blockOf_accepted hfree (Node.mem_seen.mpr (Or.inl hrecv))
      hjudged.acceptable.verifyBlockDigest
    rw [← hd, hblock]
    rcases hjudged.cases with hverified | ⟨pc, hpc, hdigest, hvalid⟩
    · rw [hheight'] at hverified
      exact Or.inl ⟨_, rfl, i, hmem, hverified⟩
    · obtain ⟨hcert, hblock'⟩ := certified_of_carried hreach hfree hrecv hpc hvalid hdigest
      rw [hheight'] at hcert
      refine Or.inr ⟨_, _, ?_, hcert, hblock'⟩
      have hlt := UInt8.lt_iff_toNat_lt.mp hvalid.round_lt
      rw [hview] at hlt
      exact hlt

/-! ## Finalized blocks -/

/-- Sealed commits decide their digest. -/
theorem decided_of_sealed (hreach : Reachable S.step (S.init heights) net)
    (hfree : S.crypto.CollisionFree net.hashed) {i : ι} {view : View} {d : Digest}
    (hmem : S.address i ∈ S.validators view.height) {seals : CommitSeals}
    (h : Sealed (S.config i) (net i).knowledge view d seals) :
    (S.votes net view.height).Decided (S.quorumSystem view.height) view.round.toNat d := by
  obtain ⟨entries, hcollected, hlen, -⟩ := h
  have hentry : ∀ e ∈ entries, e.1 ∈ S.validators view.height ∧ ∀ j, S.address j = e.1 →
      ∃ m, .broadcast (.commit m) ∈ (net j).history ∧ m.view = view ∧
        m.proposedBlockDigest = d := by
    intro e he
    obtain ⟨horigin, rfl, rfl⟩ := hcollected.origin e he
    cases horigin with
    | peer hrecv _ hrec hadm =>
      refine ⟨(S.isValidator_iff _ _).mp hadm.1, fun j hj => ?_⟩
      obtain ⟨m, hm, hview, hd, -⟩ := commit_of_unforged hreach hfree subset_rfl
        ⟨i, _, Node.mem_seen.mpr (Or.inl hrecv), IBFTMessage.content_mem_hashed _⟩ (hj ▸ hrec)
        (unforged_of_received hreach hrecv List.mem_cons_self)
      exact ⟨m, hm, hview, hd⟩
    | own heq hsent =>
      rw [heq]
      refine ⟨hmem, fun j hj => ?_⟩
      obtain rfl : j = i := S.address_injective hj
      exact ⟨e.2, hsent, rfl, rfl⟩
  refine ⟨(entries.map Prod.fst).toFinset, ⟨fun a ha => ?_, ?_⟩, fun a ha hhonest => ?_⟩
  · obtain ⟨e, he, rfl⟩ := List.mem_map.mp (List.mem_toFinset.mp ha)
    exact (hentry e he).1
  · rw [List.toFinset_card_of_nodup hcollected.senders, List.length_map, quorum_quorumSystem]
    exact hlen
  · obtain ⟨e, he, rfl⟩ := List.mem_map.mp (List.mem_toFinset.mp ha)
    obtain ⟨hvalidator, hsent⟩ := hentry e he
    obtain ⟨j, hj⟩ := exists_node hvalidator hhonest
    obtain ⟨m, hm, rfl, hd⟩ := hsent j hj
    exact ⟨m, ⟨j, hj, hvalidator, hm, rfl, rfl⟩, hd⟩

/-- What the seals of a block that an honest validator returns rest on. -/
theorem provenBlock_of_finalized (hreach : Reachable S.step (S.init heights) net) {i : ι}
    (honce : (net i).RunsOnce height) {block : FinalizedBlock}
    (hfin : .finalized height block ∈ (net i).history) :
    ProvenBlock (S.config i) (net i).knowledge height block := by
  have hnode := reachable_node hreach i
  have hinv := Node.provenInv_of_reachable
    (ValidatorManager.UniqueProposer.soleProposer S.uniqueProposer) hnode
  obtain ⟨run, hrun, hlog⟩ := List.mem_flatMap.mp hfin
  have hheight : height = run.height := (hinv.inv.logOk hrun).height_eq _ hlog
  have hclean := Node.noOwnMessages_of_once hnode (hheight ▸ honce) hrun
  exact (hinv.proven run hrun hclean).2 height block hlog

/-- A block that an honest validator returns was decided in some round. -/
theorem decided_of_finalized (hreach : Reachable S.step (S.init heights) net)
    (hfree : S.crypto.CollisionFree net.hashed) (honce : ∀ i, (net i).RunsOnce height) {i : ι}
    (hmem : S.address i ∈ S.validators height) {block : FinalizedBlock}
    (hfin : .finalized height block ∈ (net i).history) :
    ∃ r d, (S.votes net height).Decided (S.quorumSystem height) r d ∧
      blockOf S.crypto net.hashed d = some block.rawBlock := by
  obtain ⟨view, p, hview, ⟨proposer, horigin⟩, -, hraw, -, hgood, -, hsealed⟩ :=
    provenBlock_of_finalized hreach (honce i) hfin
  have hseen : IBFTMessage.proposal p ∈ (net i).seen := by
    rw [Node.mem_seen]
    cases horigin with
    | peer hrecv => exact Or.inl hrecv
    | own _ hsent => exact Or.inr hsent
  subst hview
  refine ⟨_, _, decided_of_sealed hreach hfree hmem hsealed, ?_⟩
  rw [hraw]
  exact blockOf_accepted hfree hseen hgood

/-- **External validity.**  A block that an honest validator finalizes was verified by an honest
validator of the height. -/
theorem verifiedBy_of_finalized (hreach : Reachable S.step (S.init heights) net)
    (hfree : S.crypto.CollisionFree net.hashed) (honce : ∀ i, (net i).RunsOnce height)
    (htwo : 2 ≤ (S.validators height).card) {i : ι} (hmem : S.address i ∈ S.validators height)
    {block : FinalizedBlock} (hfin : .finalized height block ∈ (net i).history) :
    S.VerifiedBy net height block.rawBlock := by
  obtain ⟨r, d, hdecided, hblock⟩ := decided_of_finalized hreach hfree honce hmem hfin
  have hcert := hdecided.certified (roundRules hreach hfree honce)
  obtain ⟨b, hb, hverified⟩ := hcert.valid (validityRules hreach hfree htwo)
  rw [hblock] at hb
  cases hb
  exact hverified

end Deployment

/-- The validator that did not propose has verified the block. -/
theorem verifiedBy_of_finalized_duo : duoDeployment.VerifiedBy duoNetwork 1 duoBlock.rawBlock :=
  Deployment.verifiedBy_of_finalized duoNetwork_reachable duoNetwork_collisionFree
    duoNetwork_runsOnce (by decide +kernel) (by decide +kernel : duoDeployment.address 0 ∈ _)
    (by decide +kernel)

end Tonic
