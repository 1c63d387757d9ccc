/-
# What the seals of a block bind

A commit seal is a signature over the digest of a block, that is over its bytes and the
round inside it.  The height is not among them: it is left to the bytes of the block.
So a quorum of seals shows that an honest validator has committed to these bytes, and
shows it at every height whose validators can have made the seals.
-/
import Tonic.ExternalValidity

namespace Tonic

open Transition RelatedLists

namespace Deployment

variable {ι : Type} [Fintype ι] (S : Deployment ι)

/-- The seals are signatures over the digest by a quorum of different validators of the height. -/
def QuorumSeals (height : UInt64) (digest : Digest) (seals : CommitSeals) : Prop :=
  S.validatorManager.quorum height ≤ seals.length ∧
    ∃ signers : List Address, signers.Nodup ∧
      List.Forall₂ (fun commitSeal signer =>
        S.crypto.recoverFromPrehash commitSeal digest = .ok signer ∧
          S.validatorManager.isValidator signer height = true) seals signers

variable {S} {net : Network ι} {height : UInt64}

/-- The height enters through its validators only. -/
theorem QuorumSeals.of_validators_eq {height' : UInt64}
    (heq : S.validators height' = S.validators height) {digest : Digest} {seals : CommitSeals}
    (h : S.QuorumSeals height digest seals) : S.QuorumSeals height' digest seals := by
  obtain ⟨hlen, signers, hnodup, hall⟩ := h
  refine ⟨?_, signers, hnodup, hall.imp fun s a hs => ⟨hs.1, ?_⟩⟩
  · rw [S.quorum_eq, heq, ← S.quorum_eq]
    exact hlen
  · rw [S.isValidator_iff, heq, ← S.isValidator_iff]
    exact hs.2

/-- An honest validator is among the signers of a quorum of seals. -/
theorem QuorumSeals.exists_honest {digest : Digest} {seals : CommitSeals}
    (h : S.QuorumSeals height digest seals) :
    ∃ i, S.address i ∈ S.validators height ∧
      ∃ s ∈ seals, S.crypto.recoverFromPrehash s digest = .ok (S.address i) := by
  obtain ⟨hlen, signers, hnodup, hall⟩ := h
  have hvalidator : ∀ a ∈ signers, a ∈ S.validators height := by
    intro a ha
    obtain ⟨s, -, hs⟩ := exists_mem_left_of_forall₂ hall ha
    exact (S.isValidator_iff _ _).mp hs.2
  have hquorum : (S.quorumSystem height).IsQuorum signers.toFinset := by
    refine ⟨fun a ha => hvalidator a (List.mem_toFinset.mp ha), ?_⟩
    rw [List.toFinset_card_of_nodup hnodup, quorum_quorumSystem, ← hall.length_eq]
    exact hlen
  obtain ⟨a, ha, hhonest⟩ := hquorum.exists_honest
  have hmem := List.mem_toFinset.mp ha
  obtain ⟨i, rfl⟩ := exists_node (hvalidator a hmem) hhonest
  obtain ⟨s, hs, hrec, -⟩ := exists_mem_left_of_forall₂ hall hmem
  exact ⟨i, hvalidator _ hmem, s, hs, hrec⟩

variable [DecidableEq ι] {heights : ι → UInt64}

/-- The seals of a finalized block are a quorum of seals at its height. -/
theorem quorumSeals_of_finalized (hreach : Reachable S.step (S.init heights) net) {i : ι}
    (honce : (net i).RunsOnce height) (hmem : S.address i ∈ S.validators height)
    {block : FinalizedBlock} (hfin : .finalized height block ∈ (net i).history) :
    S.QuorumSeals height (digestBlock S.crypto block.rawBlock block.proof.round)
      block.proof.commitSeals := by
  have hproven := provenBlock_of_finalized hreach honce hfin
  obtain ⟨hlen, hseals⟩ := hproven.signedSeals (inv_node hreach i).actions
  exact ⟨hlen, hseals.sealsOf ((S.isValidator_iff _ _).mpr hmem)⟩

/-- Behind a quorum of seals over a block and a round there is an honest validator who has broadcast
a commit for their digest, in a view with a proposal of this block and round. -/
theorem exists_commit_of_quorumSeals (hreach : Reachable S.step (S.init heights) net) {b : RawBlock}
    {r : UInt8} (hfree : S.crypto.CollisionFree (net.hashed ∪ {.block b r})) {seals : CommitSeals}
    (hseals : S.QuorumSeals height (digestBlock S.crypto b r) seals)
    (hunforged : ∀ s ∈ seals, S.Unforged net s (digestBlock S.crypto b r)) :
    ∃ i, S.address i ∈ S.validators height ∧ ∃ m, .broadcast (.commit m) ∈ (net i).history ∧
      m.proposedBlockDigest = digestBlock S.crypto b r ∧
        ∃ p, .proposal p ∈ (net i).seen ∧ p.view = m.view ∧
          p.proposedBlock = { rawBlock := b, round := r } := by
  obtain ⟨i, hmem, s, hs, hrec⟩ := hseals.exists_honest
  have hblock : SignedContent.block b r ∈ net.hashed ∪ {.block b r} := Or.inr rfl
  rcases broadcast_of_unforged hreach hfree Set.subset_union_left hblock hrec (hunforged s hs) with
    ⟨m, -, hcontent⟩ | ⟨b', r', m, heq, hm, hd⟩
  · cases m <;> cases hcontent
  · cases heq
    obtain ⟨p, hp, hview, hdigest, hgood⟩ := exists_proposal_of_commit hreach hm
    obtain ⟨hhashed, hpd⟩ := digest_of_seen hp hgood
    have hsame : digestBlock S.crypto p.proposedBlock.rawBlock p.proposedBlock.round =
        digestBlock S.crypto b r := hpd.symm.trans (hdigest.trans hd)
    obtain ⟨hraw, hround⟩ :=
      SignedContent.block.inj (hfree.eq_of_digest_eq (Or.inl hhashed) hblock hsame)
    refine ⟨i, hmem, m, hm, hd, p, hp, hview, ?_⟩
    rw [← hraw, ← hround]

/-- **Seals bind the block.**  Behind a quorum of seals there is a commit of an honest validator for
their block and round; they are a quorum of seals at every height with the same validators. -/
theorem commit_of_quorumSeals (hreach : Reachable S.step (S.init heights) net) {b : RawBlock}
    {r : UInt8} (hfree : S.crypto.CollisionFree (net.hashed ∪ {.block b r})) {seals : CommitSeals}
    (hseals : S.QuorumSeals height (digestBlock S.crypto b r) seals)
    (hunforged : ∀ s ∈ seals, S.Unforged net s (digestBlock S.crypto b r)) :
    (∃ i, S.address i ∈ S.validators height ∧ ∃ m, .broadcast (.commit m) ∈ (net i).history ∧
      m.proposedBlockDigest = digestBlock S.crypto b r ∧
        ∃ p, .proposal p ∈ (net i).seen ∧ p.view = m.view ∧
          p.proposedBlock = { rawBlock := b, round := r }) ∧
      ∀ height', S.validators height' = S.validators height →
        S.QuorumSeals height' (digestBlock S.crypto b r) seals :=
  ⟨exists_commit_of_quorumSeals hreach hfree hseals hunforged,
    fun _ heq => hseals.of_validators_eq heq⟩

variable (S) in
/-- Behind a quorum of seals there is a commit of an honest validator for the view of the height
and the round. -/
def SealsBindHeight (net : Network ι) : Prop :=
  ∀ height b r seals, S.crypto.CollisionFree (net.hashed ∪ {.block b r}) →
    S.QuorumSeals height (digestBlock S.crypto b r) seals →
    (∀ s ∈ seals, S.Unforged net s (digestBlock S.crypto b r)) →
    ∃ i, S.address i ∈ S.validators height ∧ ∃ m, .broadcast (.commit m) ∈ (net i).history ∧
      m.view = { height, round := r } ∧ m.proposedBlockDigest = digestBlock S.crypto b r

end Deployment

/-! ## The seals of two validators -/

theorem duoBlock_quorumSeals : duoDeployment.QuorumSeals 1
    (digestBlock modelCrypto duoBlock.rawBlock duoBlock.proof.round) duoBlock.proof.commitSeals :=
  Deployment.quorumSeals_of_finalized duoNetwork_reachable (duoNetwork_runsOnce 0)
    (by decide +kernel : duoDeployment.address 0 ∈ _) (by decide +kernel)

theorem duoBlock_unforged : ∀ s ∈ duoBlock.proof.commitSeals, duoDeployment.Unforged duoNetwork s
    (digestBlock modelCrypto duoBlock.rawBlock duoBlock.proof.round) := by
  decide +kernel

theorem duoBlock_collisionFree : modelCrypto.CollisionFree
    (duoNetwork.hashed ∪ {.block duoBlock.rawBlock duoBlock.proof.round}) := by
  refine duoNetwork_collisionFree.mono (Set.union_subset subset_rfl ?_)
  rw [Set.singleton_subset_iff]
  exact Network.mem_contents.mp (by decide +kernel)

/-- Behind the block of the two validators there is a commit of one of them, and its seals are a
quorum at every height. -/
theorem commit_of_quorumSeals_duo :
    (∃ i, duoDeployment.address i ∈ duoDeployment.validators 1 ∧
      ∃ m, .broadcast (.commit m) ∈ (duoNetwork i).history ∧
        m.proposedBlockDigest = digestBlock modelCrypto duoBlock.rawBlock duoBlock.proof.round ∧
          ∃ p, .proposal p ∈ (duoNetwork i).seen ∧ p.view = m.view ∧
            p.proposedBlock = { rawBlock := duoBlock.rawBlock, round := duoBlock.proof.round }) ∧
      ∀ height, duoDeployment.validators height = duoDeployment.validators 1 →
        duoDeployment.QuorumSeals height
          (digestBlock modelCrypto duoBlock.rawBlock duoBlock.proof.round)
          duoBlock.proof.commitSeals :=
  Deployment.commit_of_quorumSeals duoNetwork_reachable duoBlock_collisionFree
    duoBlock_quorumSeals duoBlock_unforged

/-- The validators finalize the block at height 1; at height 2, where they have committed to
nothing, its seals are a quorum too. -/
theorem not_sealsBindHeight_duo :
    Reachable duoDeployment.step (duoDeployment.init fun _ => 0) duoNetwork ∧
      .finalized 1 duoBlock ∈ (duoNetwork 0).history ∧
      duoDeployment.QuorumSeals 2
        (digestBlock modelCrypto duoBlock.rawBlock duoBlock.proof.round)
        duoBlock.proof.commitSeals ∧
      ¬ duoDeployment.SealsBindHeight duoNetwork := by
  have hseals := duoBlock_quorumSeals.of_validators_eq
    (rfl : duoDeployment.validators 2 = duoDeployment.validators 1)
  refine ⟨duoNetwork_reachable, by decide +kernel, hseals, fun hbinds => ?_⟩
  obtain ⟨i, -, m, hm, hview, -⟩ := hbinds 2 _ _ _ duoBlock_collisionFree hseals duoBlock_unforged
  have hnone : ∀ i, ∀ a ∈ (duoNetwork i).history, a.height = 1 := by decide +kernel
  have hheight : m.view.height = 1 := hnone i _ hm
  rw [hview] at hheight
  exact absurd hheight (by decide)

end Tonic
