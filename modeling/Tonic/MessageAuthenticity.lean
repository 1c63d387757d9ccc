/-
# What the handler's signature check binds

The handler recovers the signer of a message and checks little else, so an admitted
message of an honest validator is one that this validator has signed in the fields that
the signature covers.  A prepare and a commit are covered whole.  A proposal is covered
in its view and the digest of its block: the block itself is bound only by the digest
check of the query that comes later, the round change certificate by nothing.  A round
change is covered in its view and its certificate, the prepared block again only by a
later digest check.
-/
import Tonic.ViewUniqueness
import Tonic.StoreSoundness

namespace Tonic

open Transition

/-! ## Agreement of two messages -/

/-- The prepared block has the digest of its certificate. -/
def PreparedProposed.MatchesDigest (c : Crypto) (pp : PreparedProposed) : Prop :=
  pp.preparedCertificate.proposalMeta.proposedBlockDigest = pp.proposedBlock.digest c

namespace IBFTMessage

/-- The messages agree in every field but the outer signature. -/
def SameFields : IBFTMessage → IBFTMessage → Prop
  | .proposal m, .proposal m' => m.message = m'.message
  | .prepare m, .prepare m' => m.message = m'.message
  | .commit m, .commit m' => m.message = m'.message
  | .roundChange m, .roundChange m' => m.message = m'.message
  | _, _ => False

/-- The messages agree in every field that is signed, and in the block if the first message has one
of the signed digest. -/
def SameSigned (c : Crypto) : IBFTMessage → IBFTMessage → Prop
  | .proposal m, .proposal m' =>
    m.view = m'.view ∧ m.proposedBlockDigest = m'.proposedBlockDigest ∧
      (m.verifyBlockDigest c = true → m.proposedBlock = m'.proposedBlock)
  | .prepare m, .prepare m' => m.message = m'.message
  | .commit m, .commit m' => m.message = m'.message
  | .roundChange m, .roundChange m' =>
    m.view = m'.view ∧
      m.latestPreparedProposed.map PreparedProposed.preparedCertificate =
        m'.latestPreparedProposed.map PreparedProposed.preparedCertificate ∧
      ∀ pp, m.latestPreparedProposed = some pp → pp.MatchesDigest c →
        m'.latestPreparedProposed = some pp
  | _, _ => False

/-- The block of the message has the signed digest. -/
def HasSignedBlock (c : Crypto) : IBFTMessage → Prop
  | .proposal m => m.verifyBlockDigest c = true
  | .roundChange m => ∀ pp, m.latestPreparedProposed = some pp → pp.MatchesDigest c
  | .prepare _ | .commit _ => True

instance : DecidableRel SameFields
  | .proposal m, .proposal m' => inferInstanceAs (Decidable (m.message = m'.message))
  | .prepare m, .prepare m' => inferInstanceAs (Decidable (m.message = m'.message))
  | .commit m, .commit m' => inferInstanceAs (Decidable (m.message = m'.message))
  | .roundChange m, .roundChange m' => inferInstanceAs (Decidable (m.message = m'.message))
  | .proposal _, .prepare _ | .proposal _, .commit _ | .proposal _, .roundChange _
  | .prepare _, .proposal _ | .prepare _, .commit _ | .prepare _, .roundChange _
  | .commit _, .proposal _ | .commit _, .prepare _ | .commit _, .roundChange _
  | .roundChange _, .proposal _ | .roundChange _, .prepare _ | .roundChange _, .commit _ =>
    isFalse id

theorem SameSigned.refl (c : Crypto) (m : IBFTMessage) : m.SameSigned c m := by
  cases m with
  | proposal m => exact ⟨rfl, rfl, fun _ => rfl⟩
  | prepare m => exact rfl
  | commit m => exact rfl
  | roundChange m => exact ⟨rfl, rfl, fun _ hpp _ => hpp⟩

/-- Messages with the same signed content have the same block if it has the signed digest. -/
theorem sameSigned_of_content_eq {c : Crypto} {contents : Set SignedContent}
    (hfree : c.CollisionFree contents) {m m' : IBFTMessage} (hm : ∀ x ∈ m.blocks, x ∈ contents)
    (hm' : ∀ x ∈ m'.blocks, x ∈ contents) (heq : m.content = m'.content)
    (hsigned : m'.HasSignedBlock c) : m.SameSigned c m' := by
  have hblock : ∀ {b b' : ProposedBlock}, .block b.rawBlock b.round ∈ m.blocks →
      .block b'.rawBlock b'.round ∈ m'.blocks → b.digest c = b'.digest c → b = b' := by
    intro b b' hb hb' hdigest
    obtain ⟨hraw, hround⟩ :=
      SignedContent.block.inj (hfree.eq_of_digest_eq (hm _ hb) (hm' _ hb') hdigest)
    cases b
    cases b'
    cases hraw
    cases hround
    rfl
  cases m with
  | proposal p =>
    cases m' with
    | proposal p' =>
      obtain ⟨hview, hd⟩ := SignedContent.proposal.inj heq
      refine ⟨hview, hd, fun hp => hblock List.mem_cons_self List.mem_cons_self ?_⟩
      have hp' : p'.proposedBlock.digest c = p'.proposedBlockDigest := of_decide_eq_true hsigned
      exact (of_decide_eq_true hp).trans (hd.trans hp'.symm)
    | prepare | commit | roundChange => cases heq
  | prepare p =>
    cases m' with
    | prepare p' =>
      obtain ⟨hview, hd⟩ := SignedContent.prepare.inj heq
      change p.message = p'.message
      obtain ⟨⟨v, d⟩, s⟩ := p
      obtain ⟨⟨v', d'⟩, s'⟩ := p'
      cases hview
      cases hd
      rfl
    | proposal | commit | roundChange => cases heq
  | commit p =>
    cases m' with
    | commit p' =>
      obtain ⟨hview, hd, hseal⟩ := SignedContent.commit.inj heq
      change p.message = p'.message
      obtain ⟨⟨v, d, commitSeal⟩, s⟩ := p
      obtain ⟨⟨v', d', commitSeal'⟩, s'⟩ := p'
      cases hview
      cases hd
      cases hseal
      rfl
    | proposal | prepare | roundChange => cases heq
  | roundChange p =>
    cases m' with
    | roundChange p' =>
      obtain ⟨hview, hcert⟩ := SignedContent.roundChange.inj heq
      refine ⟨hview, hcert, fun pp hpp hmatch => ?_⟩
      rw [hpp] at hcert
      obtain ⟨pp', hpp', hpc⟩ := Option.map_eq_some_iff.mp hcert.symm
      have hmatch' : pp'.MatchesDigest c := hsigned pp' hpp'
      have hsame : pp.proposedBlock = pp'.proposedBlock := by
        refine hblock ?_ ?_ (hmatch.symm.trans (hpc ▸ hmatch'))
        · rw [blocks, hpp]
          exact List.mem_singleton_self _
        · rw [blocks, hpp']
          exact List.mem_singleton_self _
      rw [hpp']
      cases pp
      cases pp'
      cases hpc
      cases hsame
      rfl
    | proposal | prepare | commit => cases heq

end IBFTMessage

/-! ## The check looks at what is signed -/

theorem IBFTMessage.seals_of_content_eq {m m' : IBFTMessage} (h : m.content = m'.content) :
    m.seals = m'.seals := by
  cases m with
  | commit p =>
    cases m' with
    | commit p' =>
      obtain ⟨-, hd, hseal⟩ := SignedContent.commit.inj h
      simp only [IBFTMessage.seals, hd, hseal]
    | proposal | prepare | roundChange => cases h
  | proposal | prepare | roundChange =>
    cases m' with
    | commit p' => cases h
    | proposal | prepare | roundChange => rfl

/-- The checks of the handler read nothing but the signature and what it covers. -/
theorem checkConsensusMessage_of_content_eq {cfg : Config} {finalized : UInt64}
    {m m' : IBFTMessage} (hcontent : m.content = m'.content) (hsig : m.signature = m'.signature) :
    checkConsensusMessage cfg finalized m = checkConsensusMessage cfg finalized m' := by
  have hrec : m.recoverSigner cfg.crypto = m'.recoverSigner cfg.crypto := by
    rw [IBFTMessage.recoverSigner_eq, IBFTMessage.recoverSigner_eq, hcontent, hsig]
  cases m with
  | proposal p =>
    cases m' with
    | proposal p' =>
      change p.recoverSigner cfg.crypto = p'.recoverSigner cfg.crypto at hrec
      obtain ⟨hview, -⟩ := SignedContent.proposal.inj hcontent
      simp only [checkConsensusMessage, hrec, hview]
    | prepare | commit | roundChange => cases hcontent
  | prepare p =>
    cases m' with
    | prepare p' =>
      change p.recoverSigner cfg.crypto = p'.recoverSigner cfg.crypto at hrec
      obtain ⟨hview, -⟩ := SignedContent.prepare.inj hcontent
      simp only [checkConsensusMessage, hrec, hview]
    | proposal | commit | roundChange => cases hcontent
  | commit p =>
    cases m' with
    | commit p' =>
      change p.recoverSigner cfg.crypto = p'.recoverSigner cfg.crypto at hrec
      obtain ⟨hview, hd, hseal⟩ := SignedContent.commit.inj hcontent
      have hsealRec : p.recoverCommitSealSigner cfg.crypto =
          p'.recoverCommitSealSigner cfg.crypto := by
        change cfg.crypto.recoverFromPrehash p.commitSeal p.proposedBlockDigest =
          cfg.crypto.recoverFromPrehash p'.commitSeal p'.proposedBlockDigest
        rw [hd, hseal]
      simp only [checkConsensusMessage, hrec, hview, hsealRec]
    | proposal | prepare | roundChange => cases hcontent
  | roundChange p =>
    cases m' with
    | roundChange p' =>
      change p.recoverSigner cfg.crypto = p'.recoverSigner cfg.crypto at hrec
      obtain ⟨hview, -⟩ := SignedContent.roundChange.inj hcontent
      simp only [checkConsensusMessage, hrec, hview]
    | proposal | prepare | commit => cases hcontent

namespace Deployment

variable {ι : Type} [Fintype ι] (S : Deployment ι)

/-- The store of the node holds the message under its view and the address.  A view has one
proposal, which is that of its proposer. -/
def Stored (net : Network ι) (i : ι) (a : Address) : IBFTMessage → Prop
  | .proposal m => (net i).messages.storedProposal m.view = some m ∧ a = S.proposer m.view
  | .prepare m => (net i).messages.prepareMessages.Stores (m.view, a) m
  | .commit m => (net i).messages.commitMessages.Stores (m.view, a) m
  | .roundChange m => ∃ flag, (net i).messages.roundChangeMessages.Stores (m.view, a) (m, flag)

variable {S} {net : Network ι} [DecidableEq ι] {heights : ι → UInt64}

omit [DecidableEq ι] in
theorem origin_of_stored {i : ι} (hinv : (net i).Inv (S.config i)) {a : Address} {m : IBFTMessage}
    (h : S.Stored net i a m) : Origin (S.config i) (net i).knowledge m a := by
  cases m with
  | proposal p =>
    obtain ⟨hstored, rfl⟩ := h
    obtain ⟨-, b, horigin⟩ := hinv.store.proposal _ _ hstored
    have hproposer : b = S.proposer p.view := by
      apply (S.isProposer_iff _ _).mp
      cases horigin with
      | peer _ _ _ hadm => exact hadm
      | own heq hsent =>
        have hown : OwnProposal (S.config i) p := hinv.actions _ hsent
        rw [heq]
        exact hown.isProposer
    exact hproposer ▸ horigin
  | prepare m => exact (hinv.store.prepare _ _ _ h).2
  | commit m => exact (hinv.store.commit _ _ _ h).2
  | roundChange m =>
    obtain ⟨flag, hstored⟩ := h
    exact (hinv.store.roundChange _ _ _ _ hstored).2

/-- What an honest validator broadcasts has the block it has signed. -/
theorem hasSignedBlock_of_broadcast (hreach : Reachable S.step (S.init heights) net) {j : ι}
    {m : IBFTMessage} (hm : .broadcast m ∈ (net j).history) : m.HasSignedBlock S.crypto := by
  cases m with
  | proposal p =>
    have hown : OwnProposal (S.config j) p := (inv_node hreach j).actions _ hm
    exact hown.verifyBlockDigest
  | roundChange rc =>
    obtain ⟨run, hrun, hlog⟩ := List.mem_flatMap.mp hm
    have hchecked :=
      Node.checkedInv_of_reachable S.uniqueProposer.soleProposer (reachable_node hreach j)
    exact hchecked.boundBlock hrun hlog
  | prepare | commit => exact trivial

/-- **Authenticity.**  A message that a node holds under the address of an honest validator agrees
with a message that this validator has broadcast, in every signed field and, if its block has the
signed digest, in the block. -/
theorem stored_authentic (hreach : Reachable S.step (S.init heights) net)
    (hfree : S.crypto.CollisionFree net.hashed) {i j : ι} {m : IBFTMessage}
    (hstored : S.Stored net i (S.address j) m) :
    ∃ m', .broadcast m' ∈ (net j).history ∧ m.SameSigned S.crypto m' := by
  cases origin_of_stored (inv_node hreach i) hstored with
  | peer hrecv _ hrec _ =>
    have hseen : m ∈ (net i).seen := Node.mem_seen.mpr (Or.inl hrecv)
    obtain ⟨m', hm', hcontent⟩ := broadcast_of_content hreach hfree subset_rfl
      ⟨i, m, hseen, m.content_mem_hashed⟩ hrec
      (unforged_of_received hreach hrecv List.mem_cons_self)
    have hseen' : m' ∈ (net j).seen := Node.mem_seen.mpr (Or.inr hm')
    refine ⟨m', hm', IBFTMessage.sameSigned_of_content_eq hfree ?_ ?_ hcontent.symm ?_⟩
    · exact fun x hx => ⟨i, m, hseen, IBFTMessage.block_mem_hashed hx⟩
    · exact fun x hx => ⟨j, m', hseen', IBFTMessage.block_mem_hashed hx⟩
    · exact hasSignedBlock_of_broadcast hreach hm'
  | own heq hsent =>
    obtain rfl : j = i := S.address_injective heq
    exact ⟨m, hsent, .refl _ _⟩

omit [DecidableEq ι] in
/-- **Unsigned fields are open.**  Whoever alters a message in fields that are not signed can have
the network deliver it, as long as what it carries is no forgery, and every handler treats it as the
original. -/
theorem altered_admitted {m m' : IBFTMessage} (hm : S.Authentic net m)
    (hcontent : m.content = m'.content) (hsig : m.signature = m'.signature)
    (hcarried : ∀ a ∈ m'.carried, S.Unforged net a.1 (a.2.digest S.crypto)) :
    S.Authentic net m' ∧ ∀ i finalized, checkConsensusMessage (S.config i) finalized m' =
      checkConsensusMessage (S.config i) finalized m := by
  refine ⟨fun e he => ?_, fun i finalized => ?_⟩
  · rcases List.mem_append.mp he with he | he
    · obtain ⟨a, ha, rfl⟩ := List.mem_map.mp he
      rcases List.mem_cons.mp ha with rfl | ha
      · have hsigned := hm (m.signature, m.content.digest S.crypto)
          (List.mem_append_left _ List.mem_cons_self)
        rw [hcontent, hsig] at hsigned
        exact hsigned
      · exact hcarried a ha
    · rw [← IBFTMessage.seals_of_content_eq hcontent] at he
      exact hm e (List.mem_append_right _ he)
  · exact (checkConsensusMessage_of_content_eq hcontent hsig).symm

variable (S) in
/-- What a node holds under the address of an honest validator is, in every field, a message that
this validator has broadcast. -/
def StoredUnaltered (net : Network ι) : Prop :=
  ∀ i j m, S.Stored net i (S.address j) m →
    ∃ m', .broadcast m' ∈ (net j).history ∧ m.SameFields m'

end Deployment

/-! ## A swapped block -/

/-- The network once the first validator has received the proposal with the swapped block. -/
def tamperedNetwork : Network (Fin 2) :=
  (exec duoDeployment.step (duoDeployment.init fun _ => 0) tamperedEvents).get (by decide +kernel)

theorem tamperedNetwork_reachable :
    Reachable duoDeployment.step (duoDeployment.init fun _ => 0) tamperedNetwork :=
  reachable_get _

theorem tamperedNetwork_collisionFree : modelCrypto.CollisionFree tamperedNetwork.hashed :=
  Network.collisionFree_of_nodup (by decide +kernel)

/-- The swapped block is held as the proposal of the second validator. -/
theorem tamperedProposal_stored : duoDeployment.Stored tamperedNetwork 0 (duoDeployment.address 1)
    (.proposal tamperedProposal) :=
  ⟨by decide +kernel, by decide +kernel⟩

/-- It has the view and the digest of the proposal that the validator has broadcast. -/
theorem stored_authentic_tampered : ∃ m', .broadcast m' ∈ (tamperedNetwork 1).history ∧
    (IBFTMessage.proposal tamperedProposal).SameSigned modelCrypto m' :=
  Deployment.stored_authentic tamperedNetwork_reachable tamperedNetwork_collisionFree
    tamperedProposal_stored

/-- But the validator has broadcast no proposal of this block. -/
theorem not_storedUnaltered_tampered :
    Reachable duoDeployment.step (duoDeployment.init fun _ => 0) tamperedNetwork ∧
      modelCrypto.CollisionFree tamperedNetwork.hashed ∧
      ¬ duoDeployment.StoredUnaltered tamperedNetwork := by
  refine ⟨tamperedNetwork_reachable, tamperedNetwork_collisionFree, fun hunaltered => ?_⟩
  obtain ⟨m, hm, hsame⟩ := hunaltered 0 1 _ tamperedProposal_stored
  have hnone : ∀ m ∈ (tamperedNetwork 1).history.filterMap Action.message?,
      ¬ (IBFTMessage.proposal tamperedProposal).SameFields m := by
    decide +kernel
  exact hnone m (List.mem_filterMap.mpr ⟨_, hm, rfl⟩) hsame

end Tonic
