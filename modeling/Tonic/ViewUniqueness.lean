/-
# One digest for a view

The honest nodes of a network vote by the rules of `QuorumVoting`: a prepared certificate,
or the prepares behind a commit, are the votes of all its signers and of the proposer,
who has signed the proposal instead of a prepare.  Together they are a quorum, so all
certificates and commits of a view are for one digest, whatever a Byzantine proposer signs.
-/
import Tonic.ModelNetwork
import Tonic.QuorumVoting
import Tonic.RelatedLists

namespace Tonic

open Transition RelatedLists

theorem View.eq_of_toNat {v w : View} (hheight : v.height = w.height)
    (hround : v.round.toNat = w.round.toNat) : v = w := by
  cases v
  cases w
  cases hheight
  cases UInt8.toNat_inj.mp hround
  rfl

namespace Deployment

variable {ι : Type} [Fintype ι] (S : Deployment ι)

/-! ## The votes of a height -/

/-- The validators of a height that are not honest nodes. -/
def byzantine (height : UInt64) : Finset Address :=
  S.validators height \ Finset.univ.image S.address

/-- The validators of a height with their quorum. -/
def quorumSystem (height : UInt64) : QuorumSystem Address :=
  .ofTwoThirds Address (S.validators height) (S.byzantine height)
    (Finset.card_pos.mpr ⟨_, S.proposer_mem { height, round := 0 }⟩) (S.byzantine_le height)

/-- The message was broadcast for the round of the height by the honest validator with the
address. -/
def Sent (net : Network ι) (height : UInt64) (round : ℕ) (a : Address) (m : IBFTMessage) : Prop :=
  ∃ i, S.address i = a ∧ a ∈ S.validators height ∧ .broadcast m ∈ (net i).history ∧
    m.view.height = height ∧ m.view.round.toNat = round

/-- The round and the digest of the certificate that a round change carries. -/
def latestCertificate (certificate : Option PreparedCertificate) : Option (ℕ × Digest) :=
  certificate.map fun pc => (pc.proposalMeta.view.round.toNat, pc.proposalMeta.proposedBlockDigest)

/-- What the honest validators have broadcast for a height. -/
def votes (net : Network ι) (height : UInt64) : Votes Address Digest where
  proposed round a d := ∃ m, S.Sent net height round a (.proposal m) ∧ m.proposedBlockDigest = d
  prepared round a d := ∃ m, S.Sent net height round a (.prepare m) ∧ m.proposedBlockDigest = d
  committed round a d := ∃ m, S.Sent net height round a (.commit m) ∧ m.proposedBlockDigest = d
  announced round a latest := ∃ m, S.Sent net height round a (.roundChange m) ∧
    latest = latestCertificate
      (m.latestPreparedProposed.map PreparedProposed.preparedCertificate)

variable {S} {net : Network ι} {height : UInt64}

theorem quorum_quorumSystem (height : UInt64) :
    (S.quorumSystem height).quorum = S.validatorManager.quorum height :=
  (S.quorum_eq height).symm

/-- A validator that is not Byzantine is an honest node. -/
theorem exists_node {a : Address} (hmem : a ∈ S.validators height)
    (hhonest : a ∉ S.byzantine height) : ∃ i, S.address i = a := by
  simp only [byzantine, Finset.mem_sdiff, not_and, not_not] at hhonest
  simpa using hhonest hmem

/-! ## The only run of a height -/

/-- What a node has done at a height that it has run once is in one log. -/
theorem exists_run (hinv : (net i).Inv (S.config i)) (honce : (net i).RunsOnce height)
    {a b : Action} (ha : a ∈ (net i).history) (hb : b ∈ (net i).history)
    (hheight : a.height = height) (hheight' : b.height = height) :
    ∃ run ∈ (net i).runs, run.height = height ∧ a ∈ run.log ∧ b ∈ run.log := by
  obtain ⟨run, hrun, ha⟩ := List.mem_flatMap.mp ha
  obtain ⟨run', hrun', hb⟩ := List.mem_flatMap.mp hb
  have hrunHeight := ((hinv.logOk hrun).height_eq a ha).symm.trans hheight
  have hrunHeight' := ((hinv.logOk hrun').height_eq b hb).symm.trans hheight'
  rw [honce.eq hrun' hrun hrunHeight' hrunHeight] at hb
  exact ⟨run, hrun, hrunHeight, ha, hb⟩

variable [DecidableEq ι] {heights : ι → UInt64}

/-- Two votes of a validator in a round are for one digest. -/
theorem digest_unique (hreach : Reachable S.step (S.init heights) net)
    (honce : ∀ i, (net i).RunsOnce height) {round : ℕ} {a : Address} {m m' : IBFTMessage}
    (hm : S.Sent net height round a m) (hm' : S.Sent net height round a m') {v w : Vote}
    (hv : m.vote? = some v) (hw : m'.vote? = some w) : v.digest = w.digest := by
  obtain ⟨i, hi, -, hsent, hheight, hround⟩ := hm
  obtain ⟨j, hj, -, hsent', hheight', hround'⟩ := hm'
  obtain rfl : i = j := S.address_injective (hi.trans hj.symm)
  have hinv := inv_node hreach i
  obtain ⟨run, hrun, -, hlog, hlog'⟩ := exists_run hinv (honce i) hsent hsent' hheight hheight'
  have hview : m'.view = m.view :=
    View.eq_of_toNat (hheight'.trans hheight.symm) (hround'.trans hround.symm)
  exact ((hinv.logOk hrun).votes m.view).digest_unique (mem_votesAt.mpr ⟨m, hlog, rfl, hv⟩)
    (mem_votesAt.mpr ⟨m', hlog', hview, hw⟩)

/-! ## Certificates -/

omit [DecidableEq ι] in
/-- The proposer and enough others who prepared the digest certify it. -/
theorem certified_of_signers {view : View} {d : Digest} (hheight : view.height = height)
    {signers : List Address} (hnodup : signers.Nodup)
    (hlen : S.validatorManager.quorum height - 1 ≤ signers.length)
    (hproposed : ∀ i, S.address i = S.proposer view → ∃ m, .broadcast (.proposal m) ∈
      (net i).history ∧ m.view = view ∧ m.proposedBlockDigest = d)
    (hprepared : ∀ a ∈ signers, a ∈ S.validators height ∧ a ≠ S.proposer view ∧
      ∀ i, S.address i = a → ∃ m, .broadcast (.prepare m) ∈ (net i).history ∧ m.view = view ∧
        m.proposedBlockDigest = d) :
    (S.votes net height).Certified (S.quorumSystem height) view.round.toNat d := by
  subst hheight
  have hproposer := S.proposer_mem view
  refine ⟨insert (S.proposer view) signers.toFinset, ⟨?_, ?_⟩, fun a ha hhonest => ?_⟩
  · refine Finset.insert_subset hproposer fun a ha => ?_
    exact (hprepared a (List.mem_toFinset.mp ha)).1
  · have hnot : S.proposer view ∉ signers.toFinset := fun hmem =>
      (hprepared _ (List.mem_toFinset.mp hmem)).2.1 rfl
    rw [Finset.card_insert_of_notMem hnot, List.toFinset_card_of_nodup hnodup,
      quorum_quorumSystem]
    omega
  · rcases Finset.mem_insert.mp ha with rfl | ha
    · obtain ⟨i, hi⟩ := exists_node hproposer hhonest
      obtain ⟨m, hm, rfl, hd⟩ := hproposed i hi
      exact Or.inl ⟨m, ⟨i, hi, hproposer, hm, rfl, rfl⟩, hd⟩
    · obtain ⟨hmem, -, hsent⟩ := hprepared a (List.mem_toFinset.mp ha)
      obtain ⟨i, hi⟩ := exists_node hmem hhonest
      obtain ⟨m, hm, rfl, hd⟩ := hsent i hi
      exact Or.inr ⟨m, ⟨i, hi, hmem, hm, rfl, rfl⟩, hd⟩

section Signed

variable {contents : Set SignedContent} {i : ι} {s : Signature} {view : View} {d : Digest}

/-- An honest signature over a proposal is one of a proposal that was broadcast. -/
theorem proposal_of_unforged (hreach : Reachable S.step (S.init heights) net)
    (hfree : S.crypto.CollisionFree contents) (hsub : net.hashed ⊆ contents)
    (hx : .proposal view d ∈ contents)
    (hrec : S.crypto.recoverFromPrehash s (digestProposal S.crypto view d) = .ok (S.address i))
    (hunforged : S.Unforged net s (digestProposal S.crypto view d)) :
    ∃ m, .broadcast (.proposal m) ∈ (net i).history ∧ m.view = view ∧
      m.proposedBlockDigest = d := by
  rcases broadcast_of_unforged hreach hfree hsub hx hrec hunforged with
    ⟨m, hm, hcontent⟩ | ⟨b, r, m, hcontent, -⟩
  · cases m with
    | proposal m =>
      obtain ⟨hview, hd⟩ := SignedContent.proposal.inj hcontent
      exact ⟨m, hm, hview, hd⟩
    | prepare | commit | roundChange => cases hcontent
  · cases hcontent

/-- An honest signature over a prepare is one of a prepare that was broadcast. -/
theorem prepare_of_unforged (hreach : Reachable S.step (S.init heights) net)
    (hfree : S.crypto.CollisionFree contents) (hsub : net.hashed ⊆ contents)
    (hx : .prepare view d ∈ contents)
    (hrec : S.crypto.recoverFromPrehash s (digestPrepare S.crypto view d) = .ok (S.address i))
    (hunforged : S.Unforged net s (digestPrepare S.crypto view d)) :
    ∃ m, .broadcast (.prepare m) ∈ (net i).history ∧ m.view = view ∧
      m.proposedBlockDigest = d := by
  rcases broadcast_of_unforged hreach hfree hsub hx hrec hunforged with
    ⟨m, hm, hcontent⟩ | ⟨b, r, m, hcontent, -⟩
  · cases m with
    | prepare m =>
      obtain ⟨hview, hd⟩ := SignedContent.prepare.inj hcontent
      exact ⟨m, hm, hview, hd⟩
    | proposal | commit | roundChange => cases hcontent
  · cases hcontent

/-- An honest signature over a commit is one of a commit that was broadcast. -/
theorem commit_of_unforged (hreach : Reachable S.step (S.init heights) net)
    (hfree : S.crypto.CollisionFree contents) (hsub : net.hashed ⊆ contents)
    {commitSeal : Signature} (hx : .commit view d commitSeal ∈ contents)
    (hrec : S.crypto.recoverFromPrehash s (digestCommit S.crypto view d commitSeal) =
      .ok (S.address i))
    (hunforged : S.Unforged net s (digestCommit S.crypto view d commitSeal)) :
    ∃ m, .broadcast (.commit m) ∈ (net i).history ∧ m.view = view ∧
      m.proposedBlockDigest = d ∧ m.commitSeal = commitSeal := by
  rcases broadcast_of_unforged hreach hfree hsub hx hrec hunforged with
    ⟨m, hm, hcontent⟩ | ⟨b, r, m, hcontent, -⟩
  · cases m with
    | commit m =>
      obtain ⟨hview, hd, hseal⟩ := SignedContent.commit.inj hcontent
      exact ⟨m, hm, hview, hd, hseal⟩
    | proposal | prepare | roundChange => cases hcontent
  · cases hcontent

/-- An honest signature over a round change is one of a round change that was broadcast. -/
theorem roundChange_of_unforged (hreach : Reachable S.step (S.init heights) net)
    (hfree : S.crypto.CollisionFree contents) (hsub : net.hashed ⊆ contents)
    {certificate : Option PreparedCertificate} (hx : .roundChange view certificate ∈ contents)
    (hrec : S.crypto.recoverFromPrehash s (digestRoundChange S.crypto view certificate) =
      .ok (S.address i))
    (hunforged : S.Unforged net s (digestRoundChange S.crypto view certificate)) :
    ∃ m, .broadcast (.roundChange m) ∈ (net i).history ∧ m.view = view ∧
      m.latestPreparedProposed.map PreparedProposed.preparedCertificate = certificate := by
  rcases broadcast_of_unforged hreach hfree hsub hx hrec hunforged with
    ⟨m, hm, hcontent⟩ | ⟨b, r, m, hcontent, -⟩
  · cases m with
    | roundChange m =>
      obtain ⟨hview, hcert⟩ := SignedContent.roundChange.inj hcontent
      exact ⟨m, hm, hview, hcert⟩
    | proposal | prepare | commit => cases hcontent
  · cases hcontent

end Signed

/-- The signatures of a certificate are no forgeries. -/
def AuthenticCertificate (S : Deployment ι) (net : Network ι) (pc : PreparedCertificate) : Prop :=
  ∀ a ∈ pc.attestations, S.Unforged net a.1 (a.2.digest S.crypto)

/-- An accepted certificate is one. -/
theorem certified_of_validCertificate (hreach : Reachable S.step (S.init heights) net)
    {contents : Set SignedContent} (hfree : S.crypto.CollisionFree contents)
    (hsub : net.hashed ⊆ contents) {cfg : Config} (hcrypto : cfg.crypto = S.crypto)
    (hmanager : cfg.validatorManager = S.validatorManager) {pc : PreparedCertificate}
    {roundLimit : UInt8} (hvalid : ValidCertificate cfg pc height roundLimit)
    (hauth : S.AuthenticCertificate net pc) (hcontents : ∀ a ∈ pc.attestations, a.2 ∈ contents) :
    (S.votes net height).Certified (S.quorumSystem height) pc.proposalMeta.view.round.toNat
      pc.proposalMeta.proposedBlockDigest := by
  obtain ⟨proposer, signers, hrec, hprop, hlen, hnodup, hall⟩ := hvalid.proposed
  rw [hmanager] at hprop hlen
  rw [hcrypto] at hrec
  obtain rfl := (S.isProposer_iff _ _).mp hprop
  refine certified_of_signers hvalid.height_eq hnodup (hall.length_eq ▸ hlen) (fun i hi => ?_)
    (fun a ha => ?_)
  · exact proposal_of_unforged hreach hfree hsub (hcontents _ List.mem_cons_self)
      (hi ▸ hrec) (hauth _ List.mem_cons_self)
  · obtain ⟨m, hm, hcount⟩ := exists_mem_left_of_forall₂ hall ha
    refine ⟨?_, hcount.ne_proposer, fun i hi => ?_⟩
    · rw [← hvalid.height_eq, ← S.isValidator_iff, ← hmanager]
      exact hcount.isValidator
    · have hattested : m.attestation ∈ pc.attestations :=
        List.mem_cons_of_mem _ (List.mem_map_of_mem hm)
      obtain ⟨m', hm', hview, hd⟩ := prepare_of_unforged hreach hfree hsub
        (hcontents _ hattested) (hi ▸ hcrypto ▸ hcount.recover) (hauth _ hattested)
      exact ⟨m', hm', hview.trans hcount.view_eq, hd.trans hcount.digest_eq⟩

/-- A vote for the proposal of a view is one of an honest proposer, if the proposer is honest. -/
theorem proposed_of_votedFor (hreach : Reachable S.step (S.init heights) net)
    (hfree : S.crypto.CollisionFree net.hashed) {i : ι} {view : View} {d : Digest}
    (hvoted : VotedFor (S.config i) (net i).knowledge view d) {j : ι}
    (hj : S.address j = S.proposer view) :
    ∃ m, .broadcast (.proposal m) ∈ (net j).history ∧ m.view = view ∧
      m.proposedBlockDigest = d := by
  have hinv := inv_node hreach i
  rcases hvoted with ⟨p, hsent, rfl, hd⟩ | hsent
  · have hown : OwnProposal (S.config i) p := hinv.actions _ hsent
    have hi : S.address i = S.proposer p.view := (S.isProposer_iff _ _).mp hown.isProposer
    obtain rfl : i = j := S.address_injective (hi.trans hj.symm)
    exact ⟨p, hsent, rfl, hd⟩
  · have hown : OwnPrepare (S.config i) (net i).knowledge _ := hinv.actions _ hsent
    obtain ⟨p, proposer, hview, hd, hrecv, hrec, hprop, -⟩ := hown.accepted
    obtain rfl := (S.isProposer_iff _ _).mp hprop
    change p.view = view at hview
    change p.proposedBlockDigest = d at hd
    subst hview hd
    exact proposal_of_unforged hreach hfree subset_rfl
      ⟨i, _, Node.mem_seen.mpr (Or.inl hrecv), IBFTMessage.content_mem_hashed _⟩ (hj ▸ hrec)
      (unforged_of_received hreach hrecv List.mem_cons_self)

/-- A collected prepare is one that its sender has broadcast, if the sender is honest. -/
theorem prepared_of_collected (hreach : Reachable S.step (S.init heights) net)
    (hfree : S.crypto.CollisionFree net.hashed) {i : ι}
    (hmem : S.address i ∈ S.validators height) {view : View} (hheight : view.height = height)
    {d : Digest} {entries : List (Address × PrepareMessageSigned)}
    (h : Collected (S.config i) (net i).knowledge IBFTMessage.prepare
      (fun m => m.view = view ∧ m.proposedBlockDigest = d) entries)
    {e : Address × PrepareMessageSigned} (he : e ∈ entries) :
    e.1 ∈ S.validators height ∧ e.1 ≠ S.proposer view ∧
      ∀ j, S.address j = e.1 → ∃ m, .broadcast (.prepare m) ∈ (net j).history ∧ m.view = view ∧
        m.proposedBlockDigest = d := by
  subst hheight
  obtain ⟨horigin, rfl, rfl⟩ := h.origin e he
  have hne : ∀ {a}, S.validatorManager.isProposer a e.2.view = false →
      a ≠ S.proposer e.2.view := by
    intro a ha heq
    rw [(S.isProposer_iff _ _).mpr heq] at ha
    cases ha
  cases horigin with
  | peer hrecv _ hrec hadm =>
    refine ⟨(S.isValidator_iff _ _).mp hadm.1, hne hadm.2, fun j hj => ?_⟩
    exact prepare_of_unforged hreach hfree subset_rfl
      ⟨i, _, Node.mem_seen.mpr (Or.inl hrecv), IBFTMessage.content_mem_hashed _⟩ (hj ▸ hrec)
      (unforged_of_received hreach hrecv List.mem_cons_self)
  | own heq hsent =>
    have hown : OwnPrepare (S.config i) (net i).knowledge e.2 := (inv_node hreach i).actions _ hsent
    rw [heq]
    refine ⟨hmem, hne hown.not_proposer, fun j hj => ?_⟩
    obtain rfl : j = i := S.address_injective hj
    exact ⟨e.2, hsent, rfl, rfl⟩

/-- **The rules of voting within a round** hold of the honest nodes of a network. -/
theorem roundRules (hreach : Reachable S.step (S.init heights) net)
    (hfree : S.crypto.CollisionFree net.hashed) (honce : ∀ i, (net i).RunsOnce height) :
    (S.votes net height).RoundRules (S.quorumSystem height) where
  vote_unique round a d d' _ hd hd' := by
    rcases hd with ⟨m, hm, rfl⟩ | ⟨m, hm, rfl⟩ <;> rcases hd' with ⟨m', hm', rfl⟩ | ⟨m', hm', rfl⟩
    all_goals exact digest_unique hreach honce hm hm' rfl rfl
  certified_of_committed round a d _ hcommitted := by
    obtain ⟨m, ⟨i, rfl, hmem, hsent, hheight, rfl⟩, rfl⟩ := hcommitted
    have hown : OwnCommit (S.config i) (net i).knowledge m := (inv_node hreach i).actions _ hsent
    obtain ⟨entries, hcollected, hlen⟩ := hown.prepared
    have hheight' : m.view.height = height := hheight
    refine certified_of_signers hheight' hcollected.senders ?_
      (fun j hj => proposed_of_votedFor hreach hfree hown.voted hj) (fun a ha => ?_)
    · rw [List.length_map, ← hheight']
      exact hlen
    · obtain ⟨e, he, rfl⟩ := List.mem_map.mp ha
      exact prepared_of_collected hreach hfree hmem hheight' hcollected he

/-! ## Uniqueness -/

/-- What settles the digest of a view: a prepared certificate, or the commit of an honest
validator. -/
inductive Evidence (ι : Type) where
  | certificate (pc : PreparedCertificate) (height : UInt64) (roundLimit : UInt8)
  | commit (i : ι) (m : CommitMessageSigned)

namespace Evidence

omit [Fintype ι] [DecidableEq ι]

def view : Evidence ι → View
  | .certificate pc _ _ => pc.proposalMeta.view
  | .commit _ m => m.view

def digest : Evidence ι → Digest
  | .certificate pc _ _ => pc.proposalMeta.proposedBlockDigest
  | .commit _ m => m.proposedBlockDigest

/-- What is hashed to check the evidence. -/
def hashed : Evidence ι → Set SignedContent
  | .certificate pc _ _ => {x | ∃ a ∈ pc.attestations, a.2 = x}
  | .commit _ _ => ∅

end Evidence

/-- The certificate is accepted and not forged; the commit was broadcast. -/
def Holds (S : Deployment ι) (net : Network ι) : Evidence ι → Prop
  | .certificate pc height roundLimit =>
    (∃ i, verifyPreparedCertificate (S.config i) pc height roundLimit = true) ∧
      S.AuthenticCertificate net pc
  | .commit i m => S.address i ∈ S.validators m.view.height ∧
      .broadcast (.commit m) ∈ (net i).history

theorem certified_of_holds (hreach : Reachable S.step (S.init heights) net) {e : Evidence ι}
    (honce : ∀ i, (net i).RunsOnce e.view.height) {contents : Set SignedContent}
    (hfree : S.crypto.CollisionFree contents) (hsub : net.hashed ⊆ contents)
    (hcontents : e.hashed ⊆ contents) (h : S.Holds net e) :
    (S.votes net e.view.height).Certified (S.quorumSystem e.view.height) e.view.round.toNat
      e.digest := by
  cases e with
  | certificate pc height roundLimit =>
    obtain ⟨⟨i, hi⟩, hauth⟩ := h
    have hvalid := verifyPreparedCertificate_iff.mp hi
    have hheight : pc.proposalMeta.view.height = height := hvalid.height_eq
    subst hheight
    exact certified_of_validCertificate hreach hfree hsub rfl rfl hvalid hauth
      (fun a ha => hcontents ⟨a, ha, rfl⟩)
  | commit i m =>
    refine (roundRules hreach (hfree.mono hsub) honce).certified_of_committed _ (S.address i) _
      ?_ ⟨m, ⟨i, rfl, h.1, h.2, rfl, rfl⟩, rfl⟩
    simp [byzantine, quorumSystem, QuorumSystem.ofTwoThirds]

/-- **Uniqueness within a view.**  Accepted certificates and honest commits of one view are for one
digest. -/
theorem digest_eq_of_view_eq (hreach : Reachable S.step (S.init heights) net) {e e' : Evidence ι}
    (honce : ∀ i, (net i).RunsOnce e.view.height) (he : S.Holds net e) (he' : S.Holds net e')
    (hview : e.view = e'.view)
    (hfree : S.crypto.CollisionFree (net.hashed ∪ e.hashed ∪ e'.hashed)) :
    e.digest = e'.digest := by
  have hsub : net.hashed ⊆ net.hashed ∪ e.hashed ∪ e'.hashed :=
    Set.subset_union_left.trans Set.subset_union_left
  have hcert := certified_of_holds hreach honce hfree hsub
    (Set.subset_union_right.trans Set.subset_union_left) he
  have hcert' := certified_of_holds hreach (hview ▸ honce) hfree hsub Set.subset_union_right he'
  rw [← hview] at hcert'
  exact hcert.unique (roundRules hreach (hfree.mono hsub) honce) hcert'

end Deployment

/-- The certificate of the two validators: one of them proposes, the other prepares. -/
def duoCertificate : PreparedCertificate :=
  (PreparedProposed.new duoProposal [duoPrepare]).preparedCertificate

/-- The certificate and the commit of the first validator are for one digest. -/
theorem digest_eq_of_view_eq_duo :
    (Deployment.Evidence.certificate duoCertificate 1 1 : Deployment.Evidence (Fin 2)).digest =
      (Deployment.Evidence.commit 0 (duoCommit 0) : Deployment.Evidence (Fin 2)).digest := by
  have hcontents : ∀ a ∈ duoCertificate.attestations, a.2 ∈ duoNetwork.contents := by
    decide +kernel
  have hfree : modelCrypto.CollisionFree (duoNetwork.hashed ∪
      (Deployment.Evidence.certificate duoCertificate 1 1 : Deployment.Evidence (Fin 2)).hashed ∪
      (Deployment.Evidence.commit 0 (duoCommit 0) : Deployment.Evidence (Fin 2)).hashed) := by
    refine duoNetwork_collisionFree.mono (Set.union_subset (Set.union_subset subset_rfl ?_) ?_)
    · rintro - ⟨a, ha, rfl⟩
      exact Network.mem_contents.mp (hcontents a ha)
    · exact Set.empty_subset _
  have hcertificate : duoDeployment.Holds duoNetwork (.certificate duoCertificate 1 1) := by
    refine ⟨⟨0, by decide +kernel⟩, ?_⟩
    unfold Deployment.AuthenticCertificate
    decide +kernel
  have hcommit : duoDeployment.Holds duoNetwork (.commit 0 (duoCommit 0)) :=
    ⟨by decide +kernel, by decide +kernel⟩
  exact Deployment.digest_eq_of_view_eq duoNetwork_reachable duoNetwork_runsOnce hcertificate
    hcommit (by decide +kernel) hfree

end Tonic
