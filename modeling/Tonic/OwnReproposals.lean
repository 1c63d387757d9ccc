/-
# What honest proposers propose again

The proposer of a later round takes a quorum of verified round changes out of its store.  So
whatever an honest node proposes in a later round goes with round changes that a verifier accepts:
they were checked when they were taken, and the own one would pass the check.  And whatever an
honest node broadcasts carries only signatures that somebody made: those of messages it has
received, and its own.  The network may deliver it everywhere, and where the block with the
highest certificate comes first it is accepted everywhere.
-/
import Tonic.BoundedBroadcasts
import Tonic.ExternalValidity
import Tonic.HonestMessages

namespace Tonic

open Transition RelatedLists

variable {cfg : Config} {n n' : Node} {msgs msgs' : ConsensusMessages} {run run' : Run}
  {ev : Event} {K K' : Knowledge}

/-! ## Round changes taken from the store -/

/-- Taken round changes are entries of the store, each of another sender, marked or verified now. -/
theorem ConsensusMessages.taken_entries {env : Env} {view : View}
    {f : RoundChangeMessageSigned → Bool} {quorum : ℕ} {rcs : List RoundChangeMessageSigned}
    (h : (msgs.takeValidRoundChangeMessages env view f quorum).1.1 = some rcs) :
    ∃ entries : List (Address × RoundChangeMessageSigned),
      rcs = entries.map Prod.snd ∧ (entries.map Prod.fst).Nodup ∧ quorum ≤ entries.length ∧
      ∀ e ∈ entries, ∃ flag, msgs.roundChangeMessages.Stores (view, e.1) (e.2, flag) ∧
        (flag = true ∨ f e.2 = true) := by
  let stored := viewEntries (msgs.retainVerified view f) view
  let sorted := stored.insertionSort fun a b => env.hashRank a.1 ≤ env.hashRank b.1
  have hperm : sorted.Perm stored := List.perm_insertionSort _ _
  unfold takeValidRoundChangeMessages at h
  simp only at h
  split at h
  next hquorum =>
    refine ⟨sorted.map fun e => (e.1, e.2.1), ?_, ?_, ?_, ?_⟩
    · rw [← Option.some.inj h, Env.intoValues, List.map_map, List.map_map]
      rfl
    · rw [List.map_map]
      exact (hperm.map _).nodup_iff.mpr nodup_viewEntries
    · rw [List.length_map, hperm.length_eq]
      exact hquorum
    · intro e he
      obtain ⟨e', he', rfl⟩ := List.mem_map.mp he
      have hmem := hperm.mem_iff.mp he'
      rcases verified_of_mem_retainVerified hmem with hst | hok
      · exact ⟨true, hst, Or.inl rfl⟩
      · obtain ⟨flag, hst⟩ := stores_of_mem_retainVerified hmem
        exact ⟨flag, hst, Or.inr hok⟩
  next => cases h

variable (cfg) in
/-- Round changes for a view that verifiers accept, each of which the node has received or
broadcast. -/
structure GatheredRoundChanges (K : Knowledge) (view : View)
    (rcs : List RoundChangeMessageSigned) : Prop where
  taken : TakenRoundChanges cfg view rcs
  origin : ∀ rc ∈ rcs, ∃ a, Origin cfg K (.roundChange rc) a

theorem GatheredRoundChanges.mono {view : View} {rcs : List RoundChangeMessageSigned}
    (hK : K ≤ K') (h : GatheredRoundChanges cfg K view rcs) :
    GatheredRoundChanges cfg K' view rcs where
  taken := h.taken
  origin rc hrc := by
    obtain ⟨a, ha⟩ := h.origin rc hrc
    exact ⟨a, ha.mono hK⟩

/-- A round change of a validator that a node has received or broadcast is signed by it. -/
theorem Origin.signed {rc : RoundChangeMessageSigned} {a : Address}
    (h : Origin cfg K (.roundChange rc) a) (hactions : ∀ a ∈ K.history, ActionOk cfg K a)
    (hself : cfg.validatorManager.isValidator cfg.address rc.view.height = true) :
    rc.recoverSigner cfg.crypto = .ok a ∧
      cfg.validatorManager.isValidator a rc.view.height = true := by
  cases h with
  | peer _ _ hrecover hadmissible => exact ⟨hrecover, hadmissible.1⟩
  | own heq hsent =>
    subst heq
    exact ⟨(hactions _ hsent).recoverSigner, hself⟩

/-- The round changes that a validator takes for a view of its run. -/
theorem Node.CheckedInv.gathered (h : n.CheckedInv cfg) (hmarked : MarkedInv cfg n.messages)
    {env : Env} {view : View}
    (hself : cfg.validatorManager.isValidator cfg.address view.height = true)
    {rcs : List RoundChangeMessageSigned}
    (htaken : (n.messages.takeValidRoundChangeMessages env view
      (Tonic.roundChangeVerifyFn cfg view.height)
      (cfg.validatorManager.quorum view.height)).1.1 = some rcs) :
    GatheredRoundChanges cfg n.knowledge view rcs := by
  obtain ⟨entries, rfl, hnodup, hquorum, hentries⟩ := ConsensusMessages.taken_entries htaken
  -- An entry was verified just now, or was marked when it was verified before.
  have hentry : ∀ e ∈ entries, e.2.view = view ∧ Origin cfg n.knowledge (.roundChange e.2) e.1 ∧
      Tonic.roundChangeVerifyFn cfg view.height e.2 = true := by
    intro e he
    obtain ⟨flag, hst, hverified⟩ := hentries e he
    obtain ⟨hview, horigin⟩ := h.inv.store.roundChange _ _ _ _ hst
    refine ⟨hview, horigin, ?_⟩
    rcases hverified with rfl | hok
    · rcases hmarked.marked _ _ _ hst with hown | hok
      · -- A marked round change of the node itself was not checked, but it would pass.
        cases horigin with
        | peer _ hne => exact absurd hown hne
        | own _ hsent =>
          rw [← hview]
          exact h.roundChangeVerifyFn_of_validator hsent (hview ▸ hself)
      · exact hok
    · exact hok
  constructor
  · refine ⟨by rw [List.length_map]; exact hquorum, ⟨entries.map Prod.fst, hnodup, ?_⟩, ?_⟩
    · rw [List.forall₂_map_left_iff, List.forall₂_map_right_iff, List.forall₂_same]
      intro e he
      obtain ⟨hview, horigin, -⟩ := hentry e he
      obtain ⟨hsigned, hvalidator⟩ := horigin.signed h.inv.actions (hview ▸ hself)
      exact ⟨hview, hsigned, hview ▸ hvalidator⟩
    · intro rc hrc
      obtain ⟨e, he, rfl⟩ := List.mem_map.mp hrc
      exact (hentry e he).2.2
  · intro rc hrc
    obtain ⟨e, he, rfl⟩ := List.mem_map.mp hrc
    exact ⟨e.1, (hentry e he).2.1⟩

/-! ## Proposals of later rounds -/

variable (cfg) in
/-- The proposal lists gathered round changes and proposes the first block that one of them has
prepared. -/
def Gathered (K : Knowledge) (p : ProposalMessageSigned) : Prop :=
  ∃ rcs, GatheredRoundChanges cfg K p.view rcs ∧
    p = cfg.reproposal p.view rcs p.proposedBlock.rawBlock ∧
    ∀ first, (preparedBlocks rcs).head? = some first →
      first.proposedBlock.rawBlock = p.proposedBlock.rawBlock

theorem Gathered.mono {p : ProposalMessageSigned} (hK : K ≤ K') (h : Gathered cfg K p) :
    Gathered cfg K' p := by
  obtain ⟨rcs, hgathered, hp, hfirst⟩ := h
  exact ⟨rcs, hgathered.mono hK, hp, hfirst⟩

variable (cfg) in
/-- The proposal is of round 0 and lists no round changes, or is gathered. -/
def BareOrGathered (K : Knowledge) (p : ProposalMessageSigned) : Prop :=
  (p.view.round = 0 ∧ p.roundChanges = []) ∨ Gathered cfg K p

theorem BareOrGathered.mono {p : ProposalMessageSigned} (hK : K ≤ K')
    (h : BareOrGathered cfg K p) : BareOrGathered cfg K' p :=
  h.imp id fun hgathered => hgathered.mono hK

variable (cfg) in
/-- Such are the proposals that a run is about to broadcast or has broadcast, if the node is a
validator of the height. -/
def Run.GathersProposals (K : Knowledge) (run : Run) : Prop :=
  cfg.validatorManager.isValidator cfg.address run.height = true → ∀ p,
    run.roundTask = some (.broadcastProposal p) ∨ .broadcast (.proposal p) ∈ run.log →
    BareOrGathered cfg K p

theorem Run.gathersProposals_start (cfg : Config) (K : Knowledge) (msgs : ConsensusMessages)
    (height : UInt64) : (Run.start cfg msgs height).GathersProposals cfg K := by
  intro _ p hp
  rcases hp with htask | hlog
  · unfold Run.start at htask
    simp only at htask
    split at htask
    · cases htask
    · exact absurd htask Run.enterRound_outgoing
  · rcases (Node.inv_start cfg K msgs height).2 with heq | heq <;> rw [heq] at hlog <;> simp at hlog

theorem Run.GathersProposals.step (h : run.GathersProposals cfg n.knowledge)
    (hchecked : n.CheckedInv cfg) (hmarked : MarkedInv cfg n.messages) (hrun : n.run = some run)
    (hstep : RunStep cfg n.messages run ev msgs' run') (hK : n.knowledge ≤ K') :
    run'.GathersProposals cfg K' := by
  intro hself p hp
  have hheight : run'.height = run.height := hstep.same.1
  rw [hheight] at hself
  rcases hp with htask | hlog
  · rcases hstep.outgoing_proposal htask with hold | ⟨hzero, b, rfl⟩ | ⟨env, rcs, b, htaken, rfl, hb⟩
    · exact (h hself p (Or.inl hold)).mono hK
    · exact Or.inl ⟨hzero, rfl⟩
    · exact Or.inr ⟨rcs, (hchecked.gathered hmarked hself htaken).mono hK, rfl, hb⟩
  · have hinv := hchecked.inv
    rcases hstep.broadcast_mem_log hinv.round_le_of_storedProposal (hinv.run run hrun) hlog with
      hold | ⟨task, htask, hout⟩ | ⟨rc, hrc, -⟩
    · exact (h hself p (Or.inr hold)).mono hK
    · rw [RoundTask.eq_broadcastProposal hout] at htask
      exact (h hself p (Or.inl htask)).mono hK
    · cases hrc

/-- What a validator proposes lists no round changes, or gathered ones. -/
theorem Node.bareOrGathered_of_reachable (hsole : SoleProposer cfg) {height : UInt64}
    (h : Reachable (Node.step cfg) (Node.init cfg height) n) {p : ProposalMessageSigned}
    (hsent : .broadcast (.proposal p) ∈ n.history)
    (hself : cfg.validatorManager.isValidator cfg.address p.view.height = true) :
    BareOrGathered cfg n.knowledge p := by
  have hall : ∀ run ∈ n.runs, run.GathersProposals cfg n.knowledge := by
    refine h.invariant_of (I := fun n => ∀ run ∈ n.runs, run.GathersProposals cfg n.knowledge)
      (fun _ hn => And.intro (Node.checkedInv_of_reachable hsole hn)
        (Node.markedInv_of_reachable hn)) ?_ (fun run hrun => by cases hrun)
    intro n ev n' hn _ hold hstep
    have hcases := nodeStep_of_step hstep
    apply hcases.forall_runs (P := fun K run => run.GathersProposals cfg K) _ _ _ hold
    · intro K K' run hK hP hself p hp
      exact (hP hself p hp).mono hK
    · exact Run.gathersProposals_start cfg _ _
    · intro run run' hrun _ hrunstep hP
      exact hP.step hn.1 hn.2 hrun hrunstep hcases.knowledge_le
  obtain ⟨run, hrun, hlog⟩ := List.mem_flatMap.mp hsent
  have hheight : p.view.height = run.height :=
    ((Node.inv_of_reachable h).logOk hrun).height_eq _ hlog
  exact hall run hrun (hheight ▸ hself) p (Or.inr hlog)

/-! ## Between the nodes of a network -/

namespace Deployment

variable {ι : Type} [Fintype ι] [DecidableEq ι] {S : Deployment ι} {heights : ι → UInt64}
  {net : Network ι} {i : ι} {m : IBFTMessage}

omit [DecidableEq ι] in
/-- A signature by which a node is recovered over what it has signed is no forgery. -/
theorem unforged_of_signed {s : Signature} {d : Digest}
    (hrecover : S.crypto.recoverFromPrehash s d = .ok (S.address i))
    (hsent : .broadcast m ∈ (net i).history)
    (hd : d ∈ (Action.broadcast m).signedDigests S.crypto) : S.Unforged net s d := by
  intro k hk
  obtain rfl : i = k := S.address_injective (Except.ok.inj (hrecover.symm.trans hk))
  exact ⟨_, hsent, hd⟩

/-- A node's own signature over a message is no forgery. -/
theorem unforged_signature (hreach : Reachable S.step (S.init heights) net)
    (hsent : .broadcast m ∈ (net i).history) :
    S.Unforged net m.signature (m.content.digest S.crypto) := by
  refine unforged_of_signed ?_ hsent List.mem_cons_self
  rw [← IBFTMessage.recoverSigner_eq]
  exact ((inv_node hreach i).actions _ hsent).recoverSigner

/-- The signature over a message that a node has received or broadcast is no forgery. -/
theorem unforged_of_origin (hreach : Reachable S.step (S.init heights) net) {a : Address}
    (h : Origin (S.config i) (net i).knowledge m a) :
    S.Unforged net m.signature (m.content.digest S.crypto) := by
  cases h with
  | peer hreceived => exact unforged_of_received hreach hreceived List.mem_cons_self
  | own _ hsent => exact unforged_signature hreach hsent

/-- The certificate in a node's own round change carries no forgery. -/
theorem unforged_certificate (hreach : Reachable S.step (S.init heights) net)
    {rc : RoundChangeMessageSigned} (hsent : .broadcast (.roundChange rc) ∈ (net i).history)
    {a : Attestation} (ha : a ∈ (IBFTMessage.roundChange rc).carried) :
    S.Unforged net a.1 (a.2.digest S.crypto) := by
  have hown : OwnRoundChange (S.config i) (net i).knowledge rc :=
    (inv_node hreach i).actions _ hsent
  cases hpp : rc.latestPreparedProposed with
  | none =>
    rw [IBFTMessage.carried, hpp] at ha
    cases ha
  | some pp =>
    obtain ⟨p, entries, hfrom⟩ := hown.prepared pp hpp
    obtain ⟨proposer, hproposal⟩ := hfrom.proposal
    rw [IBFTMessage.carried, hpp, hfrom.eq_new] at ha
    rcases List.mem_cons.mp ha with rfl | ha
    · exact unforged_of_origin hreach hproposal
    · obtain ⟨prepare, hprepare, rfl⟩ := List.mem_map.mp ha
      obtain ⟨e, he, rfl⟩ := List.mem_map.mp hprepare
      exact unforged_of_origin hreach (hfrom.prepares.origin e he).1

/-- A round change that a node has received or broadcast carries no forgery. -/
theorem unforged_roundChange (hreach : Reachable S.step (S.init heights) net)
    {rc : RoundChangeMessageSigned} {sender : Address}
    (h : Origin (S.config i) (net i).knowledge (.roundChange rc) sender) {a : Attestation}
    (ha : a ∈ (IBFTMessage.roundChange rc).attestations) :
    S.Unforged net a.1 (a.2.digest S.crypto) := by
  cases h with
  | peer hreceived => exact unforged_of_received hreach hreceived ha
  | own _ hsent =>
    rcases List.mem_cons.mp ha with rfl | ha
    · exact unforged_signature hreach hsent
    · exact unforged_certificate hreach hsent ha

omit [Fintype ι] [DecidableEq ι] in
/-- A round change is attested alike in a certificate and as a message. -/
theorem attestations_intoMetadata (rc : RoundChangeMessageSigned) :
    rc.intoMetadata.2.attestations = (IBFTMessage.roundChange rc).attestations := by
  show _ :: _ = _ :: _
  congr 1
  show (rc.latestPreparedProposed.map PreparedProposed.preparedCertificate).elim []
    PreparedCertificate.attestations = rc.latestPreparedProposed.elim [] _
  cases rc.latestPreparedProposed <;> rfl

/-- A node proposes as a validator of the height. -/
theorem isValidator_of_proposed (hreach : Reachable S.step (S.init heights) net)
    {p : ProposalMessageSigned} (hsent : .broadcast (.proposal p) ∈ (net i).history) :
    S.validatorManager.isValidator (S.address i) p.view.height = true := by
  have hown : OwnProposal (S.config i) p := (inv_node hreach i).actions _ hsent
  have hproposer : S.address i = S.proposer p.view := (S.isProposer_iff _ _).mp hown.isProposer
  rw [S.isValidator_iff, hproposer]
  exact S.proposer_mem p.view

theorem bareOrGathered_of_proposed (hreach : Reachable S.step (S.init heights) net)
    {p : ProposalMessageSigned} (hsent : .broadcast (.proposal p) ∈ (net i).history) :
    BareOrGathered (S.config i) (net i).knowledge p :=
  Node.bareOrGathered_of_reachable S.uniqueProposer.soleProposer (reachable_node hreach i) hsent
    (isValidator_of_proposed hreach hsent)

/-- **Honest messages are authentic.**  Whatever an honest node has broadcast, no signature of an
honest node in it, or in a certificate inside it, is a forgery: the network may deliver it to every
node. -/
theorem authentic_of_broadcast (hreach : Reachable S.step (S.init heights) net)
    (hsent : .broadcast m ∈ (net i).history) : S.Authentic net m := by
  intro e he
  rcases List.mem_append.mp he with he | he
  · obtain ⟨a, ha, rfl⟩ := List.mem_map.mp he
    show S.Unforged net a.1 (a.2.digest S.crypto)
    rcases List.mem_cons.mp ha with rfl | ha
    · exact unforged_signature hreach hsent
    cases m with
    | prepare | commit => cases ha
    | roundChange rc => exact unforged_certificate hreach hsent ha
    | proposal p =>
      -- A proposal carries no certificate, or round changes that its sender had stored.
      rcases bareOrGathered_of_proposed hreach hsent with ⟨-, hbare⟩ | ⟨rcs, hgathered, hp, -⟩
      · rw [IBFTMessage.carried, hbare] at ha
        cases ha
      · have hmem : a ∈ ((certificateOrder rcs).map fun rc => rc.intoMetadata.2).flatMap
            RoundChangeMetadata.attestations := by
          rw [IBFTMessage.carried, hp] at ha
          exact ha
        obtain ⟨rcm, hrcm, ha⟩ := List.mem_flatMap.mp hmem
        obtain ⟨rc, hrc, rfl⟩ := List.mem_map.mp hrcm
        rw [attestations_intoMetadata] at ha
        obtain ⟨sender, horigin⟩ :=
          hgathered.origin rc ((certificateOrder_perm rcs).mem_iff.mp hrc)
        exact unforged_roundChange hreach horigin ha
  · cases m with
    | proposal | prepare | roundChange => cases he
    | commit m =>
      rw [List.mem_singleton.mp he]
      -- A commit has a second signature, the seal.
      have hown : OwnCommit (S.config i) (net i).knowledge m := (inv_node hreach i).actions _ hsent
      refine unforged_of_signed ?_ hsent (List.mem_cons_of_mem _ (List.mem_singleton_self _))
      have hseal : m.recoverCommitSealSigner S.crypto = .ok (S.address i) := by
        rw [hown.eq_own]
        exact CommitMessage.recoverCommitSealSigner_new _ _ _ _
      exact hseal

/-- **Honest proposals of later rounds are accepted** by every other honest node that accepts the
block: the proposal lists round changes of a quorum that verifiers accept, and where the first
prepared block among them is the one of the highest certificate, or none has prepared a block, the
verify function of the view returns `Ok`. -/
theorem reproposal_accepted (hreach : Reachable S.step (S.init heights) net)
    {p : ProposalMessageSigned} (hsent : .broadcast (.proposal p) ∈ (net i).history)
    (hround : p.view.round ≠ 0) :
    ∃ rcs, TakenRoundChanges (S.config i) p.view rcs ∧
      p = (S.config i).reproposal p.view rcs p.proposedBlock.rawBlock ∧
      (FirstIsLatest rcs → ∀ j env, env.verifyBlock p.proposedBlock.rawBlock = .ok () →
        proposalVerifyFn (S.config j) env p.view p = .ok ()) := by
  obtain ⟨rcs, ⟨htaken, -⟩, hp, hb⟩ :=
    (bareOrGathered_of_proposed hreach hsent).resolve_left fun hbare => hround hbare.1
  refine ⟨rcs, htaken, hp, ?_⟩
  intro hfirstIsLatest j env hverify
  suffices haccepts : proposalVerifyFn { S.config i with key := S.key j } env p.view
      ((S.config i).reproposal p.view rcs p.proposedBlock.rawBlock) = .ok () by
    rw [← hp] at haccepts
    exact haccepts
  cases hfirst : (preparedBlocks rcs).head? with
  | none =>
    exact htaken.accepts_of_nil hround (List.head?_eq_none_iff.mp hfirst) (S.key j) hverify
  | some first =>
    obtain ⟨latest, hlatest, hcases⟩ := hfirstIsLatest first hfirst
    apply (htaken.accepts_iff hround hlatest (S.key j) env _).mpr
    split
    · exact hverify
    next hpos =>
      rw [hcases.resolve_left hpos, hb first hfirst]

/-! ## Rounds that time out -/

def duoRoundChange (i : Fin 2) : RoundChangeMessageSigned :=
  (RoundChangeMessage.new { height := 1, round := 1 } none).intoSigned modelCrypto (duoKey i)

/-- The proposer of round 1. -/
def nextProposer : Fin 2 := ⟨0, Nat.two_pos⟩

/-- Both validators leave round 0, and the proposer of round 1 proposes. -/
def duoTimeoutEvents : List (Fin 2 × Event) :=
  List.flatten
    [(List.finRange 2).flatMap fun i => [(i, .runHeight 1), (i, .timeout), (i, .main (modelEnv [7]))],
      deliver nextProposer (.roundChange (duoRoundChange nextProposer.rev)),
      [(nextProposer, .main (modelEnv [7]))], roundSteps nextProposer (modelEnv [7]) 3]

/-- The proposal of round 1. -/
def duoReproposal : ProposalMessageSigned :=
  (duoDeployment.config nextProposer).reproposal { height := 1, round := 1 }
    ((List.finRange 2).map duoRoundChange) [7]

/-- The prepare for the proposal, and the round change with the certificate that it completes. -/
def duoLatePrepare : PrepareMessageSigned :=
  (duoDeployment.config nextProposer.rev).ownPrepare duoReproposal.view
    (digestBlock modelCrypto [7] 1)

def duoLateRoundChange (i : Fin 2) : RoundChangeMessageSigned :=
  (RoundChangeMessage.new { height := 1, round := 2 }
    (some (PreparedProposed.new duoReproposal [duoLatePrepare]))).intoSigned modelCrypto (duoKey i)

/-- Both validators commit in round 1 and leave it before a commit arrives, and the proposer of
round 2 proposes the prepared block. -/
def duoPreparedEvents : List (Fin 2 × Event) :=
  List.flatten
    [duoTimeoutEvents, deliver nextProposer.rev (.proposal duoReproposal),
      roundSteps nextProposer.rev (modelEnv [7]) 7, deliver nextProposer (.prepare duoLatePrepare),
      roundSteps nextProposer (modelEnv [7]) 4,
      (List.finRange 2).flatMap fun i =>
        (i, .timeout) :: List.replicate 3 (i, .main (modelEnv [7])),
      deliver nextProposer.rev (.roundChange (duoLateRoundChange nextProposer)),
      [(nextProposer.rev, .main (modelEnv [7]))], roundSteps nextProposer.rev (modelEnv [8]) 3]

def duoPreparedNetwork : Network (Fin 2) :=
  (exec duoDeployment.step (duoDeployment.init fun _ => 0) duoPreparedEvents).get
    (by decide +kernel)

/-- The proposal of round 2. -/
def duoLateReproposal : ProposalMessageSigned :=
  (duoDeployment.config nextProposer.rev).reproposal { height := 1, round := 2 }
    ((List.finRange 2).reverse.map duoLateRoundChange) [7]

theorem duoLateReproposal_mem : .broadcast (.proposal duoLateReproposal) ∈
    (duoPreparedNetwork nextProposer.rev).history := by
  decide +kernel

theorem authentic_of_broadcast_duo :
    duoDeployment.Authentic duoPreparedNetwork (.proposal duoLateReproposal) :=
  authentic_of_broadcast (reachable_get _) duoLateReproposal_mem

/-- The proposal of round 2 repeats the block that both round changes have prepared, and both
validators accept it. -/
theorem reproposal_accepted_duo :
    duoLateReproposal.certificates.length = 2 ∧
      (∀ j, proposalVerifyFn (duoDeployment.config j) (modelEnv [7]) duoLateReproposal.view
        duoLateReproposal = .ok ()) ∧
      ∃ rcs, TakenRoundChanges (duoDeployment.config nextProposer.rev) duoLateReproposal.view rcs ∧
        duoLateReproposal = (duoDeployment.config nextProposer.rev).reproposal
          duoLateReproposal.view rcs duoLateReproposal.proposedBlock.rawBlock ∧
        (FirstIsLatest rcs → ∀ j env,
          env.verifyBlock duoLateReproposal.proposedBlock.rawBlock = .ok () →
          proposalVerifyFn (duoDeployment.config j) env duoLateReproposal.view
            duoLateReproposal = .ok ()) :=
  ⟨by decide +kernel, by decide +kernel,
    reproposal_accepted (reachable_get _) duoLateReproposal_mem (by decide)⟩

end Deployment

end Tonic
