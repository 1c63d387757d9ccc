/-
# What a node broadcasts around a block

Every certificate that a node puts into a round change or a proposal comes from
different validators of the height, and so do the round changes of a proposal and the
seals of a finalized block.  So nothing a node broadcasts is longer than the bound of
`MessageSizes`, in any run.  The bound is above what the codec accepts, though, for a
proposal that is just within the limit itself: the messages that follow from it are
longer, and the broadcast panics.
-/
import Tonic.MessageSizes
import Tonic.Reproposal
import Tonic.StoreSoundness

namespace Tonic

open Transition RelatedLists

/-! ## Validators of a height -/

/-- The validators of a height: those whom the manager names, with the node and all proposers among
them. -/
structure ValidatorsOf (cfg : Config) (height : UInt64) (validators : Finset Address) : Prop where
  mem_iff : ∀ a, a ∈ validators ↔ cfg.validatorManager.isValidator a height = true
  proposer_mem : ∀ a view, view.height = height →
    cfg.validatorManager.isProposer a view = true → a ∈ validators
  self_mem : cfg.address ∈ validators

variable {cfg : Config} {height : UInt64} {validators : Finset Address} {n n' : Node}
  {msgs msgs' : ConsensusMessages} {run run' : Run} {ev : Event} {K : Knowledge}

/-- Different signers that are all in a set are no more than it has members. -/
theorem length_le_card {signers : List Address} {members : Finset Address}
    (hnodup : signers.Nodup) (hmem : ∀ a ∈ signers, a ∈ members) :
    signers.length ≤ members.card := by
  rw [← List.toFinset_card_of_nodup hnodup]
  exact Finset.card_le_card fun a ha => hmem a (List.mem_toFinset.mp ha)

namespace ValidatorsOf

theorem card_pos (h : ValidatorsOf cfg height validators) : 0 < validators.card :=
  Finset.card_pos.mpr ⟨_, h.self_mem⟩

/-- The sender of a stored message is a validator. -/
theorem mem_of_origin (h : ValidatorsOf cfg height validators) {m : IBFTMessage} {a : Address}
    (horigin : Origin cfg K m a) (hheight : m.view.height = height) : a ∈ validators := by
  cases horigin with
  | peer _ _ _ hadm =>
    cases m with
    | proposal m => exact h.proposer_mem a m.view hheight hadm
    | prepare m =>
      rw [h.mem_iff, ← hheight]
      exact hadm.1
    | commit m =>
      rw [h.mem_iff, ← hheight]
      exact hadm.1
    | roundChange m =>
      rw [h.mem_iff, ← hheight]
      exact hadm.1
  | own heq =>
    rw [heq]
    exact h.self_mem

/-- The prepares of an accepted certificate are signed by validators other than the proposer. -/
theorem prepares_le (h : ValidatorsOf cfg height validators) {pc : PreparedCertificate}
    {roundLimit : UInt8} (hvalid : ValidCertificate cfg pc height roundLimit) :
    pc.prepareMessages.length ≤ validators.card - 1 := by
  obtain ⟨proposer, signers, -, hproposer, -, hnodup, hall⟩ := hvalid.proposed
  have hmem := h.proposer_mem proposer _ hvalid.height_eq hproposer
  rw [hall.length_eq, ← Finset.card_erase_of_mem hmem]
  refine length_le_card hnodup fun a ha => ?_
  obtain ⟨m, -, hcount⟩ := exists_mem_left_of_forall₂ hall ha
  rw [Finset.mem_erase, h.mem_iff, ← hvalid.height_eq]
  exact ⟨hcount.ne_proposer, hcount.isValidator⟩

/-- Messages collected from different senders are no more than the validators. -/
theorem collected_le (h : ValidatorsOf cfg height validators) {T : Type} {kind : T → IBFTMessage}
    {P : T → Prop} {entries : List (Address × T)} (hcollected : Collected cfg K kind P entries)
    (hheight : ∀ e ∈ entries, (kind e.2).view.height = height) :
    entries.length ≤ validators.card := by
  rw [← List.length_map Prod.fst]
  refine length_le_card hcollected.senders fun a ha => ?_
  obtain ⟨e, he, rfl⟩ := List.mem_map.mp ha
  exact h.mem_of_origin (hcollected.origin e he).1 (hheight e he)

/-! ## Round changes -/

theorem ofValidators_of_certificate {m : RoundChangeMessageSigned}
    (h : ValidatorsOf cfg height validators)
    (hvalid : ∀ pp, m.latestPreparedProposed = some pp →
      ∃ roundLimit, ValidCertificate cfg pp.preparedCertificate height roundLimit) :
    (IBFTMessage.roundChange m).OfValidators validators.card where
  roundChanges_le := Nat.zero_le _
  prepares_le pc hpc := by
    obtain ⟨pp, hpp, rfl⟩ := Option.map_eq_some_iff.mp (Option.mem_toList.mp hpc)
    obtain ⟨roundLimit, hvalid⟩ := hvalid pp hpp
    exact h.prepares_le hvalid

/-- A round change that the verify function accepts. -/
theorem ofValidators_of_verified (h : ValidatorsOf cfg height validators)
    {m : RoundChangeMessageSigned} (hok : roundChangeVerifyFn cfg height m = true) :
    (IBFTMessage.roundChange m).OfValidators validators.card := by
  refine h.ofValidators_of_certificate fun pp hpp => ⟨m.view.round, ?_⟩
  unfold roundChangeVerifyFn at hok
  rw [hpp] at hok
  simp only at hok
  split at hok
  · cases hok
  · exact verifyPreparedCertificate_iff.mp hok

/-- A round change of the node itself. -/
theorem ofValidators_of_own (h : ValidatorsOf cfg height validators)
    (hactions : ∀ a ∈ K.history, ActionOk cfg K a) {m : RoundChangeMessageSigned}
    (hown : OwnRoundChange cfg K m) (hheight : m.view.height = height) :
    (IBFTMessage.roundChange m).OfValidators validators.card := by
  refine h.ofValidators_of_certificate fun pp hpp => ⟨m.view.round, ?_⟩
  obtain ⟨p, entries, hfrom⟩ := hown.prepared pp hpp
  have hself := (h.mem_iff _).mp h.self_mem
  rw [← hheight] at hself ⊢
  exact hfrom.validCertificate hactions hself

end ValidatorsOf

/-! ## Proposals -/

/-- The round changes that a query takes: those that were marked, and those it verifies. -/
theorem ConsensusMessages.verified_of_mem_retainVerified {v : View}
    {f : RoundChangeMessageSigned → Bool} {e : Address × (RoundChangeMessageSigned × Bool)}
    (he : e ∈ viewEntries (msgs.retainVerified v f) v) :
    msgs.roundChangeMessages.Stores (v, e.1) (e.2.1, true) ∨ f e.2.1 = true := by
  obtain ⟨⟨rc, flag⟩, hst, hf⟩ := FirstWinsMap.stores_filterMapVal.mp (mem_viewEntries.mp he)
  rw [if_pos rfl] at hf
  split at hf
  next hflag =>
    have hsame : e.2 = (rc, flag) := (Option.some.inj hf).symm
    rw [hsame]
    exact Or.inl (hflag ▸ hst)
  next =>
    split at hf
    next hok =>
      rw [show e.2 = (rc, true) from (Option.some.inj hf).symm]
      exact Or.inr hok
    next => cases hf

/-- Taken round changes are no more than the validators, and carry certificates of validators. -/
theorem Node.Inv.taken_ofValidators (hinv : n.Inv cfg) (hmarked : MarkedInv cfg n.messages)
    (hvalidators : ValidatorsOf cfg height validators) {env : Env} {view : View}
    (hheight : view.height = height) {quorum : ℕ} {rcs : List RoundChangeMessageSigned}
    (htaken : (n.messages.takeValidRoundChangeMessages env view
      (roundChangeVerifyFn cfg view.height) quorum).1.1 = some rcs) :
    rcs.length ≤ validators.card ∧
      ∀ rc ∈ rcs, (IBFTMessage.roundChange rc).OfValidators validators.card := by
  let entries := ConsensusMessages.viewEntries
    (n.messages.retainVerified view (roundChangeVerifyFn cfg view.height)) view
  have hrcs : rcs = (env.intoValues entries).map Prod.fst := by
    unfold ConsensusMessages.takeValidRoundChangeMessages at htaken
    simp only at htaken
    split at htaken
    · exact (Option.some.inj htaken).symm
    · cases htaken
  -- Each entry was stored for the view, under the sender that signed it.
  have hentry : ∀ e ∈ entries, ∃ flag, n.messages.roundChangeMessages.Stores (view, e.1)
      (e.2.1, flag) ∧ e.2.1.view = view ∧ Origin cfg n.knowledge (.roundChange e.2.1) e.1 := by
    intro e he
    obtain ⟨flag, hst⟩ := ConsensusMessages.stores_of_mem_retainVerified he
    exact ⟨flag, hst, hinv.store.roundChange _ _ _ _ hst⟩
  subst hrcs
  constructor
  · -- Different entries are of different validators.
    rw [List.length_map, Env.length_intoValues, ← List.length_map Prod.fst]
    refine length_le_card ConsensusMessages.nodup_viewEntries fun a ha => ?_
    obtain ⟨e, he, rfl⟩ := List.mem_map.mp ha
    obtain ⟨-, -, hview, horigin⟩ := hentry e he
    refine hvalidators.mem_of_origin horigin ?_
    show e.2.1.view.height = height
    rw [hview, hheight]
  · intro rc hrc
    obtain ⟨⟨rc, flag⟩, hmem, rfl⟩ := List.mem_map.mp hrc
    obtain ⟨a, he⟩ := Env.mem_intoValues.mp hmem
    have hverified : roundChangeVerifyFn cfg view.height rc = true →
        (IBFTMessage.roundChange rc).OfValidators validators.card :=
      fun hok => hvalidators.ofValidators_of_verified (hheight ▸ hok)
    rcases ConsensusMessages.verified_of_mem_retainVerified he with hst | hok
    · rcases hmarked.marked _ _ _ hst with rfl | hok
      · -- A marked message of the node itself is one that it has broadcast.
        obtain ⟨hview, horigin⟩ := hinv.store.roundChange _ _ _ _ hst
        cases horigin with
        | peer _ hne => exact absurd rfl hne
        | own _ hsent =>
          exact hvalidators.ofValidators_of_own hinv.actions (hinv.actions _ hsent)
            ((congrArg View.height hview).trans hheight)
      · exact hverified hok
    · exact hverified hok

/-- The proposal that follows from taken round changes lists them, and proposes the first block that
one of them has prepared. -/
theorem RoundTask.taken_of_step {rx : Receiver} {env : Env} {view : View} {runState : RunState}
    {s : TaskStep RoundTask} {p : ProposalMessageSigned}
    (hstep : (RoundTask.takeRoundChanges rx).step cfg env view runState msgs = some s)
    (hs : s.task = .broadcastProposal p) :
    ∃ rcs b, (msgs.takeValidRoundChangeMessages env view (roundChangeVerifyFn cfg view.height)
        (cfg.validatorManager.quorum view.height)).1.1 = some rcs ∧
      p = cfg.reproposal view rcs b ∧
      ∀ first, (preparedBlocks rcs).head? = some first → first.proposedBlock.rawBlock = b := by
  -- `propose` panics or broadcasts the proposal of the node for just this block.
  have hpropose : ∀ {b rcc}, propose cfg view b rcc = .broadcastProposal p →
      p = cfg.ownProposal view b rcc := by
    intro b rcc h
    unfold propose at h
    split at h
    · cases h
    · cases h
      rfl
  simp only [step] at hstep
  generalize msgs.takeValidRoundChangeMessages env view (roundChangeVerifyFn cfg view.height)
    (cfg.validatorManager.quorum view.height) = taken at hstep ⊢
  obtain ⟨⟨roundChanges, rcCount⟩, messages⟩ := taken
  cases hstep
  simp only [goto] at hs
  split at hs
  · cases hs
  cases roundChanges with
  | none => cases hs
  | some rcs =>
    rw [proposeFromRoundChanges, composeRoundChangeCertificate_eq] at hs
    cases hblock : (preparedBlocks rcs).head?.map fun pp => pp.proposedBlock.rawBlock with
    | some b =>
      rw [hblock] at hs
      refine ⟨rcs, b, rfl, hpropose hs, ?_⟩
      intro first hfirst
      rw [hfirst] at hblock
      exact Option.some.inj hblock
    | none =>
      rw [hblock] at hs
      simp only [buildAndPropose] at hs
      split at hs
      · cases hs
      next b hb =>
        refine ⟨rcs, b, rfl, hpropose hs, ?_⟩
        intro first hfirst
        rw [hfirst] at hblock
        cases hblock

/-- A proposal that lists such round changes. -/
theorem reproposal_ofValidators {k : ℕ} {view : View} {b : RawBlock}
    {rcs : List RoundChangeMessageSigned} (hlen : rcs.length ≤ k)
    (hall : ∀ rc ∈ rcs, (IBFTMessage.roundChange rc).OfValidators k) :
    (IBFTMessage.proposal (cfg.reproposal view rcs b)).OfValidators k where
  roundChanges_le := by
    show ((certificateOrder rcs).map fun rc => rc.intoMetadata.2).length ≤ k
    rw [List.length_map, (certificateOrder_perm rcs).length_eq]
    exact hlen
  prepares_le pc hpc := by
    obtain ⟨rcm, hrcm, hsome⟩ := List.mem_filterMap.mp hpc
    obtain ⟨rc, hrc, rfl⟩ := List.mem_map.mp
      (hrcm : rcm ∈ (certificateOrder rcs).map fun rc => rc.intoMetadata.2)
    refine (hall rc ((certificateOrder_perm rcs).mem_iff.mp hrc)).prepares_le pc ?_
    exact Option.mem_toList.mpr hsome

variable (cfg height) in
/-- The proposals that a run of the height is about to broadcast or has broadcast. -/
def Run.ProposalsOfValidators (k : ℕ) (run : Run) : Prop :=
  run.height = height →
    (∀ p, run.roundTask = some (.broadcastProposal p) →
      (IBFTMessage.proposal p).OfValidators k) ∧
    ∀ p, .broadcast (.proposal p) ∈ run.log → (IBFTMessage.proposal p).OfValidators k

/-- A round that is entered has nothing to broadcast yet. -/
theorem Run.enterRound_outgoing {round : UInt8} {p : ProposalMessageSigned} :
    (run.enterRound cfg round).roundTask ≠ some (.broadcastProposal p) := by
  intro h
  rcases Run.enterRound_cases cfg run round with
    ⟨-, htask, -⟩ | ⟨⟨-, htask⟩ | ⟨-, htask⟩, -⟩ <;> rw [htask] at h <;> cases h

/-- A proposal that the next step will broadcast was there before, or comes from this step of the
round task. -/
theorem RunStep.outgoing_proposal (h : RunStep cfg msgs run ev msgs' run')
    {p : ProposalMessageSigned} (hp : run'.roundTask = some (.broadcastProposal p)) :
    run.roundTask = some (.broadcastProposal p) ∨
      (run.view.round = 0 ∧ ∃ b, p = cfg.ownProposal run.view b none) ∨
      ∃ env rcs b, (msgs.takeValidRoundChangeMessages env run.view
          (roundChangeVerifyFn cfg run.view.height)
          (cfg.validatorManager.quorum run.view.height)).1.1 = some rcs ∧
        p = cfg.reproposal run.view rcs b ∧
        ∀ first, (preparedBlocks rcs).head? = some first → first.proposedBlock.rawBlock = b := by
  cases h with
  | round htask hs =>
    rcases RoundTask.broadcastProposal_of_step hs (Option.some.inj hp) with
      ⟨-, hround, b, -, hown⟩ | ⟨⟨rx, rfl⟩, -⟩
    · exact Or.inr (Or.inl ⟨hround, b, hown⟩)
    · exact Or.inr (Or.inr ⟨_, RoundTask.taken_of_step hs (Option.some.inj hp)⟩)
  | broadcastRoundChange | futureProposalReady | futureRccReady =>
    exact absurd hp Run.enterRound_outgoing
  | addOwnRoundChange | cancel | roundFinished | timeoutCommit | timeoutEarly => cases hp
  | _ => exact Or.inl hp

/-- A step of a run keeps its proposals to what validators have signed. -/
theorem Run.ProposalsOfValidators.step (hinv : n.Inv cfg) (hmarked : MarkedInv cfg n.messages)
    (hvalidators : ValidatorsOf cfg height validators) (hrun : n.run = some run)
    (hstep : RunStep cfg n.messages run ev msgs' run')
    (h : run.ProposalsOfValidators height validators.card) :
    run'.ProposalsOfValidators height validators.card := by
  intro hheight
  rw [hstep.same.1] at hheight
  obtain ⟨htask, hlog⟩ := h hheight
  constructor
  · intro p hp
    rcases hstep.outgoing_proposal hp with hold | ⟨-, b, rfl⟩ | ⟨env, rcs, b, htaken, rfl, -⟩
    · exact htask p hold
    · exact ⟨Nat.zero_le _, fun pc hpc => by cases hpc⟩
    · obtain ⟨hlen, hall⟩ := hinv.taken_ofValidators hmarked hvalidators hheight htaken
      exact reproposal_ofValidators hlen hall
  · intro p hp
    rcases hstep.broadcast_mem_log hinv.round_le_of_storedProposal (hinv.run run hrun) hp with
      hold | ⟨task, htask', hout⟩ | ⟨rc, hrc, -⟩
    · exact hlog p hold
    · rw [RoundTask.eq_broadcastProposal hout] at htask'
      exact htask p htask'
    · cases hrc

theorem Run.start_proposalsOfValidators (k : ℕ) (height' : UInt64) :
    (Run.start cfg msgs height').ProposalsOfValidators height k := by
  intro _
  unfold Run.start
  simp only
  split
  · exact ⟨(fun p hp => by cases hp), (fun p hp => by cases hp)⟩
  · refine ⟨fun p hp => absurd hp Run.enterRound_outgoing, fun p hp => ?_⟩
    rcases Run.log_enterRound cfg _ 0 with heq | ⟨-, heq⟩ <;> rw [heq] at hp <;> simp at hp

theorem Node.proposalsOfValidators_of_reachable {height₀ : UInt64}
    (hvalidators : ValidatorsOf cfg height validators)
    (h : Reachable (Node.step cfg) (Node.init cfg height₀) n) :
    ∀ run ∈ n.runs, run.ProposalsOfValidators height validators.card := by
  have hknown : ∀ n, Reachable (Node.step cfg) (Node.init cfg height₀) n →
      n.Inv cfg ∧ MarkedInv cfg n.messages :=
    fun _ hn => ⟨Node.inv_of_reachable hn, Node.markedInv_of_reachable hn⟩
  refine h.invariant_of
    (I := fun n => ∀ run ∈ n.runs, run.ProposalsOfValidators height validators.card)
    hknown (fun n ev n' hn _ hold hstep => ?_) (fun run hrun => by cases hrun)
  exact (nodeStep_of_step hstep).forall_runs
    (P := fun _ run => run.ProposalsOfValidators height validators.card) (fun _ hP => hP)
    (fun height' => Run.start_proposalsOfValidators _ height')
    (fun run run' hrun _ hrunstep hP => hP.step hn.1 hn.2 hvalidators hrun hrunstep) hold

/-! ## Broadcasts -/

/-- **Whatever a node broadcasts at a height** carries no more than its validators can sign. -/
theorem broadcast_ofValidators {height₀ : UInt64}
    (hreach : Reachable (Node.step cfg) (Node.init cfg height₀) n)
    (hvalidators : ValidatorsOf cfg height validators) {m : IBFTMessage}
    (hm : .broadcast m ∈ n.history) (hheight : m.view.height = height) :
    m.OfValidators validators.card := by
  have hinv := Node.inv_of_reachable hreach
  cases m with
  | proposal p =>
    obtain ⟨run, hrun, hlog⟩ := List.mem_flatMap.mp hm
    have hrunHeight : p.view.height = run.height := (hinv.logOk hrun).height_eq _ hlog
    have hproposals := Node.proposalsOfValidators_of_reachable hvalidators hreach run hrun
    exact (hproposals (hrunHeight.symm.trans hheight)).2 p hlog
  | prepare p | commit p => exact ⟨Nat.zero_le _, fun pc hpc => by cases hpc⟩
  | roundChange rc => exact hvalidators.ofValidators_of_own hinv.actions (hinv.actions _ hm) hheight

/-- The seals of a finalized block are of different validators. -/
theorem seals_le_of_finalized {height₀ : UInt64}
    (hreach : Reachable (Node.step cfg) (Node.init cfg height₀) n)
    (hvalidators : ValidatorsOf cfg height validators) {block : FinalizedBlock}
    (hfin : .finalized height block ∈ n.history) :
    block.proof.commitSeals.length ≤ validators.card := by
  obtain ⟨view, digest, p, hown⟩ := (Node.inv_of_reachable hreach).actions _ hfin
  obtain ⟨entries, hcollected, -, hseals⟩ := hown.sealed
  rw [hseals, List.length_map]
  refine hvalidators.collected_le hcollected fun e he => ?_
  have hview : e.2.view = view := (hcollected.origin e he).2.1
  show e.2.view.height = height
  rw [hview, hown.height_eq]

variable (height) in
/-- Everything that the node has broadcast at the height around the block, and every message without
a block, was within the limit of the codec. -/
structure Node.SerializesDerived (n : Node) (b : RawBlock) : Prop where
  message : ∀ m, .broadcast m ∈ n.history → m.view.height = height →
    (∀ b', m.rawBlock? = some b' → b' = b) → ∃ data, proxyCodec.serialize m = .ok data
  block : ∀ block, .finalized height block ∈ n.history → block.rawBlock = b →
    ∃ data, proxyCodec.serialize block = .ok data

/-- **Derived messages are bounded** in every run, for a block that leaves room for the round
changes of all validators. -/
theorem serializesDerived_of_size {height₀ : UInt64}
    (hreach : Reachable (Node.step cfg) (Node.init cfg height₀) n)
    (hvalidators : ValidatorsOf cfg height validators) {b : RawBlock}
    (hsize : maxDerivedSize validators.card b.length ≤ maxMessageSize) :
    n.SerializesDerived height b where
  message m hm hheight hblock := by
    refine proxyCodec_serialize_message_iff.mpr (le_trans ?_ hsize)
    refine (broadcast_ofValidators hreach hvalidators hm hheight).length_le hvalidators.card_pos
      fun b' hb' => ?_
    rw [hblock b' hb']
  block block hfin hraw := by
    subst hraw
    refine (GossipCodec.serialize_ok_iff_length (by decide)).mpr (le_trans ?_ hsize)
    exact block.length_le (seals_le_of_finalized hreach hvalidators hfin) hvalidators.card_pos

/-! ## Under the mock manager -/

/-- The validators of the mock are the validators of every height. -/
theorem ValidatorsOf.of_mock {addresses : List Address}
    (hmanager : cfg.validatorManager = mockManager addresses) (hself : cfg.address ∈ addresses) :
    ValidatorsOf cfg height addresses.toFinset where
  mem_iff a := by
    rw [hmanager, List.mem_toFinset]
    exact decide_eq_true_iff.symm
  proposer_mem a view _ hproposer := by
    rw [hmanager] at hproposer
    have hvalidator := mockManager_isValidator_of_isProposer addresses hproposer
    exact List.mem_toFinset.mpr (of_decide_eq_true hvalidator)
  self_mem := List.mem_toFinset.mpr hself

/-- The block of the four validators is small. -/
theorem serializesDerived_of_size_four : fourNode.SerializesDerived 1 [7] :=
  serializesDerived_of_size fourNode_reachable
    (.of_mock rfl (by decide +kernel) : ValidatorsOf fourConfig 1
      [modelAddress 0, modelAddress 1, modelAddress 2, modelAddress 3].toFinset)
    (by decide +kernel)

/-! ## A block just within the limit -/

/-- Node receives only what its events bring. -/
theorem Node.received_of_exec {height₀ : UInt64} {es : List Event}
    (h : exec (Node.step cfg) (Node.init cfg height₀) es = some n) {m : IBFTMessage}
    (hm : m ∈ n.received) : .receive m ∈ es := by
  let FromEvents : Node → Prop := fun n => ∀ m ∈ n.received, .receive m ∈ es
  have hstep : ∀ n ev n', ev ∈ es → FromEvents n → n.step cfg ev = some n' → FromEvents n' := by
    intro n ev n' hev hold hstep m hm
    cases nodeStep_of_step hstep with
    | receive =>
      rcases List.mem_cons.mp hm with rfl | hm
      · exact hev
      · exact hold m hm
    | addPending | runHeight | run => exact hold m hm
  have hinit : FromEvents (Node.init cfg height₀) := fun m hm => by cases hm
  exact exec_invariant hstep hinit h m hm

/-- A hash that reads no more than some 300 bytes of a long input, so that a run with a long block
can be evaluated. -/
def sampledCrypto : Crypto :=
  { modelCrypto with
    sha256 := fun bs =>
      modelCrypto.sha256 (if (bs.drop 110).isEmpty then bs else (bs.drop 4).take 300)
    recover_sign := modelCrypto.recover_sign }

/-- The first of two validators. -/
def largeConfig : Config where
  crypto := sampledCrypto
  validatorManager := mockManager [modelAddress 0, modelAddress 1]
  key := modelKey 0

/-- A block that fills a proposal up to the limit. -/
@[irreducible] def largeBlock : RawBlock := List.replicate 4194191 7

/-- The second validator proposes it. -/
def largeProposal : ProposalMessageSigned :=
  { largeConfig with key := modelKey 1 }.ownProposal { height := 1, round := 0 } largeBlock none

/-- The first validator accepts the proposal, prepares and commits, and times out. -/
def largeEvents : List Event :=
  List.flatten
    [[.receive (.proposal largeProposal), .addPending, .runHeight 1],
      List.replicate 7 (.round (modelEnv [7])), [.timeout],
      List.replicate 4 (.main (modelEnv [7]))]

@[irreducible] def largeNode : Node :=
  (exec (Node.step largeConfig) (Node.init largeConfig 0) largeEvents).get (by decide +kernel)

theorem largeNode_reachable :
    Reachable (Node.step largeConfig) (Node.init largeConfig 0) largeNode := by
  unfold largeNode
  exact reachable_get _

theorem eq_of_received_large {m : IBFTMessage} (hm : m ∈ largeNode.received) :
    m = .proposal largeProposal := by
  have hevent : .receive m ∈ largeEvents := by
    unfold largeNode at hm
    exact Node.received_of_exec (Option.some_get _).symm hm
  simp only [largeEvents, List.flatten_cons, List.flatten_nil, List.append_nil, List.mem_append,
    List.mem_cons, List.mem_replicate, List.not_mem_nil, or_false, reduceCtorEq, and_false,
    Event.receive.injEq] at hevent
  exact hevent

/-- Its run of the height, in the second round. -/
@[irreducible] def largeRun : Run := largeNode.run.get (by decide +kernel)

/-- The round change that it broadcast in between. -/
@[irreducible] def largeRoundChange : RoundChangeMessageSigned :=
  largeRun.latestSelfRoundChange.get (by decide +kernel)

theorem largeRun_inv : largeRun.Inv largeConfig largeNode.knowledge := by
  unfold largeRun
  exact (Node.inv_of_reachable largeNode_reachable).run _ (Option.some_get _).symm

theorem largeRoundChange_sent : OwnRoundChange largeConfig largeNode.knowledge largeRoundChange ∧
    .broadcast (.roundChange largeRoundChange) ∈ largeNode.history := by
  have hphase : largeRun.phase = .select := by decide +kernel
  have hlatest : largeRun.latestSelfRoundChange = some largeRoundChange := by
    unfold largeRoundChange
    exact (Option.some_get _).symm
  obtain ⟨hown, hsent, -⟩ := largeRun_inv.latest (by rw [hphase]; simp) _ hlatest
  exact ⟨hown, hsent⟩

/-- The round change carries the received block and a prepare. -/
theorem largeRoundChange_prepared : ∃ pp, largeRoundChange.latestPreparedProposed = some pp ∧
    pp.proposedBlock.rawBlock = largeBlock ∧
    1 ≤ pp.preparedCertificate.prepareMessages.length := by
  have hsome : largeRoundChange.latestPreparedProposed.isSome = true := by decide +kernel
  obtain ⟨pp, hpp⟩ := Option.isSome_iff_exists.mp hsome
  obtain ⟨p, entries, hfrom⟩ := largeRoundChange_sent.1.prepared pp hpp
  have hview : largeRoundChange.view = { height := 1, round := 1 } := by decide +kernel
  have hlen : entries.length = pp.preparedCertificate.prepareMessages.length := by
    rw [hfrom.eq_new]
    exact (List.length_map _).symm
  refine ⟨pp, hpp, ?_, ?_⟩
  · have hp : IBFTMessage.proposal p ∈ largeNode.received := by
      obtain ⟨proposer, horigin⟩ := hfrom.proposal
      cases horigin with
      | peer hrecv => exact hrecv
      | own _ hsent =>
        -- The node is not the proposer of the first round.
        have hown : OwnProposal largeConfig p :=
          (Node.inv_of_reachable largeNode_reachable).actions _ hsent
        have hround : p.view = { height := 1, round := 0 } := by
          have hheight := hfrom.height_eq
          have hlt := UInt8.lt_iff_toNat_lt.mp hfrom.round_lt
          rw [hview] at hheight hlt
          exact congrArg₂ View.mk hheight (UInt8.toNat_inj.mp (Nat.lt_one_iff.mp hlt))
        have hproposer := hown.isProposer
        rw [hround] at hproposer
        exact absurd hproposer (by decide +kernel)
    rw [hfrom.eq_new]
    cases eq_of_received_large hp
    rfl
  · have hquorum := hfrom.quorum_le
    have htwo : largeConfig.validatorManager.quorum largeRoundChange.view.height = 2 := by
      decide +kernel
    omega

theorem largeProposal_size :
    (serialize (IBFTMessage.proposal largeProposal)).length = maxMessageSize := by
  rw [length_serialize_proposal]
  have hblock : largeProposal.proposedBlock.rawBlock = largeBlock := rfl
  have hcertificate : largeProposal.roundChangeCertificate = none := rfl
  rw [hblock, hcertificate, Option.elim_none, largeBlock, List.length_replicate, maxMessageSize]

/-- The proposal is received within the limit, and the node prepares its block; the round change
that it broadcasts next is too long. -/
theorem not_serializesDerived_large :
    Reachable (Node.step largeConfig) (Node.init largeConfig 0) largeNode ∧
      (∃ data, proxyCodec.deserialize data = .ok (IBFTMessage.proposal largeProposal).received) ∧
      .proposal largeProposal ∈ largeNode.received ∧
      .broadcast (.prepare (largeConfig.ownPrepare { height := 1, round := 0 }
        largeProposal.proposedBlockDigest)) ∈ largeNode.history ∧
      ¬ largeNode.SerializesDerived 1 largeBlock := by
  refine ⟨largeNode_reachable, ?_, ?_, by decide +kernel, fun h => ?_⟩
  · obtain ⟨data, hdata⟩ := proxyCodec_serialize_message_iff.mpr (le_of_eq largeProposal_size)
    exact ⟨data, proxyCodec_deserialize_iff.mpr hdata⟩
  · obtain ⟨m, hm⟩ := List.exists_mem_of_ne_nil largeNode.received (by decide +kernel)
    rw [← eq_of_received_large hm]
    exact hm
  · obtain ⟨pp, hpp, hraw, hprepares⟩ := largeRoundChange_prepared
    have hfits := h.message _ largeRoundChange_sent.2 (by decide +kernel) fun b hb => by
      rw [IBFTMessage.rawBlock?, hpp] at hb
      cases hb
      exact hraw
    rw [proxyCodec_serialize_message_iff, length_serialize_roundChange, hpp, Option.elim_some,
      length_serialize_preparedProposed, hraw, largeBlock, List.length_replicate] at hfits
    have hlimit : maxMessageSize = 4194304 := rfl
    omega

end Tonic
