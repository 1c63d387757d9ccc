/-
# Round changes of a node are usable

A round change carries a certificate that was assembled from the store when a round
timed out, or that an earlier round change of the run already carried.  Both pass the
checks of every peer: those of the handler, those of `round_change_verify_fn`, and those
that `verify_prepared_certificate` makes of a certificate inside a proposal.
-/
import Tonic.FinalizedProof

namespace Tonic

open Transition

variable {cfg : Config} {n n' : Node} {msgs msgs' : ConsensusMessages} {run run' : Run}
  {ev : Event} {K K' : Knowledge}

/-! ## Certificates a node puts together are valid -/

/-- A collected prepare counts for its proposal. -/
theorem Collected.countsFor (hactions : ∀ a ∈ K.history, ActionOk cfg K a) {v : View} {d : Digest}
    (hval : cfg.validatorManager.isValidator cfg.address v.height = true) {proposer : Address}
    (hprop : cfg.validatorManager.isProposer proposer v = true)
    {entries : List (Address × PrepareMessageSigned)}
    (h : Collected cfg K IBFTMessage.prepare
      (fun m => m.view = v ∧ m.proposedBlockDigest = d) entries) :
    List.Forall₂ (CountsFor cfg proposer v d) (entries.map Prod.snd) (entries.map Prod.fst) := by
  rw [List.forall₂_map_left_iff, List.forall₂_map_right_iff, List.forall₂_same]
  intro e he
  obtain ⟨horigin, rfl, rfl⟩ := h.origin e he
  have hne : ∀ a, cfg.validatorManager.isProposer a e.2.view = false → a ≠ proposer := by
    rintro a ha rfl
    rw [hprop] at ha
    cases ha
  cases horigin with
  | peer _ _ hrec hadm => exact ⟨rfl, rfl, hrec, hne _ hadm.2, hadm.1⟩
  | own heq hsent =>
    have hown : OwnPrepare cfg K e.2 := hactions _ hsent
    rw [heq]
    refine ⟨rfl, rfl, ?_, hne _ hown.not_proposer, hval⟩
    rw [hown.eq_own]
    exact PrepareMessage.recoverSigner_intoSigned _ _ _

theorem PreparedFrom.validCertificate (hactions : ∀ a ∈ K.history, ActionOk cfg K a)
    {pp : PreparedProposed} {v : View} {p : ProposalMessageSigned}
    {entries : List (Address × PrepareMessageSigned)} (h : PreparedFrom cfg K pp v p entries)
    (hval : cfg.validatorManager.isValidator cfg.address v.height = true) :
    ValidCertificate cfg pp.preparedCertificate v.height v.round := by
  obtain ⟨proposer, horigin⟩ := h.proposal
  have hsigned : p.recoverSigner cfg.crypto = .ok proposer ∧
      cfg.validatorManager.isProposer proposer p.view = true := by
    cases horigin with
    | peer _ _ hrec hadm => exact ⟨hrec, hadm⟩
    | own heq hsent =>
      have hown : OwnProposal cfg p := hactions _ hsent
      rw [heq]
      exact ⟨hown.recoverSigner, hown.isProposer⟩
  rw [h.eq_new]
  refine ⟨h.height_eq, h.round_lt, proposer, entries.map Prod.fst, hsigned.1, hsigned.2, ?_,
    h.prepares.senders, ?_⟩
  · change _ ≤ (entries.map Prod.snd).length
    rw [List.length_map]
    exact h.quorum_le
  · exact h.prepares.countsFor hactions (by rw [h.height_eq]; exact hval) hsigned.2

/-! ## What a run takes from the store -/

/-- The prepared block in the round change is that of a proposal with the property. -/
def CarriesFrom (Q : ProposalMessageSigned → Prop) (rc : RoundChangeMessageSigned) : Prop :=
  ∀ pp, rc.latestPreparedProposed = some pp →
    ∃ p prepares, Q p ∧ pp = PreparedProposed.new p prepares

/-- The block is that of a proposal of the view with the property. -/
def FinalizesFrom (Q : ProposalMessageSigned → Prop) (view : View) (block : FinalizedBlock) : Prop :=
  ∃ p commitSeals, Q p ∧ p.view = view ∧ block = FinalizedBlock.new p.proposedBlock commitSeals

namespace RunPhase

/-- The next step takes the proposal of the round from the store. -/
def TakesProposal : RunPhase → Prop
  | .timeoutTakeProposal | .takeFinalProposal _ => True
  | _ => False

/-- The run has returned a block, or nothing, or has panicked. -/
def Over : RunPhase → Prop
  | .prune _ | .returned _ | .panicked _ => True
  | _ => False

/-- What the run holds comes from a proposal with the property. -/
def TakesOnly (Q : ProposalMessageSigned → Prop) (view : View) : RunPhase → Prop
  | .timeoutTakePrepares p => Q p
  | .broadcastRoundChange rc => CarriesFrom Q rc
  | .broadcastBlock block => FinalizesFrom Q view block
  | _ => True

end RunPhase

/-- Every proposal that the run has taken from the store has the property. -/
structure Run.TakesOnly (Q : ProposalMessageSigned → Prop) (run : Run) : Prop where
  latest : ∀ rc, run.latestSelfRoundChange = some rc → CarriesFrom Q rc
  phase : run.phase.TakesOnly Q run.view
  log : ∀ rc, .broadcast (.roundChange rc) ∈ run.log → CarriesFrom Q rc
  finalized : ∀ height block, .finalized height block ∈ run.log →
    FinalizesFrom Q run.view block ∧ run.phase.Over

section TakesOnly

variable {Q Q' : ProposalMessageSigned → Prop}

theorem CarriesFrom.mono (hQ : ∀ p, Q p → Q' p) {rc : RoundChangeMessageSigned}
    (h : CarriesFrom Q rc) : CarriesFrom Q' rc := by
  intro pp hpp
  obtain ⟨p, prepares, hp, heq⟩ := h pp hpp
  exact ⟨p, prepares, hQ p hp, heq⟩

theorem FinalizesFrom.mono (hQ : ∀ p, Q p → Q' p) {view : View} {block : FinalizedBlock}
    (h : FinalizesFrom Q view block) : FinalizesFrom Q' view block := by
  obtain ⟨p, commitSeals, hp, hview, heq⟩ := h
  exact ⟨p, commitSeals, hQ p hp, hview, heq⟩

theorem RunPhase.TakesOnly.mono (hQ : ∀ p, Q p → Q' p) {view : View} {phase : RunPhase}
    (h : phase.TakesOnly Q view) : phase.TakesOnly Q' view := by
  cases phase with
  | timeoutTakePrepares p => exact hQ p h
  | broadcastRoundChange rc => exact CarriesFrom.mono hQ h
  | broadcastBlock block => exact FinalizesFrom.mono hQ h
  | _ => exact trivial

theorem Run.TakesOnly.mono (hQ : ∀ p, Q p → Q' p) (h : run.TakesOnly Q) : run.TakesOnly Q' where
  latest rc hrc := (h.latest rc hrc).mono hQ
  phase := h.phase.mono hQ
  log rc hmem := (h.log rc hmem).mono hQ
  finalized height block hmem := (h.finalized height block hmem).imp_left (·.mono hQ)

theorem CarriesFrom.updateAndResign {rc : RoundChangeMessageSigned} (h : CarriesFrom Q rc)
    (round : UInt8) : CarriesFrom Q (rc.updateAndResign cfg.crypto cfg.key round) := h

theorem CarriesFrom.prepared {p : ProposalMessageSigned} (h : Q p)
    (prepares : List PrepareMessageSigned) :
    CarriesFrom Q (run.preparedRoundChange cfg p prepares) := by
  intro pp hpp
  cases hpp
  exact ⟨p, prepares, h, rfl⟩

theorem Run.TakesOnly.next (h : run.TakesOnly Q) : CarriesFrom Q (run.nextRoundChange cfg) := by
  unfold Run.nextRoundChange
  split
  next rc hrc => exact (h.latest rc hrc).updateAndResign _
  next => exact fun pp hpp => by cases hpp

/-- A run that enters a round holds nothing yet. -/
theorem Run.takesOnly_enterRound (run : Run) (round : UInt8) (view : View) :
    (run.enterRound cfg round).phase.TakesOnly Q view := by
  rcases Run.enterRound_cases cfg run round with
    ⟨⟨why, hphase⟩, -⟩ | ⟨⟨hphase, -⟩ | ⟨⟨rc, hphase⟩, -⟩, -⟩ <;> rw [hphase] <;> exact trivial

/-- A run that is over stays in its round; all that may happen is that its block is returned. -/
theorem RunStep.phase_of_over (h : RunStep cfg msgs run ev msgs' run') (hover : run.phase.Over) :
    run'.view = run.view ∧ (run'.phase = run.phase ∨
      ∃ block, run.phase = .prune block ∧ run'.phase = .returned (some block)) := by
  cases h with
  | round | futureProposal | futureRcc => exact ⟨rfl, Or.inl rfl⟩
  | prune hphase => exact ⟨rfl, Or.inr ⟨_, hphase, rfl⟩⟩
  | addOwnRoundChange hphase | finalProposalMissing hphase | takeFinalProposal hphase
  | broadcastBlock hphase | timeoutProposalMissing hphase | timeoutTakeProposal hphase
  | timeoutTakePrepares hphase | broadcastRoundChange hphase | cancel hphase
  | roundFinished hphase | futureProposalReady hphase | futureRccReady hphase
  | timeoutCommit hphase | timeoutEarly hphase =>
    rw [hphase] at hover
    cases hover

theorem RunStep.over (h : RunStep cfg msgs run ev msgs' run') (hover : run.phase.Over) :
    run'.view = run.view ∧ run'.phase.Over := by
  obtain ⟨hview, hsame | ⟨block, -, hreturned⟩⟩ := h.phase_of_over hover
  · exact ⟨hview, hsame ▸ hover⟩
  · exact ⟨hview, hreturned ▸ trivial⟩

/-- A block is finalized by the step that broadcasts it. -/
theorem RunStep.mem_finalized (h : RunStep cfg msgs run ev msgs' run') {height : UInt64}
    {block : FinalizedBlock} (hmem : .finalized height block ∈ run'.log) :
    .finalized height block ∈ run.log ∨
      run.phase = .broadcastBlock block ∧ run'.view = run.view ∧ run'.phase.Over := by
  -- The tasks log no block, whatever phase the run is in.
  have htask : ¬ Logged { run with phase := .select } (.finalized height block) := by
    rintro ⟨⟩
    next hphase => cases hphase
  have henter : ∀ {run₁ : Run} {round : UInt8},
      .finalized height block ∈ (run₁.enterRound cfg round).log →
      .finalized height block ∈ run₁.log := by
    intro run₁ round hmem
    rcases Run.log_enterRound cfg run₁ round with heq | ⟨-, heq⟩
    · exact heq ▸ hmem
    · rw [heq] at hmem
      simpa using hmem
  cases h with
  | round _ hs =>
    exact Or.inl ((List.mem_append.mp hmem).resolve_right fun hnew => htask (.of_round hs hnew))
  | futureProposal _ hs =>
    exact Or.inl
      ((List.mem_append.mp hmem).resolve_right fun hnew => htask (.of_futureProposal hs hnew))
  | futureRcc _ hs =>
    rw [FutureRccTask.actions_of_step hs, List.append_nil] at hmem
    exact Or.inl hmem
  | broadcastBlock hphase hnext =>
    rcases List.mem_append.mp hmem with hold | hnew
    · exact Or.inl hold
    · cases List.mem_singleton.mp hnew
      refine Or.inr ⟨hphase, rfl, ?_⟩
      rcases hnext with rfl | ⟨why, rfl⟩ <;> exact trivial
  | broadcastRoundChange =>
    have hold := henter hmem
    exact Or.inl (by simpa using hold)
  | futureProposalReady | futureRccReady => exact Or.inl (henter hmem)
  | _ => exact Or.inl hmem

/-- **What a run takes** has the property, if the proposals stored for its rounds have it. -/
theorem Run.TakesOnly.step (h : run.TakesOnly Q)
    (hstored : ∀ p, run.phase.TakesProposal → msgs.storedProposal run.view = some p →
      Q p ∧ p.view = run.view)
    (hstep : RunStep cfg msgs run ev msgs' run') : run'.TakesOnly Q := by
  have hphase := h.phase
  have hlog : ∀ rc, .broadcast (.roundChange rc) ∈ run'.log → CarriesFrom Q rc := by
    intro rc hmem
    rcases hstep.logged hmem with hold | hlogged
    · exact h.log rc hold
    · cases hlogged with
      | vote hvote => cases hvote
      | roundChange hready =>
        rw [hready] at hphase
        exact hphase
  have hfinalized : ∀ height block, .finalized height block ∈ run'.log →
      FinalizesFrom Q run'.view block ∧ run'.phase.Over := by
    intro height block hmem
    rcases hstep.mem_finalized hmem with hold | ⟨hbroadcast, hview, hover⟩
    · obtain ⟨hfrom, hover⟩ := h.finalized height block hold
      obtain ⟨hview, hover'⟩ := hstep.over hover
      exact ⟨hview ▸ hfrom, hover'⟩
    · rw [hbroadcast] at hphase
      exact ⟨hview ▸ hphase, hover⟩
  cases hstep with
  | round | futureProposal | futureRcc => exact ⟨h.latest, h.phase, hlog, hfinalized⟩
  | takeFinalProposal hp hproposal =>
    obtain ⟨hQ, hview⟩ := hstored _ (by rw [hp]; trivial) hproposal
    exact ⟨h.latest, ⟨_, _, hQ, hview, rfl⟩, hlog, hfinalized⟩
  | timeoutTakeProposal hp hproposal =>
    exact ⟨h.latest, (hstored _ (by rw [hp]; trivial) hproposal).1, hlog, hfinalized⟩
  | timeoutTakePrepares hp hnext =>
    refine ⟨h.latest, ?_, hlog, hfinalized⟩
    rw [hp] at hphase
    rcases hnext with ⟨why, rfl⟩ | ⟨-, rfl⟩
    · exact trivial
    · exact CarriesFrom.prepared hphase _
  | broadcastBlock _ hnext =>
    refine ⟨h.latest, ?_, hlog, hfinalized⟩
    rcases hnext with rfl | ⟨why, rfl⟩ <;> exact trivial
  | broadcastRoundChange hp =>
    refine ⟨fun rc hrc => ?_, Run.takesOnly_enterRound _ _ _, hlog, hfinalized⟩
    rw [(Run.enterRound_same cfg _ _).2.2] at hrc
    cases hrc
    rw [hp] at hphase
    exact hphase
  | futureProposalReady | futureRccReady =>
    refine ⟨fun rc hrc => h.latest rc ?_, Run.takesOnly_enterRound _ _ _, hlog, hfinalized⟩
    rw [(Run.enterRound_same cfg _ _).2.2] at hrc
    exact hrc
  | timeoutEarly => exact ⟨h.latest, h.next, hlog, hfinalized⟩
  | addOwnRoundChange | finalProposalMissing | prune | timeoutProposalMissing | cancel
  | roundFinished | timeoutCommit => exact ⟨h.latest, trivial, hlog, hfinalized⟩

theorem Run.start_takesOnly (msgs : ConsensusMessages) (height : UInt64) :
    (Run.start cfg msgs height).TakesOnly Q := by
  unfold Run.start
  simp only
  split
  · exact ⟨(fun rc hrc => by cases hrc), trivial, (fun rc hmem => by cases hmem),
      fun _ _ hmem => by cases hmem⟩
  · refine ⟨fun rc hrc => ?_, Run.takesOnly_enterRound _ _ _, fun rc hmem => ?_,
      fun _ block hmem => ?_⟩
    · rw [(Run.enterRound_same cfg _ _).2.2] at hrc
      cases hrc
    all_goals
      rcases Run.log_enterRound cfg _ 0 with heq | ⟨-, heq⟩ <;> rw [heq] at hmem <;>
        simp at hmem

end TakesOnly

/-- The proposal that is taken from a driven round is endorsed. -/
theorem Run.Drive.endorsed (h : run.Drive cfg msgs) (hsole : SoleProposer cfg)
    (hstore : StoreInv cfg K msgs) (hinv : run.Inv cfg K) {p : ProposalMessageSigned}
    (hphase : run.phase.TakesProposal) (hstored : msgs.storedProposal run.view = some p) :
    Endorsed cfg K p := by
  have hinvPhase := hinv.phase
  cases hp : run.phase with
  | timeoutTakeProposal =>
    rw [hp] at hinvPhase
    obtain ⟨-, hstate, d, hvotes⟩ := hinvPhase
    have hdriven := h.driven_of_commit (by rw [hp]; trivial) hstate hvotes
    exact (hdriven.endorsed hsole hstore hstored).2
  | takeFinalProposal seals =>
    rw [hp] at hinvPhase
    obtain ⟨-, hstate, d, hvotes, -⟩ := hinvPhase
    have hdriven := h.driven_of_commit (by rw [hp]; trivial) hstate hvotes
    exact (hdriven.endorsed hsole hstore hstored).2
  | _ =>
    rw [hp] at hphase
    cases hphase

/-! ### All runs of a node -/

variable (cfg) in
/-- A round in which others propose is driven by its stored proposal, whatever the store held when
the run began. -/
def Node.Follows (n : Node) : Prop :=
  ∀ run, n.run = some run → cfg.validatorManager.isProposer cfg.address run.view = false →
    run.Drive cfg n.messages

/-- A step stays in the round or enters one. -/
theorem RunStep.view_eq_or_enters (h : RunStep cfg msgs run ev msgs' run') :
    run'.view = run.view ∨ ∃ run₁ round, run' = Run.enterRound cfg run₁ round := by
  cases h with
  | broadcastRoundChange | futureProposalReady | futureRccReady => exact Or.inr ⟨_, _, rfl⟩
  | _ => exact Or.inl rfl

theorem Node.Follows.step (h : n.Follows cfg) (hinv : n.Inv cfg) (hinv' : n'.Inv cfg)
    (hstep : NodeStep cfg n ev n') : n'.Follows cfg := by
  intro run hrun hprop
  cases hstep with
  | receive => exact h run hrun hprop
  | addPending =>
    exact (h run hrun hprop).of_storedProposal fun p hp =>
      ConsensusMessages.storedProposal_addMessage_of_some hp
  | runHeight =>
    cases hrun
    exact Run.start_drive _ _ (hinv'.run _ rfl)
  | @run ev old new msgs height hold hrunstep =>
    cases hrun
    rcases hrunstep.view_eq_or_enters with hview | ⟨run₁, round, rfl⟩
    · rw [hview] at hprop
      have hrunInv := hinv.run old hold
      refine (h old hold hprop).step hinv.store hinv.actions hinv.round_le_of_storedProposal
        hrunInv (hinv'.run run rfl) hrunstep ?_
      -- In such a round the node adds no proposal of its own.
      cases ev with
      | round env =>
        intro p htask
        obtain ⟨-, -, -, hpview, hsent⟩ := hrunInv.select_of_task htask
        have hown : OwnProposal cfg p := hinv.actions _ hsent
        rw [← hpview, hown.isProposer] at hprop
        cases hprop
      | _ => trivial
    · exact Run.Drive.enterRound (hinv'.run _ rfl)

variable (cfg) in
/-- What the runs of a node take from its store, whatever it held when they began. -/
structure Node.CheckedInv (n : Node) : Prop where
  inv : n.Inv cfg
  follows : n.Follows cfg
  takes : ∀ run ∈ n.runs, run.TakesOnly (Endorsed cfg n.knowledge)

/-- A proposal that a run takes is the node's own, or was accepted. -/
theorem Node.CheckedInv.endorsed (h : n.CheckedInv cfg) (hsole : SoleProposer cfg)
    (hrun : n.run = some run) {p : ProposalMessageSigned} (hphase : run.phase.TakesProposal)
    (hstored : n.messages.storedProposal run.view = some p) : Endorsed cfg n.knowledge p := by
  cases hprop : cfg.validatorManager.isProposer cfg.address run.view with
  | true => exact Or.inl (h.inv.store.sent_of_proposer hsole hprop hstored)
  | false =>
    exact (h.follows run hrun hprop).endorsed hsole h.inv.store (h.inv.run run hrun) hphase hstored

theorem Node.checkedInv_of_reachable (hsole : SoleProposer cfg) {height : UInt64}
    (h : Reachable (Node.step cfg) (Node.init cfg height) n) : n.CheckedInv cfg := by
  refine h.invariant (fun n ev n' hold hstep => ?_) ⟨Node.Inv.init height,
    (fun run hrun => by cases hrun), fun run hrun => by cases hrun⟩
  have hcases := nodeStep_of_step hstep
  have hinv' := hold.inv.step hstep
  refine ⟨hinv', hold.follows.step hold.inv hinv' hcases, ?_⟩
  refine hcases.forall_runs (P := fun K run => run.TakesOnly (Endorsed cfg K))
    (fun hK hP => hP.mono fun _ hp => hp.mono hK)
    (fun height => Run.start_takesOnly n.messages height) (fun run run' hrun _ hrunstep hP => ?_)
    hold.takes
  have htakes := hP.step (fun p hphase hstored =>
    ⟨hold.endorsed hsole hrun hphase hstored, (hold.inv.store.proposal _ p hstored).1⟩) hrunstep
  exact htakes.mono fun _ hp => hp.mono hcases.knowledge_le

/-! ## The block is the one of the certificate -/

variable (cfg) in
/-- The block in the round change has the digest its certificate is for. -/
def BoundBlock (rc : RoundChangeMessageSigned) : Prop :=
  ∀ pp, rc.latestPreparedProposed = some pp →
    pp.preparedCertificate.proposalMeta.proposedBlockDigest = pp.proposedBlock.digest cfg.crypto

/-- The block of a checked proposal has the digest that its prepares are for. -/
theorem CarriesFrom.boundBlock {rc : RoundChangeMessageSigned}
    (h : CarriesFrom (fun p => p.verifyBlockDigest cfg.crypto = true) rc) : BoundBlock cfg rc := by
  intro pp hpp
  obtain ⟨p, prepares, hgood, rfl⟩ := h pp hpp
  exact (of_decide_eq_true hgood).symm

/-- The block in a round change of the node has the digest of its certificate. -/
theorem Node.CheckedInv.boundBlock (h : n.CheckedInv cfg) (hrun : run ∈ n.runs)
    {rc : RoundChangeMessageSigned} (hlog : .broadcast (.roundChange rc) ∈ run.log) :
    BoundBlock cfg rc :=
  (((h.takes run hrun).log rc hlog).mono fun _ hp => hp.verifyBlockDigest h.inv.actions).boundBlock

/-! ## The checks of a peer -/

/-- **Round changes are usable.**  Every round change of a run within the round limit is accepted by
each peer with the same validator manager: by its handler, by its verify function, and as part of
the certificate of a proposal. -/
theorem roundChange_usable {height₀ : UInt64}
    (hreach : Reachable (Node.step cfg) (Node.init cfg height₀) n) (hsole : SoleProposer cfg)
    (hrun : run ∈ n.runs)
    (hval : cfg.validatorManager.isValidator cfg.address run.height = true)
    {rc : RoundChangeMessageSigned} (hrc : .broadcast (.roundChange rc) ∈ run.log)
    (hround : rc.view.round ≤ maxRound) (key : SecretKey)
    (hpeer : cfg.crypto.address key ≠ cfg.address) {finalized : UInt64}
    (hfinalized : finalized < run.height) :
    checkConsensusMessage { cfg with key } finalized (.roundChange rc) =
        .ok (some cfg.address) ∧
      roundChangeVerifyFn { cfg with key } run.height rc = true ∧
      rc.intoMetadata.2.recoverSigner cfg.crypto = .ok cfg.address ∧
      ∀ pc, rc.intoMetadata.2.latestPreparedCertificate = some pc →
        verifyPreparedCertificate { cfg with key } pc run.height rc.view.round = true := by
  have hinv := Node.inv_of_reachable hreach
  have hheight : rc.view.height = run.height := (hinv.logOk hrun).height_eq _ hrc
  have hrcOk : OwnRoundChange cfg n.knowledge rc := hinv.actions _ (Node.mem_history hrun hrc)
  have hbound := (Node.checkedInv_of_reachable hsole hreach).boundBlock hrun hrc
  have hsigner : rc.recoverSigner cfg.crypto = .ok cfg.address := by
    rw [hrcOk.eq_own]
    exact RoundChangeMessage.recoverSigner_intoSigned _ _ _
  -- The checks of a certificate read nothing of the peer but what it shares with the node.
  have hcert : ∀ pp, rc.latestPreparedProposed = some pp →
      verifyPreparedCertificate { cfg with key } pp.preparedCertificate run.height
        rc.view.round = true := by
    intro pp hpp
    obtain ⟨p, entries, hfrom⟩ := hrcOk.prepared pp hpp
    have hvalid := hfrom.validCertificate hinv.actions (by rw [hheight]; exact hval)
    rw [hheight] at hvalid
    exact verifyPreparedCertificate_iff.mpr (hvalid.congr rfl rfl)
  refine ⟨?_, ?_, hsigner, fun pc hpc => ?_⟩
  · rw [checkConsensusMessage_eq_some_iff]
    refine ⟨?_, hround, hsigner, hpeer.symm, ?_, hrcOk.round_ne⟩
    · change finalized < rc.view.height
      rw [hheight]
      exact hfinalized
    · change cfg.validatorManager.isValidator cfg.address rc.view.height = true
      rw [hheight]
      exact hval
  · unfold roundChangeVerifyFn
    split
    · rfl
    next pp hpp =>
      simp only
      rw [if_neg (not_not.mpr (hbound pp hpp))]
      exact hcert pp hpp
  · obtain ⟨pp, hpp, rfl⟩ := Option.map_eq_some_iff.mp hpc
    exact hcert pp hpp

/-- The second of four validators accepts the round change of the first, with its certificate of
round 0. -/
theorem roundChange_usable_four :
    checkConsensusMessage { fourConfig with key := modelKey 1 } 0
        (.roundChange (fourRoundChange 0)) = .ok (some fourConfig.address) ∧
      roundChangeVerifyFn { fourConfig with key := modelKey 1 } fourRun.height
        (fourRoundChange 0) = true ∧
      (fourRoundChange 0).intoMetadata.2.recoverSigner modelCrypto = .ok fourConfig.address ∧
      ∀ pc, (fourRoundChange 0).intoMetadata.2.latestPreparedCertificate = some pc →
        verifyPreparedCertificate { fourConfig with key := modelKey 1 } pc fourRun.height
          (fourRoundChange 0).view.round = true :=
  roundChange_usable fourNode_reachable
    (ValidatorManager.UniqueProposer.soleProposer fun _ _ _ => mockManager_proposer_unique _)
    fourRun_mem (by decide +kernel) (by decide +kernel) (by decide +kernel) (modelKey 1)
    (by decide +kernel) (by decide +kernel)

/-! ## Two proposers for a view -/

/-- A manager for which two validators are proposers of every view, and each is a quorum. -/
def twoProposers : ValidatorManager where
  isProposer address _ := address ∈ [modelAddress 0, modelAddress 1]
  isValidator address _ := address ∈ [modelAddress 0, modelAddress 1]
  quorum _ := 1

def twoProposersConfig : Config where
  crypto := modelCrypto
  validatorManager := twoProposers
  key := modelKey 0

/-- A proposal signed by the other proposer, with another block than the one it is signed for. -/
def swappedProposal : ProposalMessageSigned :=
  { (ProposalMessage.new modelCrypto ⟨1, 0⟩ [8] none).intoSigned modelCrypto (modelKey 1) with
    message := { ProposalMessage.new modelCrypto ⟨1, 0⟩ [8] none with
      proposedBlock := { rawBlock := [9], round := 0 } } }

/-- The first validator has the swapped proposal in its store when its height starts. -/
def twoProposersEvents : List Event :=
  List.flatten
    [[.receive (.proposal swappedProposal), .addPending, .runHeight 1],
      List.replicate 6 (.round (modelEnv [7])), [.timeout],
      List.replicate 3 (.main (modelEnv [7]))]

def twoProposersNode : Node :=
  (exec (Node.step twoProposersConfig) (Node.init twoProposersConfig 0) twoProposersEvents).get
    (by decide +kernel)

def twoProposersRun : Run := twoProposersNode.run.get (by decide +kernel)

def swappedRoundChange : RoundChangeMessageSigned :=
  twoProposersRun.latestSelfRoundChange.get (by decide +kernel)

/-- When the node proposes for a view that has another proposer, its round change carries the
block of the other one, which it has not checked. -/
theorem roundChange_not_usable :
    Reachable (Node.step twoProposersConfig) (Node.init twoProposersConfig 0) twoProposersNode ∧
      twoProposersRun ∈ twoProposersNode.runs ∧
      NoOwnMessages twoProposersConfig twoProposersRun.initialMessages twoProposersRun.height ∧
      twoProposers.isValidator twoProposersConfig.address twoProposersRun.height = true ∧
      .broadcast (.roundChange swappedRoundChange) ∈ twoProposersRun.log ∧
      swappedRoundChange.view.round ≤ maxRound ∧
      modelCrypto.address (modelKey 1) ≠ twoProposersConfig.address ∧
      0 < twoProposersRun.height ∧
      roundChangeVerifyFn { twoProposersConfig with key := modelKey 1 } twoProposersRun.height
        swappedRoundChange = false := by
  have hreach : Reachable (Node.step twoProposersConfig) (Node.init twoProposersConfig 0)
      twoProposersNode := reachable_get _
  have hrun : twoProposersRun ∈ twoProposersNode.runs :=
    List.mem_append_right _ (Option.mem_toList.mpr (Option.some_get _).symm)
  exact ⟨hreach, hrun, Node.noOwnMessages_of_once hreach (by decide +kernel) hrun,
    by decide +kernel, by decide +kernel, by decide +kernel, by decide +kernel,
    by decide +kernel, by decide +kernel⟩

end Tonic
