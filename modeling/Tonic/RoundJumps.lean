/-
# Round jumps are justified

A run leaves a round early when one of its monitors has found a later round to go to.
The two monitors judge by different evidence: one counts the round changes in the store,
the other accepts a proposal for the certificate it carries.  Either way a quorum of
validators has signed round changes for exactly the round that is entered, and the node
has seen them all.  A proposal of the node itself, left in the store by an earlier run of
the height, was built from such round changes too.
-/
import Tonic.RelatedLists
import Tonic.StoreStep
import Tonic.ModelCrypto

namespace Tonic

open Transition

variable (cfg : Config)

/-! ## Round changes a node has seen -/

/-- The signed round changes in a message. -/
def IBFTMessage.roundChanges : IBFTMessage → List RoundChangeMetadata
  | .roundChange rc => [rc.intoMetadata.2]
  | .proposal p => p.roundChanges
  | .prepare _ | .commit _ => []

def Action.roundChanges : Action → List RoundChangeMetadata
  | .broadcast m => m.roundChanges
  | .entered _ | .verifiedBlock _ _ | .finalized _ _ => []

/-- The signed round changes among what a node has received and broadcast. -/
def Knowledge.roundChanges (K : Knowledge) : List RoundChangeMetadata :=
  K.received.flatMap IBFTMessage.roundChanges ++ K.history.flatMap Action.roundChanges

/-- A quorum of different validators of the height has signed round changes for the view. -/
def RoundChangeQuorum (K : Knowledge) (view : View) : Prop :=
  ∃ validators : List Address, validators.Nodup ∧
    cfg.validatorManager.quorum view.height ≤ validators.length ∧
    ∀ a ∈ validators, cfg.validatorManager.isValidator a view.height = true ∧
      ∃ rc ∈ K.roundChanges, rc.view = view ∧ rc.recoverSigner cfg.crypto = .ok a

variable {cfg} {n n' : Node} {msgs msgs' : ConsensusMessages} {run run' : Run} {ev : Event}
  {K K' : Knowledge} {view : View}

theorem Knowledge.mem_roundChanges_received {m : IBFTMessage} {rc : RoundChangeMetadata}
    (hm : m ∈ K.received) (hrc : rc ∈ m.roundChanges) : rc ∈ K.roundChanges :=
  List.mem_append_left _ (List.mem_flatMap.mpr ⟨m, hm, hrc⟩)

theorem Knowledge.mem_roundChanges_sent {m : IBFTMessage} {rc : RoundChangeMetadata}
    (hm : .broadcast m ∈ K.history) (hrc : rc ∈ m.roundChanges) : rc ∈ K.roundChanges :=
  List.mem_append_right _ (List.mem_flatMap.mpr ⟨.broadcast m, hm, hrc⟩)

theorem RoundChangeQuorum.mono (hK : K ≤ K') (h : RoundChangeQuorum cfg K view) :
    RoundChangeQuorum cfg K' view := by
  obtain ⟨validators, hnodup, hlen, hall⟩ := h
  refine ⟨validators, hnodup, hlen, fun a ha => ?_⟩
  obtain ⟨hval, rc, hrc, hsigned⟩ := hall a ha
  refine ⟨hval, rc, ?_, hsigned⟩
  rcases List.mem_append.mp hrc with hrc | hrc
  · obtain ⟨m, hm, hrc⟩ := List.mem_flatMap.mp hrc
    exact Knowledge.mem_roundChanges_received (hK.2 hm) hrc
  · obtain ⟨action, haction, hrc⟩ := List.mem_flatMap.mp hrc
    exact List.mem_append_right _ (List.mem_flatMap.mpr ⟨action, hK.1 haction, hrc⟩)

/-- Counted round changes of a quorum of senders are one. -/
theorem StoreInv.roundChangeQuorum (hstore : StoreInv cfg K msgs)
    (hactions : ∀ a ∈ K.history, ActionOk cfg K a)
    (hself : cfg.validatorManager.isValidator cfg.address view.height = true)
    {f : RoundChangeMessageSigned → Bool}
    (hlen : cfg.validatorManager.quorum view.height ≤
      (ConsensusMessages.viewEntries (msgs.retainVerified view f) view).length) :
    RoundChangeQuorum cfg K view := by
  let entries := ConsensusMessages.viewEntries (msgs.retainVerified view f) view
  have hnodup : (entries.map Prod.fst).Nodup := ConsensusMessages.nodup_viewEntries
  refine ⟨entries.map Prod.fst, hnodup, by rwa [List.length_map], fun a ha => ?_⟩
  obtain ⟨e, he, rfl⟩ := List.mem_map.mp ha
  obtain ⟨flag, hst⟩ := ConsensusMessages.stores_of_mem_retainVerified he
  obtain ⟨hview, horigin⟩ := hstore.roundChange view e.1 e.2.1 flag hst
  cases horigin with
  | peer hrecv _ hrec hadm =>
    refine ⟨?_, e.2.1.intoMetadata.2, Knowledge.mem_roundChanges_received hrecv
      List.mem_cons_self, hview, hrec⟩
    rw [← hview]
    exact hadm.1
  | own heq hsent =>
    have hown : OwnRoundChange cfg K e.2.1 := hactions _ hsent
    rw [heq]
    refine ⟨hself, e.2.1.intoMetadata.2, Knowledge.mem_roundChanges_sent hsent
      List.mem_cons_self, hview, ?_⟩
    change e.2.1.recoverSigner cfg.crypto = .ok cfg.address
    rw [hown.eq_own]
    exact RoundChangeMessage.recoverSigner_intoSigned _ _ _

/-- The certificate of an accepted proposal is one. -/
theorem RoundChangesFor.roundChangeQuorum {p : ProposalMessageSigned} {validators : List Address}
    {highest : HighestRound} (h : RoundChangesFor cfg p validators highest)
    (hrecv : .proposal p ∈ K.received) : RoundChangeQuorum cfg K p.view := by
  refine ⟨validators, h.nodup, h.signed.length_eq ▸ h.quorum_le, fun a ha => ?_⟩
  obtain ⟨rc, hrc, hsigned⟩ := RelatedLists.exists_mem_left_of_forall₂ h.signed ha
  exact ⟨hsigned.isValidator, rc, Knowledge.mem_roundChanges_received hrecv hrc,
    hsigned.view_eq, hsigned.recover⟩

/-! ## What the tasks go by -/

/-- The monitor of round changes goes by a count that has reached the quorum. -/
theorem FutureRccTask.sent_of_step {task : FutureRccTask} {runState : RunState}
    {s : TaskStep FutureRccTask} {round : UInt8}
    (hstep : task.step cfg view runState msgs = some s) (hs : s.task = .sent round)
    (hheight : ∀ rx counts v, task = .recount rx counts v → v.height = view.height) :
    cfg.validatorManager.quorum view.height ≤
      (msgs.getValidRoundChangeCount { height := view.height, round }
        (roundChangeVerifyFn cfg view.height)).1 := by
  -- A scan goes on to the next index or to the receiver.
  have hscan : ∀ {counts : List ℕ} {k : ℕ} {rx : Receiver},
      scanBelow cfg view rx counts k ≠ .sent round := by
    intro counts k rx heq
    simp only [scanBelow] at heq
    split at heq <;> cases heq
  cases task with
  | start =>
    cases hstep
    cases hs
  | countByRound rx =>
    simp only [step] at hstep
    split at hstep
    · cases hstep
      cases hs
    · cases hstep
      exact absurd hs hscan
  | scan rx counts idx =>
    cases hstep
    simp only [goto] at hs
    split at hs
    next hcount =>
      cases hs
      exact hcount
    next => exact absurd hs hscan
  | recv rx counts =>
    simp only [step] at hstep
    repeat' split at hstep
    all_goals cases hstep
    all_goals cases hs
  | recount rx counts v =>
    cases hstep
    simp only [goto] at hs
    split at hs
    next hcount =>
      cases hs
      rw [← hheight rx counts v rfl] at hcount ⊢
      exact hcount
    next => cases hs
  | sent | panicked => cases hstep

/-- The monitor of proposals goes by a query that has returned a digest. -/
theorem FutureProposalTask.sent_of_step {task : FutureProposalTask} {env : Env}
    {runState : RunState} {s : TaskStep FutureProposalTask} {round : UInt8}
    (hinv : task.Inv view) (hstep : task.step cfg env view runState msgs = some s)
    (hs : s.task = .sent round) :
    ∃ (v : View) (d : Digest), v = { height := view.height, round } ∧
      (msgs.getValidProposalDigest v (proposalVerifyFn cfg env v)).1 = some (.ok d) ∧
      s.actions = RoundTask.blockChecks cfg env msgs v := by
  -- A round is sent only with the digest of a verified proposal.
  have hverify : ∀ {v : View} {next : FutureProposalTask}, next ≠ .sent round →
      (verifyFuture cfg env runState msgs v next).task = .sent round → v.round = round ∧
        ∃ d, (msgs.getValidProposalDigest v (proposalVerifyFn cfg env v)).1 = some (.ok d) := by
    intro v next hnext heq
    simp only [verifyFuture] at heq
    split at heq
    next d hd =>
      cases heq
      exact ⟨rfl, d, hd⟩
    next => exact absurd heq hnext
  have hscan : ∀ {present : List Bool} {k : ℕ} {rx : Receiver},
      scanBelow view rx present k ≠ .sent round := by
    intro present k rx heq
    simp only [scanBelow] at heq
    split at heq <;> cases heq
  cases task with
  | start =>
    cases hstep
    cases hs
  | hasByRound rx =>
    simp only [step] at hstep
    split at hstep
    · cases hstep
      cases hs
    · cases hstep
      exact absurd hs hscan
  | scan rx present idx =>
    cases hstep
    obtain ⟨rfl, d, hd⟩ := hverify hscan hs
    exact ⟨_, d, rfl, hd, rfl⟩
  | recv rx =>
    simp only [step] at hstep
    split at hstep
    · cases hstep
    · cases hstep
      cases hs
    · cases hstep
      simp only [goto] at hs
      split at hs <;> cases hs
  | verify rx v =>
    cases hstep
    obtain ⟨rfl, d, hd⟩ := hverify (by simp) hs
    exact ⟨v, d, by rw [← hinv.1], hd, rfl⟩
  | sent | panicked => cases hstep

/-! ## The invariant -/

variable (cfg) in
/-- What the tasks of a run are about to act on is justified. -/
structure Run.Justified (K : Knowledge) (run : Run) : Prop where
  proposal : ∀ p, run.roundTask = some (.broadcastProposal p) → run.round ≠ 0 →
    RoundChangeQuorum cfg K run.view
  futureProposal : ∀ round, run.futureProposalTask = some (.sent round) →
    RoundChangeQuorum cfg K { height := run.height, round }
  futureRcc : ∀ round, run.futureRccTask = some (.sent round) →
    RoundChangeQuorum cfg K { height := run.height, round }

variable (cfg) in
/-- Proposals for rounds above 0 that the node has made rest on a quorum of round changes. -/
def JustifiedProposals (K : Knowledge) : Prop :=
  ∀ p, Action.broadcast (.proposal p) ∈ K.history → p.view.round ≠ 0 →
    cfg.validatorManager.isValidator cfg.address p.view.height = true →
    RoundChangeQuorum cfg K p.view

theorem Run.Justified.mono (hK : K ≤ K') (h : run.Justified cfg K) : run.Justified cfg K' where
  proposal p hp hround := (h.proposal p hp hround).mono hK
  futureProposal round hr := (h.futureProposal round hr).mono hK
  futureRcc round hr := (h.futureRcc round hr).mono hK

theorem Run.Spawned.justified (h : run.Spawned) : run.Justified cfg K where
  proposal p hp := by cases h.round _ hp
  futureProposal round hr := by cases h.futureProposal _ hr
  futureRcc round hr := by cases h.futureRcc _ hr

variable (cfg) in
/-- The invariant of a node behind its jumps. -/
structure Node.JustifiedInv (n : Node) : Prop where
  proposals : JustifiedProposals cfg n.knowledge
  run : ∀ run, n.run = some run →
    cfg.validatorManager.isValidator cfg.address run.height = true → run.Justified cfg n.knowledge

/-- A stored proposal that a query accepts rests on a quorum of round changes. -/
theorem StoreInv.roundChangeQuorum_of_query (hstore : StoreInv cfg K msgs)
    (hproposals : JustifiedProposals cfg K) (hself :
      cfg.validatorManager.isValidator cfg.address view.height = true) (hround : view.round ≠ 0)
    {env : Env} {d : Digest}
    (hd : (msgs.getValidProposalDigest view (proposalVerifyFn cfg env view)).1 = some (.ok d))
    (hK : K ≤ K') (hchecks : RoundTask.blockChecks cfg env msgs view ⊆ K'.history) :
    RoundChangeQuorum cfg K' view := by
  obtain ⟨p, hp, rfl, -, ⟨a, horigin⟩, hjudged⟩ := hstore.getValidProposalDigest_ok hd hK hchecks
  have hown : .broadcast (.proposal p) ∈ K.history → RoundChangeQuorum cfg K' p.view :=
    fun hsent => (hproposals p hsent hround hself).mono hK
  cases horigin with
  | own _ hsent => exact hown hsent
  | peer hrecv =>
    rcases hjudged with ⟨env', hok, -⟩ | hsent
    · rcases proposalVerifyFn_ok hok with ⟨hzero, -⟩ | ⟨-, validators, highest, hfor, -⟩
      · exact absurd hzero hround
      · exact hfor.roundChangeQuorum (hK.2 hrecv)
    · exact hown hsent

/-- A step of the current run keeps its tasks justified. -/
theorem Run.Justified.step (h : run.Justified cfg n.knowledge) (hinv : n.Inv cfg)
    (hheight : run.RecountsHeight) (hproposals : JustifiedProposals cfg n.knowledge)
    (hself : cfg.validatorManager.isValidator cfg.address run.height = true)
    (hrun : n.run = some run) (hstep : RunStep cfg n.messages run ev msgs' run')
    (hK : n.knowledge ≤ K') (hlog : run'.log ⊆ K'.history) : run'.Justified cfg K' := by
  have hold := h.mono hK
  have hrunInv := hinv.run run hrun
  cases hstep with
  | @round env task s htask hs =>
    refine ⟨fun p hp hround => ?_, hold.futureProposal, hold.futureRcc⟩
    -- Above round 0 a proposal is composed of a quorum of round changes.
    rcases RoundTask.broadcastProposal_of_step hs (Option.some.inj hp) with
      ⟨-, hzero, -⟩ | ⟨-, hlen⟩
    · exact absurd hzero hround
    · exact (hinv.store.roundChangeQuorum hinv.actions hself hlen).mono hK
  | @futureProposal env task s htask hs =>
    refine ⟨hold.proposal, fun round hr => ?_, hold.futureRcc⟩
    have htaskinv := hrunInv.proposalTask task htask
    obtain ⟨v, d, rfl, hd, hchecks⟩ :=
      FutureProposalTask.sent_of_step htaskinv hs (Option.some.inj hr)
    have hlater := (FutureProposalTask.step_spec hinv.round_le_of_storedProposal htaskinv hs).1
    rw [Option.some.inj hr] at hlater
    refine hinv.store.roundChangeQuorum_of_query hproposals hself (fun hzero => ?_) hd hK ?_
    · -- The round is above another one.
      obtain ⟨hlt, -⟩ := hlater
      rw [show round = 0 from hzero] at hlt
      exact absurd hlt (UInt8.not_lt.mpr UInt8.zero_le)
    · intro a ha
      refine hlog (List.mem_append_right _ ?_)
      rw [hchecks]
      exact ha
  | @futureRcc task s htask hs =>
    refine ⟨hold.proposal, hold.futureProposal, fun round hr => ?_⟩
    have hlen := FutureRccTask.sent_of_step hs (Option.some.inj hr)
      (fun rx counts v heq => hheight rx counts v (heq ▸ htask))
    exact (hinv.store.roundChangeQuorum hinv.actions hself hlen).mono hK
  | broadcastRoundChange | futureProposalReady | futureRccReady =>
    exact (Run.spawned_enterRound cfg _ _).justified
  | addOwnRoundChange =>
    exact ⟨(fun p hp => by cases hp), hold.futureProposal, hold.futureRcc⟩
  | cancel | roundFinished | timeoutCommit | timeoutEarly =>
    exact Run.Spawned.justified (Run.spawned_abort run _)
  | _ => exact ⟨hold.proposal, hold.futureProposal, hold.futureRcc⟩

theorem Node.JustifiedInv.step (h : n.JustifiedInv cfg) (hinv : n.Inv cfg)
    (hheight : ∀ run, n.run = some run → run.RecountsHeight) (hstep : n.step cfg ev = some n') :
    n'.JustifiedInv cfg := by
  have hcases := nodeStep_of_step hstep
  have hK := hcases.knowledge_le
  -- Proposals that were made before are justified.
  have hproposals : ∀ p, .broadcast (.proposal p) ∈ n.history → p.view.round ≠ 0 →
      cfg.validatorManager.isValidator cfg.address p.view.height = true →
      RoundChangeQuorum cfg n'.knowledge p.view :=
    fun p hp hround hself => (h.proposals p hp hround hself).mono hK
  cases hcases with
  | receive => exact ⟨hproposals, fun run hrun hself => (h.run run hrun hself).mono hK⟩
  | addPending => exact ⟨hproposals, fun run hrun hself => (h.run run hrun hself).mono hK⟩
  | @runHeight height past hpast =>
    refine ⟨fun p hp => ?_, fun run hrun _ => ?_⟩
    · obtain ⟨run, hrun, hlog⟩ := List.mem_flatMap.mp hp
      rcases List.mem_append.mp hrun with hrun | hrun
      · subst hpast
        exact hproposals p (Node.mem_history hrun hlog)
      · cases Option.mem_toList.mp hrun
        rcases (Node.inv_start cfg n.knowledge n.messages height).2 with hnil | hentered
        · rw [hnil] at hlog
          cases hlog
        · rw [hentered] at hlog
          cases List.mem_singleton.mp hlog
    · cases hrun
      exact (Run.spawned_start cfg _ height).justified
  | @run ev run run' msgs height hrun hrunstep =>
    have hmem : run ∈ n.runs := List.mem_append_right _ (Option.mem_toList.mpr hrun)
    have hrunInv := hinv.run run hrun
    refine ⟨fun p hp hround hself => ?_, fun r hr hself => ?_⟩
    · obtain ⟨r, hr, hlog⟩ := List.mem_flatMap.mp hp
      rcases List.mem_append.mp hr with hr | hr
      · exact hproposals p (Node.mem_history (List.mem_append_left _ hr) hlog) hround hself
      · cases Option.mem_toList.mp hr
        rcases hrunstep.broadcast_mem_log hinv.round_le_of_storedProposal hrunInv hlog with
          hlog | ⟨task, htask, hout⟩ | ⟨rc, hrc, -⟩
        · exact hproposals p (Node.mem_history hmem hlog) hround hself
        · obtain rfl := RoundTask.eq_broadcastProposal hout
          obtain ⟨-, -, -, hview⟩ := (hrunInv.select_of_task htask).2
          rw [hview] at hround hself ⊢
          exact ((h.run run hrun hself).proposal p htask hround).mono hK
        · cases hrc
    · cases hr
      have hheight' := hrunstep.same.1
      rw [hheight'] at hself
      refine (h.run run hrun hself).step hinv (hheight run hrun) h.proposals hself hrun hrunstep hK
        fun a ha => ?_
      exact List.mem_flatMap.mpr
        ⟨_, List.mem_append_right _ (Option.mem_toList.mpr rfl), ha⟩

theorem Node.justifiedInv_of_reachable {height : UInt64}
    (h : Reachable (Node.step cfg) (Node.init cfg height) n) : n.JustifiedInv cfg :=
  h.invariant_of (fun _ hn => Node.storeKnown_of_reachable hn)
    (fun _ _ _ hn _ hold hstep => hold.step hn.inv hn.recounts hstep)
    ⟨(fun p hp => by cases hp), fun run hrun => by cases hrun⟩

/-! ## Jumps -/

variable (cfg) in
/-- The current run leaves its round for another one that a quorum of validators has signed round
changes for. -/
def JustifiedJump (n n' : Node) : Prop :=
  ∃ run run', n.run = some run ∧ n'.run = some run' ∧ run'.height = run.height ∧
    run.round < run'.round ∧ run'.round ≤ maxRound ∧ RoundChangeQuorum cfg n.knowledge run'.view

theorem justifiedJump_enterRound {round : UInt8} (hrun : n.run = some run)
    (hrun' : n'.run = some (run.abort.enterRound cfg round)) (hlater : run.round < round)
    (hmax : round ≤ maxRound)
    (hquorum : RoundChangeQuorum cfg n.knowledge { height := run.height, round }) :
    JustifiedJump cfg n n' := by
  have hround : (run.abort.enterRound cfg round).round = round := by
    unfold Run.enterRound
    rw [if_neg (UInt8.not_lt.mpr hmax)]
    simp only
    repeat' split
    all_goals rfl
  have hheight : (run.abort.enterRound cfg round).height = run.height :=
    (Run.enterRound_same cfg run.abort round).1
  refine ⟨run, _, hrun, hrun', hheight, by rwa [hround], by rwa [hround], ?_⟩
  rw [Run.view, hround, hheight]
  exact hquorum

variable (cfg) in
/-- **Round jumps are justified.**  Whenever a run leaves its round through one of its monitors, it
goes to a later round within the limit, for which a quorum of validators has signed round changes
that the node has seen.  The node is a validator of the height; nothing is assumed of its peers. -/
theorem jump_justified {height₀ : UInt64}
    (hreach : Reachable (Node.step cfg) (Node.init cfg height₀) n)
    (hval : ∀ run, n.run = some run →
      cfg.validatorManager.isValidator cfg.address run.height = true)
    (hev : ev = .futureProposalReady ∨ ev = .futureRccReady)
    (hstep : n.step cfg ev = some n') : JustifiedJump cfg n n' := by
  have hinv := Node.inv_of_reachable hreach
  have hjustified := Node.justifiedInv_of_reachable hreach
  cases nodeStep_of_step hstep with
  | receive | addPending | runHeight => rcases hev with hev | hev <;> cases hev
  | @run ev run run' msgs height hrun hrunstep =>
    have hrunInv := hinv.run run hrun
    have hrunJust := hjustified.run run hrun (hval run hrun)
    cases hrunstep with
    | futureProposalReady _ htask =>
      obtain ⟨hlater, hmax⟩ := hrunInv.proposalTask _ htask
      exact justifiedJump_enterRound hrun rfl hlater hmax (hrunJust.futureProposal _ htask)
    | futureRccReady _ htask =>
      obtain ⟨hlater, hmax⟩ := hrunInv.rccTask _ htask
      exact justifiedJump_enterRound hrun rfl hlater hmax (hrunJust.futureRcc _ htask)
    | _ => rcases hev with hev | hev <;> cases hev

/-- The first of four validators waits in round 0 while the others go on to round 1, and its monitor
finds their round changes. -/
def behindEvents : List Event :=
  List.flatten
    [waitingEvents, [1, 2, 3].flatMap fun signer => arrives (.roundChange (fourRoundChange signer)),
      List.replicate 4 .futureRcc]

def behindNode : Node :=
  (exec (Node.step fourConfig) (Node.init fourConfig 0) behindEvents).get (by decide +kernel)

/-- It jumps to round 1 on the evidence of the three round changes. -/
theorem jump_justified_four :
    JustifiedJump fourConfig behindNode
      ((behindNode.step fourConfig .futureRccReady).get (by decide +kernel)) :=
  jump_justified fourConfig (reachable_get _) (by decide +kernel)
    (Or.inr (Eq.refl Event.futureRccReady)) (Option.some_get _).symm

/-- A manager whose proposer is none of its validators. -/
def outsideProposer : ValidatorManager where
  isProposer address _ := address = modelAddress 0
  isValidator address _ := address = modelAddress 1
  quorum _ := 1

def outsideConfig : Config where
  crypto := modelCrypto
  validatorManager := outsideProposer
  key := modelKey 0

/-- The proposer times out in round 0 of height 1 and adds its round change for round 1.  The run is
cancelled; when the height is run again, its monitor finds that round change. -/
def rerunEvents : List Event :=
  List.flatten
    [[.runHeight 1, .timeout], List.replicate 2 (.main (modelEnv [7])), [.cancel, .runHeight 1],
      List.replicate 3 .futureRcc]

def outsideRerunNode : Node :=
  (exec (Node.step outsideConfig) (Node.init outsideConfig 0) rerunEvents).get (by decide +kernel)

/-- A node that is not a validator counts its own round change, and jumps although no validator has
signed one. -/
theorem jump_not_justified :
    Reachable (Node.step outsideConfig) (Node.init outsideConfig 0) outsideRerunNode ∧
      ∃ n', outsideRerunNode.step outsideConfig .futureRccReady = some n' ∧
        ¬ JustifiedJump outsideConfig outsideRerunNode n' := by
  refine ⟨reachable_get _, (outsideRerunNode.step outsideConfig .futureRccReady).get
    (by decide +kernel), (Option.some_get _).symm, ?_⟩
  rintro ⟨run, run', -, -, -, -, -, validators, -, hlen, hall⟩
  obtain ⟨a, ha⟩ := List.exists_mem_of_length_pos hlen
  obtain ⟨hval, rc, hrc, -, hsigned⟩ := hall a ha
  have hseen : ∀ rc ∈ outsideRerunNode.knowledge.roundChanges,
      rc.recoverSigner modelCrypto ≠ .ok (modelAddress 1) := by decide +kernel
  rw [show a = modelAddress 1 from of_decide_eq_true hval] at hsigned
  exact hseen rc hrc hsigned

end Tonic
