/-
# Agreement

Two honest nodes that finalize a block of a height finalize the same one.  The honest
nodes follow the rules of locking of `QuorumVoting`: a proposal of a later round is
accepted only for the block of the latest certificate behind it, and who has committed
announces a certificate at least as recent.

Both rules have a gap in the code.  The running maximum over the certificates of a
proposal starts at round 0 and takes only a higher round, so that certificates of round 0
are passed over; and a round may end without its lock, as `LockPreservation` says.  In
runs whose steps keep clear of both gaps there is agreement; in a run of four validators,
one of them Byzantine, the first gap breaks it.
-/
import Tonic.ExternalValidity
import Tonic.Reproposal
import Tonic.UsableRoundChange

namespace Tonic

open Transition RelatedLists

variable {cfg : Config} {n n' : Node} {msgs : ConsensusMessages} {run run' : Run} {ev : Event}
  {K : Knowledge} {height height₀ : UInt64}

/-! ## Steps that keep locks -/

/-- The steps that end no round without its lock: no jump leaves a round with a commit, and no
timeout comes between the commit and the commit state. -/
def Run.EndsLocked (run : Run) : Event → Prop
  | .futureProposalReady | .futureRccReady => ¬ run.Committed
  | .timeout => run.runState = .commit ∨ ¬ run.Committed
  | _ => True

/-- The proposal is for the block of the valid certificates it carries, if these are all of
round 0. -/
def ProposalMessageSigned.KeepsCertificate (cfg : Config) (p : ProposalMessageSigned) : Prop :=
  p.view.round ≠ 0 → (∀ pc ∈ p.certificates, pc.proposalMeta.view.round = 0) →
    ∀ pc ∈ p.certificates, verifyPreparedCertificate cfg pc p.view.height p.view.round = true →
      digestBlock cfg.crypto p.proposedBlock.rawBlock 0 = pc.proposalMeta.proposedBlockDigest

/-- A proposal of the height that is received keeps its certificate. -/
def Event.KeepsCertificate (cfg : Config) (height : UInt64) : Event → Prop
  | .receive (.proposal p) => p.view.height = height → p.KeepsCertificate cfg
  | _ => True

/-- A step of a node that keeps the locks of the height. -/
def Node.KeepsLocks (cfg : Config) (height : UInt64) (n : Node) (ev : Event) : Prop :=
  (∀ run, n.run = some run → run.height = height → run.EndsLocked ev) ∧
    ev.KeepsCertificate cfg height

theorem Run.EndsLocked.leavesLocks (h : run.EndsLocked ev) (hfree : run.SlotFree msgs ev) :
    run.LeavesLocks msgs ev := by
  cases ev with
  | futureProposalReady | futureRccReady | timeout => exact h
  | _ => exact hfree

/-- The clean runs of a height whose steps keep its locks. -/
theorem Node.lockInv_of_keepsLocks (hsole : SoleProposer cfg)
    (h : ReachableWithin (Node.step cfg) (Node.KeepsLocks cfg height) (Node.init cfg height₀) n)
    (hrun : run ∈ n.runs) (hheight : run.height = height)
    (hown : NoOwnMessages cfg run.initialMessages run.height) : run.LockInv := by
  let Locked : Knowledge → Run → Prop := fun _ run => run.height = height →
    NoOwnMessages cfg run.initialMessages run.height → run.LockInv
  let AllLocked : Node → Prop := fun n => ∀ run ∈ n.runs, Locked n.knowledge run
  have hstep : ∀ n ev n', n.ProvenInv cfg → n'.ProvenInv cfg → n.KeepsLocks cfg height ev →
      AllLocked n → n.step cfg ev = some n' → AllLocked n' := by
    intro n ev n' hinv _ hkeeps hall hstep
    refine (nodeStep_of_step hstep).forall_runs (fun _ hP => hP)
      (fun height _ _ => Run.start_lockInv n.messages height)
      (fun run run' hrun _ hrunstep hlocked hheight hown => ?_) hall
    obtain ⟨hheight', hinitial⟩ := hrunstep.same
    rw [hheight'] at hheight
    rw [hheight', hinitial] at hown
    obtain ⟨hfresh, hdrive⟩ := hinv.clean run hrun hown
    have hrunInv := hinv.inv.run run hrun
    have hfree := hfresh.slotFree hinv.inv.store hinv.inv.actions hsole hrunInv ev
    exact (hlocked hheight hown).step hrunInv hdrive hinv.inv.round_le_of_storedProposal
      ((hkeeps.1 run hrun hheight).leavesLocks hfree) hrunstep
  have hinit : AllLocked (Node.init cfg height₀) := fun run hrun => by cases hrun
  have hall : AllLocked n :=
    h.invariant_of (fun _ hs => Node.provenInv_of_reachable hsole hs) hstep hinit
  exact hall run hrun hheight hown

/-- The proposals of the height that the node has received. -/
theorem Node.keepsCertificate_of_received
    (h : ReachableWithin (Node.step cfg) (Node.KeepsLocks cfg height) (Node.init cfg height₀) n)
    {p : ProposalMessageSigned} (hp : .proposal p ∈ n.received) (hheight : p.view.height = height) :
    p.KeepsCertificate cfg := by
  let AllKeep : Node → Prop := fun n =>
    ∀ p, .proposal p ∈ n.received → p.view.height = height → p.KeepsCertificate cfg
  have hstep : ∀ n ev n', True → True → n.KeepsLocks cfg height ev → AllKeep n →
      n.step cfg ev = some n' → AllKeep n' := by
    intro n ev n' _ _ hkeeps hall hstep p hp
    cases nodeStep_of_step hstep with
    | receive =>
      rcases List.mem_cons.mp hp with rfl | hp
      · exact hkeeps.2
      · exact hall p hp
    | addPending | runHeight | run => exact hall p hp
  have hinit : AllKeep (Node.init cfg height₀) := fun p hp => by cases hp
  exact h.invariant_of (fun _ _ => trivial) hstep hinit p hp hheight

/-! ## The certificates of an accepted proposal -/

/-- An accepted proposal of a later round has the signers of a quorum of round changes behind it,
and is for the block of the latest certificate, unless there is no valid one. -/
theorem Judged.locked {p : ProposalMessageSigned} (h : Judged cfg K p)
    (hkeeps : p.KeepsCertificate cfg) (hround : p.view.round ≠ 0) :
    ∃ validators highest, RoundChangesFor cfg p validators highest ∧
      ((∃ pc, Locks cfg p pc) ∨
        ∀ pc ∈ p.certificates, ¬ ValidCertificate cfg pc p.view.height p.view.round) := by
  obtain ⟨env, hok, -⟩ := h
  rcases proposalVerifyFn_ok hok with ⟨hzero, -⟩ | ⟨-, validators, highest, hfor, hcases⟩
  · exact absurd hzero hround
  refine ⟨validators, highest, hfor, ?_⟩
  rcases hcases with ⟨hnone, -⟩ | ⟨pc, hpc, hdigest, hvalid⟩
  · -- The loop has passed over all certificates, so that these are of round 0.
    have hall : ∀ pc ∈ p.certificates, pc.proposalMeta.view.round = 0 := by
      intro pc hpc
      have hle := hfor.highest_of.le_round pc hpc
      rw [hfor.highest_of.of_none hnone] at hle
      exact UInt8.le_antisymm hle UInt8.zero_le
    by_cases hvalid : ∃ pc ∈ p.certificates, ValidCertificate cfg pc p.view.height p.view.round
    · obtain ⟨pc, hpc, hvalid⟩ := hvalid
      have hdigest := hkeeps hround hall pc hpc (verifyPreparedCertificate_iff.mpr hvalid)
      rw [← hall pc hpc] at hdigest
      refine Or.inl ⟨pc, hpc, hvalid, hdigest, fun pc' hpc' => ?_⟩
      rw [hall pc hpc, hall pc' hpc']
      exact UInt8.le_refl _
    · exact Or.inr fun pc hpc hv => hvalid ⟨pc, hpc, hv⟩
  · obtain ⟨hmem, hhighest⟩ := hfor.highest_of.of_some pc hpc
    refine Or.inl ⟨pc, hmem, hvalid, hdigest, fun pc' hpc' => ?_⟩
    rw [← hhighest]
    exact hfor.highest_of.le_round pc' hpc'

namespace Deployment

variable {ι : Type} [Fintype ι] {S : Deployment ι} {net : Network ι}

variable [DecidableEq ι] {heights : ι → UInt64}

/-- The round change of an honest validator in the certificate of a proposal is one that it has
broadcast. -/
theorem roundChange_of_carried (hreach : Reachable S.step (S.init heights) net)
    (hfree : S.crypto.CollisionFree net.hashed) {i : ι} {p : ProposalMessageSigned}
    (hrecv : .proposal p ∈ (net i).received) {rc : RoundChangeMetadata}
    (hrc : rc ∈ p.roundChanges) {j : ι}
    (hsigned : SignsRoundChange (S.config i) p.view rc (S.address j)) :
    ∃ m, .broadcast (.roundChange m) ∈ (net j).history ∧ m.view = p.view ∧
      m.latestPreparedProposed.map PreparedProposed.preparedCertificate =
        rc.latestPreparedCertificate := by
  have hcarried : rc.attestation ∈ (IBFTMessage.proposal p).carried :=
    List.mem_flatMap.mpr ⟨rc, hrc, List.mem_cons_self⟩
  rw [← hsigned.view_eq]
  refine roundChange_of_unforged hreach hfree subset_rfl ?_ hsigned.recover ?_
  · exact ⟨i, _, Node.mem_seen.mpr (Or.inl hrecv), IBFTMessage.carried_mem_hashed hcarried⟩
  · exact unforged_of_received hreach hrecv (List.mem_cons_of_mem _ hcarried)

/-- The certificate that an honest validator has announced is valid. -/
theorem validCertificate_of_announced (hreach : Reachable S.step (S.init heights) net) {j : ι}
    {m : RoundChangeMessageSigned} (hsent : .broadcast (.roundChange m) ∈ (net j).history)
    (hmem : S.address j ∈ S.validators m.view.height) {pc : PreparedCertificate}
    (hpc : m.latestPreparedProposed.map PreparedProposed.preparedCertificate = some pc) (i : ι) :
    ValidCertificate (S.config i) pc m.view.height m.view.round := by
  have hinv := inv_node hreach j
  have hown : OwnRoundChange (S.config j) (net j).knowledge m := hinv.actions _ hsent
  obtain ⟨pp, hpp, rfl⟩ := Option.map_eq_some_iff.mp hpc
  obtain ⟨p, entries, hfrom⟩ := hown.prepared pp hpp
  have hval : (S.config j).validatorManager.isValidator (S.config j).address m.view.height = true :=
    (S.isValidator_iff _ _).mpr hmem
  exact (hfrom.validCertificate hinv.actions hval).congr rfl rfl

/-- An accepted proposal of a later round is justified, if it keeps its certificate. -/
theorem justified_of_judged (hreach : Reachable S.step (S.init heights) net)
    (hfree : S.crypto.CollisionFree net.hashed) {i : ι} {p : ProposalMessageSigned}
    (hrecv : .proposal p ∈ (net i).received)
    (hjudged : Judged (S.config i) (net i).knowledge p) (hkeeps : p.KeepsCertificate (S.config i))
    (hround : p.view.round ≠ 0) :
    (S.votes net p.view.height).Justified (S.quorumSystem p.view.height)
      (blockOf S.crypto net.hashed) p.view.round.toNat p.proposedBlockDigest := by
  obtain ⟨validators, highest, hfor, hcases⟩ := hjudged.locked hkeeps hround
  let certificate : RoundChangeMetadata → Option (ℕ × Digest) :=
    fun rc => latestCertificate rc.latestPreparedCertificate
  obtain ⟨latest, hsigned, hlatest⟩ := exists_partner_function certificate hfor.signed hfor.nodup
  have hquorum : (S.quorumSystem p.view.height).IsQuorum validators.toFinset := by
    refine ⟨fun a ha => ?_, ?_⟩
    · obtain ⟨rc, -, hrc, -⟩ := hsigned a (List.mem_toFinset.mp ha)
      exact (S.isValidator_iff _ _).mp hrc.isValidator
    · rw [List.toFinset_card_of_nodup hfor.nodup, ← hfor.signed.length_eq,
        quorum_quorumSystem]
      exact hfor.quorum_le
  -- An honest signer has broadcast its round change.
  have hsent : ∀ a ∈ validators.toFinset, a ∉ (S.quorumSystem p.view.height).byzantine →
      ∃ j m rc, S.address j = a ∧ a ∈ S.validators p.view.height ∧ rc ∈ p.roundChanges ∧
        .broadcast (.roundChange m) ∈ (net j).history ∧ m.view = p.view ∧
        m.latestPreparedProposed.map PreparedProposed.preparedCertificate =
          rc.latestPreparedCertificate ∧ certificate rc = latest a := by
    intro a ha hhonest
    obtain ⟨rc, hrc, hsigns, heq⟩ := hsigned a (List.mem_toFinset.mp ha)
    have hmem : a ∈ S.validators p.view.height := (S.isValidator_iff _ _).mp hsigns.isValidator
    obtain ⟨j, rfl⟩ := exists_node hmem hhonest
    obtain ⟨m, hm, hview, hcert⟩ := roundChange_of_carried hreach hfree hrecv hrc hsigns
    exact ⟨j, m, rc, rfl, hmem, hrc, hm, hview, hcert, heq⟩
  have hannounced : ∀ a ∈ validators.toFinset,
      a ∉ (S.quorumSystem p.view.height).byzantine →
      (S.votes net p.view.height).announced p.view.round.toNat a (latest a) := by
    intro a ha hhonest
    obtain ⟨j, m, rc, hj, hmem, -, hm, hview, hcert, heq⟩ := hsent a ha hhonest
    refine ⟨m, ⟨j, hj, hmem, hm, congrArg View.height hview, ?_⟩, ?_⟩
    · exact congrArg (fun v : View => v.round.toNat) hview
    · rw [hcert]
      exact heq.symm
  rcases hcases with ⟨pc, hpc⟩ | hinvalid
  · -- The block is the one of the latest certificate, which a signer has announced.
    obtain ⟨rc, hrc, hcert⟩ := List.mem_filterMap.mp hpc.mem
    obtain ⟨a, ha, -, heq⟩ := hlatest rc hrc
    have hlatestPc : latest a = some (pc.proposalMeta.view.round.toNat,
        pc.proposalMeta.proposedBlockDigest) := by
      rw [← heq]
      exact congrArg latestCertificate hcert
    obtain ⟨hcertified, hblock⟩ := certified_of_carried hreach hfree hrecv hpc.mem hpc.valid
      hpc.digest_eq
    refine ⟨validators.toFinset, latest, hquorum, hannounced, Or.inr ⟨a,
      List.mem_toFinset.mpr ha, _, _, hlatestPc, ?_, hcertified, ?_, fun a' ha' r d hlatest' => ?_⟩⟩
    · exact UInt8.lt_iff_toNat_lt.mp hpc.valid.round_lt
    · rw [hblock, blockOf_accepted hfree (Node.mem_seen.mpr (Or.inl hrecv))
        hjudged.acceptable.verifyBlockDigest]
    · obtain ⟨rc', hrc', -, heq'⟩ := hsigned a' (List.mem_toFinset.mp ha')
      obtain ⟨pc', hpc', hround'⟩ := Option.map_eq_some_iff.mp (heq'.trans hlatest')
      cases hround'
      have hmem' : pc' ∈ p.certificates := List.mem_filterMap.mpr ⟨rc', hrc', hpc'⟩
      exact UInt8.le_iff_toNat_le.mp (hpc.le_round pc' hmem')
  · -- No honest signer has announced a certificate: it would be a valid one.
    refine ⟨validators.toFinset, fun _ => none, hquorum, fun a ha hhonest => ?_,
      Or.inl fun _ _ => rfl⟩
    obtain ⟨j, m, rc, hj, hmem, hrc, hm, hview, hcert, heq⟩ := hsent a ha hhonest
    have hnone : rc.latestPreparedCertificate = none := by
      rw [Option.eq_none_iff_forall_not_mem]
      intro pc hpc
      have hvalid := validCertificate_of_announced hreach hm (by rw [hview, hj]; exact hmem)
        (hcert.trans hpc) i
      rw [hview] at hvalid
      exact hinvalid pc (List.mem_filterMap.mpr ⟨rc, hrc, hpc⟩) hvalid
    have hlatestNone : latest a = none := by
      rw [← heq]
      exact congrArg latestCertificate hnone
    rw [← hlatestNone]
    exact hannounced a ha hhonest

/-! ## The rules of locking -/

/-- A step of the network that keeps the locks of the height. -/
def KeepsLocks (S : Deployment ι) (height : UInt64) (net : Network ι) (e : ι × Event) : Prop :=
  (net e.1).KeepsLocks (S.config e.1) height e.2

theorem keepsLocks_node
    (hreach : ReachableWithin S.step (S.KeepsLocks height) (S.init heights) net) (i : ι) :
    ReachableWithin (Node.step (S.config i)) (Node.KeepsLocks (S.config i) height)
      (Node.init (S.config i) (heights i)) (net i) :=
  reachableWithin_node (fun _ _ hkeeps => hkeeps) hreach

/-- A round change after the commit of an honest validator carries a certificate for its round or a
later one. -/
theorem announced_locked
    (hreach : ReachableWithin S.step (S.KeepsLocks height) (S.init heights) net)
    (honce : ∀ i, (net i).RunsOnce height) {r r' : ℕ} {a : Address} {d : Digest}
    {latest : Option (ℕ × Digest)} (hcommitted : (S.votes net height).committed r a d)
    (hlt : r < r') (hannounced : (S.votes net height).announced r' a latest) :
    ∃ r'' d'', latest = some (r'', d'') ∧ r ≤ r'' := by
  obtain ⟨m, ⟨i, hi, -, hsent, hheight, rfl⟩, -⟩ := hcommitted
  obtain ⟨rc, ⟨j, hj, -, hsent', hheight', rfl⟩, rfl⟩ := hannounced
  obtain rfl : i = j := S.address_injective (hi.trans hj.symm)
  have hnode := reachable_node hreach.reachable i
  have hinv := Node.inv_of_reachable hnode
  obtain ⟨run, hrun, hrunHeight, hlog, hlog'⟩ :=
    exists_run hinv (honce i) hsent hsent' hheight hheight'
  have hsole : SoleProposer (S.config i) :=
    ValidatorManager.UniqueProposer.soleProposer S.uniqueProposer
  have hclean := Node.noOwnMessages_of_once hnode (by rw [hrunHeight]; exact honce i) hrun
  have hlocked := Node.lockInv_of_keepsLocks hsole (keepsLocks_node hreach i) hrun hrunHeight hclean
  have hround : m.view.round < rc.view.round := UInt8.lt_iff_toNat_lt.mpr hlt
  -- The round change comes after the commit, which is for a lower round.
  have hcarries : Carries rc m.view m.proposedBlockDigest := by
    let Both : Action → Action → Prop := fun b c => KeepsLock b c ∧ Before b c
    have hboth : run.log.Pairwise fun b c => Both b c ∨ Both c b :=
      (hlocked.log.and (hinv.logOk hrun).before).imp Or.inl
    have hsymm : Std.Symm fun b c => Both b c ∨ Both c b := ⟨fun _ _ h => h.symm⟩
    rcases hboth.forall hlog hlog' (by simp) with ⟨hkeeps, -⟩ | ⟨-, hbefore⟩
    · exact hkeeps m rc rfl rfl hround
    · have hle : rc.view.round ≤ m.view.round := hbefore
      exact absurd hround (UInt8.not_lt.mpr hle)
  obtain ⟨pp, hpp, hpc⟩ := hcarries
  refine ⟨_, _, by rw [hpp]; rfl, ?_⟩
  rcases hpc with hlt' | ⟨heq, -⟩
  · exact Nat.le_of_lt (UInt8.lt_iff_toNat_lt.mp hlt')
  · exact Nat.le_of_eq (congrArg UInt8.toNat heq)

/-- **The rules of locking** hold of the honest nodes of a network. -/
theorem lockRules (hreach : ReachableWithin S.step (S.KeepsLocks height) (S.init heights) net)
    (hfree : S.crypto.CollisionFree net.hashed) (honce : ∀ i, (net i).RunsOnce height)
    (htwo : 2 ≤ (S.validators height).card) :
    (S.votes net height).LockRules (S.quorumSystem height) (blockOf S.crypto net.hashed) where
  toRoundRules := roundRules hreach.reachable hfree honce
  exists_prepared _ _ h := exists_prepared hreach.reachable htwo h
  prepared_justified r a d _ hround hprepared := by
    obtain ⟨m, ⟨i, rfl, -, hsent, hheight, rfl⟩, rfl⟩ := hprepared
    obtain ⟨p, hview, hd, hrecv, hjudged⟩ := exists_accepted hreach.reachable hsent
    have hheight' : p.view.height = height := (congrArg View.height hview).trans hheight
    have hround' : p.view.round.toNat = m.view.round.toNat := by rw [hview]
    have hkeeps := Node.keepsCertificate_of_received (keepsLocks_node hreach i) hrecv hheight'
    have hjustified := justified_of_judged hreach.reachable hfree hrecv hjudged hkeeps
      (fun hzero => hround (hround'.symm.trans (congrArg UInt8.toNat hzero)))
    subst hheight'
    rw [hround', hd] at hjustified
    exact hjustified
  announced_locked _ _ _ _ _ _ hcommitted hlt hannounced :=
    announced_locked hreach honce hcommitted hlt hannounced

/-- **Agreement.**  If two honest validators finalize a block of the height, the blocks are the
same. -/
theorem rawBlock_eq_of_finalized
    (hreach : ReachableWithin S.step (S.KeepsLocks height) (S.init heights) net)
    (hfree : S.crypto.CollisionFree net.hashed) (honce : ∀ i, (net i).RunsOnce height) {i j : ι}
    (hij : i ≠ j) (hi : S.address i ∈ S.validators height)
    (hj : S.address j ∈ S.validators height) {block block' : FinalizedBlock}
    (hfin : .finalized height block ∈ (net i).history)
    (hfin' : .finalized height block' ∈ (net j).history) : block.rawBlock = block'.rawBlock := by
  have htwo : 2 ≤ (S.validators height).card :=
    Finset.one_lt_card.mpr ⟨_, hi, _, hj, S.address_injective.ne hij⟩
  have hrules := lockRules hreach hfree honce htwo
  obtain ⟨r, d, hdecided, hblock⟩ := decided_of_finalized hreach.reachable hfree honce hi hfin
  obtain ⟨r', d', hdecided', hblock'⟩ := decided_of_finalized hreach.reachable hfree honce hj hfin'
  have hagree := hdecided.agree hrules hdecided'
  rw [hblock, hblock'] at hagree
  exact Option.some.inj hagree

end Deployment

/-! ## A run with agreement -/

instance (run : Run) : (ev : Event) → Decidable (run.EndsLocked ev)
  | .futureProposalReady | .futureRccReady => inferInstanceAs (Decidable (¬ run.Committed))
  | .timeout => inferInstanceAs (Decidable (run.runState = .commit ∨ ¬ run.Committed))
  | .receive _ | .addPending | .runHeight _ | .round _ | .futureProposal _ | .futureRcc | .main _
  | .cancel | .roundFinished => isTrue trivial

instance (cfg : Config) (p : ProposalMessageSigned) : Decidable (p.KeepsCertificate cfg) :=
  inferInstanceAs (Decidable (p.view.round ≠ 0 →
    (∀ pc ∈ p.certificates, pc.proposalMeta.view.round = 0) →
    ∀ pc ∈ p.certificates, verifyPreparedCertificate cfg pc p.view.height p.view.round = true →
      digestBlock cfg.crypto p.proposedBlock.rawBlock 0 = pc.proposalMeta.proposedBlockDigest))

instance (cfg : Config) (height : UInt64) : (ev : Event) → Decidable (ev.KeepsCertificate cfg height)
  | .receive (.proposal p) =>
    inferInstanceAs (Decidable (p.view.height = height → p.KeepsCertificate cfg))
  | .receive (.prepare _) | .receive (.commit _) | .receive (.roundChange _) | .addPending
  | .runHeight _ | .round _ | .futureProposal _ | .futureRcc | .main _ | .cancel | .roundFinished
  | .futureProposalReady | .futureRccReady | .timeout => isTrue trivial

instance (cfg : Config) (height : UInt64) (n : Node) (ev : Event) :
    Decidable (n.KeepsLocks cfg height ev) :=
  inferInstanceAs (Decidable ((∀ run ∈ n.run, run.height = height → run.EndsLocked ev) ∧
    ev.KeepsCertificate cfg height))

instance {ι : Type} [Fintype ι] (S : Deployment ι) (height : UInt64) (net : Network ι)
    (e : ι × Event) : Decidable (S.KeepsLocks height net e) :=
  inferInstanceAs (Decidable ((net e.1).KeepsLocks (S.config e.1) height e.2))

/-- The block as the second validator returns it, with the seals as its store has them. -/
def duoBlockOfProposer : FinalizedBlock where
  rawBlock := [7]
  proof := { round := 0, commitSeals := duoBlock.proof.commitSeals.reverse }

/-- The two validators finalize one block. -/
theorem rawBlock_eq_of_finalized_duo : duoBlock.rawBlock = duoBlockOfProposer.rawBlock := by
  have hfirst : .finalized 1 duoBlock ∈ (duoNetwork 0).history := by decide +kernel
  have hsecond : .finalized 1 duoBlockOfProposer ∈ (duoNetwork 1).history := by decide +kernel
  exact Deployment.rawBlock_eq_of_finalized (reachableWithin_get (by decide +kernel) _)
    duoNetwork_collisionFree duoNetwork_runsOnce (by decide) (by decide +kernel)
    (by decide +kernel) hfirst hsecond

/-! ## A run without agreement -/

/-- Four validators; the third of them, the proposer of round 1, is Byzantine. -/
def splitDeployment : Deployment (Fin 3) :=
  mockDeployment ![modelKey 0, modelKey 1, modelKey 3]
    [modelAddress 0, modelAddress 1, modelAddress 2, modelAddress 3] (by decide)
    (by decide +kernel) (by decide +kernel) (by decide +kernel)

/-- The Byzantine validator signs as any other. -/
def splitByzantine : Config :=
  { crypto := modelCrypto, validatorManager := splitDeployment.validatorManager, key := modelKey 2 }

def splitView (round : UInt8) : View := { height := 1, round }

/-- The proposal of round 0, and its prepares and commits by the honest validators. -/
def splitProposal : ProposalMessageSigned :=
  (splitDeployment.config 1).ownProposal (splitView 0) [1] none

def splitPrepare (i : Fin 3) : PrepareMessageSigned :=
  (splitDeployment.config i).ownPrepare (splitView 0) splitProposal.proposedBlockDigest

def splitCommit (i : Fin 3) : CommitMessageSigned :=
  (splitDeployment.config i).ownCommit (splitView 0) splitProposal.proposedBlockDigest

/-- The round changes for round 1: two carry the certificate of round 0, the third carries none. -/
def splitRoundChange (i : Fin 3) (prepares : List PrepareMessageSigned) :
    RoundChangeMessageSigned :=
  let prepared := PreparedProposed.new splitProposal prepares
  (RoundChangeMessage.new (splitView 1) (some prepared)).intoSigned modelCrypto
    (splitDeployment.key i)

def splitCertificate : RoundChangeCertificate where
  roundChangeMessages :=
    [splitRoundChange 0 [splitPrepare 2, splitPrepare 0],
      splitRoundChange 2 [splitPrepare 0, splitPrepare 2],
      (RoundChangeMessage.new (splitView 1) none).intoSigned modelCrypto (modelKey 2)].map
      fun rc => rc.intoMetadata.2

/-- The Byzantine proposal of round 1: another block on the same certificate. -/
def splitProposal' : ProposalMessageSigned :=
  splitByzantine.ownProposal (splitView 1) [2] (some splitCertificate)

def splitPrepare' (i : Fin 3) : PrepareMessageSigned :=
  (splitDeployment.config i).ownPrepare (splitView 1) splitProposal'.proposedBlockDigest

/-- All three prepare and commit the first block; the second validator finalizes it.  The other two
time out in the commit state, accept the Byzantine proposal, and one of them finalizes its block
with the commit of the Byzantine validator. -/
def splitEvents : List (Fin 3 × Event) :=
  List.flatten
    [[(0, .runHeight 1), (1, .runHeight 1), (2, .runHeight 1)], roundSteps 1 (modelEnv [1]) 3,
      deliver 0 (.proposal splitProposal), deliver 2 (.proposal splitProposal),
      roundSteps 0 (modelEnv [1]) 4, roundSteps 2 (modelEnv [1]) 4,
      deliver 1 (.prepare (splitPrepare 0)), deliver 1 (.prepare (splitPrepare 2)),
      deliver 0 (.prepare (splitPrepare 2)), deliver 2 (.prepare (splitPrepare 0)),
      roundSteps 1 (modelEnv [1]) 3, roundSteps 0 (modelEnv [1]) 3, roundSteps 2 (modelEnv [1]) 3,
      deliver 1 (.commit (splitCommit 0)), deliver 1 (.commit (splitCommit 2)),
      roundSteps 1 (modelEnv [1]) 1,
      [(1, .roundFinished), (1, .main (modelEnv [1])), (1, .main (modelEnv [1]))],
      (0, .timeout) :: List.replicate 3 (0, .main (modelEnv [1])),
      (2, .timeout) :: List.replicate 3 (2, .main (modelEnv [1])),
      deliver 0 (.proposal splitProposal'), deliver 2 (.proposal splitProposal'),
      roundSteps 0 (modelEnv [1]) 4, roundSteps 2 (modelEnv [1]) 4,
      deliver 0 (.prepare (splitPrepare' 2)), deliver 2 (.prepare (splitPrepare' 0)),
      roundSteps 0 (modelEnv [1]) 3, roundSteps 2 (modelEnv [1]) 2,
      deliver 0 (.commit ((splitDeployment.config 2).ownCommit (splitView 1)
        splitProposal'.proposedBlockDigest)),
      deliver 0 (.commit (splitByzantine.ownCommit (splitView 1)
        splitProposal'.proposedBlockDigest)),
      roundSteps 0 (modelEnv [1]) 1,
      [(0, .roundFinished), (0, .main (modelEnv [1])), (0, .main (modelEnv [1]))]]

def splitNetwork : Network (Fin 3) :=
  (exec splitDeployment.step (splitDeployment.init fun _ => 0) splitEvents).get (by decide +kernel)

/-- The blocks that a node has finalized. -/
def Node.finalizedBlocks (n : Node) : List (UInt64 × FinalizedBlock) :=
  n.history.filterMap fun a =>
    match a with
    | .finalized height block => some (height, block)
    | .entered _ | .broadcast _ | .verifiedBlock _ _ => none

theorem Node.mem_finalizedBlocks {b : UInt64 × FinalizedBlock} :
    b ∈ n.finalizedBlocks ↔ .finalized b.1 b.2 ∈ n.history := by
  rw [finalizedBlocks, List.mem_filterMap]
  constructor
  · rintro ⟨a, ha, hb⟩
    cases a with
    | finalized height block =>
      cases hb
      exact ha
    | entered | broadcast | verifiedBlock => cases hb
  · intro h
    exact ⟨_, h, rfl⟩

/-- Two honest validators finalize different blocks. -/
theorem rawBlock_ne_of_finalized_split :
    Reachable splitDeployment.step (splitDeployment.init fun _ => 0) splitNetwork ∧
      splitDeployment.crypto.CollisionFree splitNetwork.hashed ∧
      (∀ i, (splitNetwork i).RunsOnce 1) ∧
      splitDeployment.address 0 ∈ splitDeployment.validators 1 ∧
      splitDeployment.address 1 ∈ splitDeployment.validators 1 ∧
      ∃ block block' : FinalizedBlock, .finalized 1 block ∈ (splitNetwork 0).history ∧
        .finalized 1 block' ∈ (splitNetwork 1).history ∧ block.rawBlock ≠ block'.rawBlock := by
  have hfin : ∃ b ∈ (splitNetwork 0).finalizedBlocks, b.1 = 1 ∧ b.2.rawBlock = [2] := by
    decide +kernel
  have hfin' : ∃ b ∈ (splitNetwork 1).finalizedBlocks, b.1 = 1 ∧ b.2.rawBlock = [1] := by
    decide +kernel
  obtain ⟨⟨_, block⟩, hblock, rfl, hraw⟩ := hfin
  obtain ⟨⟨_, block'⟩, hblock', rfl, hraw'⟩ := hfin'
  refine ⟨reachable_get _, Network.collisionFree_of_nodup (by decide +kernel), by decide +kernel,
    by decide +kernel, by decide +kernel, block, block', Node.mem_finalizedBlocks.mp hblock,
    Node.mem_finalizedBlocks.mp hblock', ?_⟩
  rw [hraw, hraw']
  decide

end Tonic
