/-
# The good case

Safety holds whatever the network does; a decision needs the network's help.  Here is what is
enough: the proposer of the first round of a height is honest, messages of honest validators
reach the others unaltered, no round is given up before they do, and the block service builds a
block that it accepts.  Then the honest validators, left alone, do not come to rest before each
of them has finalized that block, in the first round, whatever the Byzantine third does.
-/
import Tonic.KeptMessages
import Tonic.HonestMessages
import Tonic.ExternalValidity

namespace Tonic

open Transition

namespace Deployment

variable {ι : Type} [Fintype ι] (S : Deployment ι)

/-! ## Help -/

/-- The honest node is a validator of the height. -/
def Honest (height : UInt64) (i : ι) : Prop := S.address i ∈ S.validators height

/-- The addresses of the honest validators. -/
def Trusted (height : UInt64) (a : Address) : Prop := ∃ i, S.Honest height i ∧ S.address i = a

/-- The events of a good case: they do not disturb the first round of the height, and what an
honest validator receives as the message of another one is a message of that one. -/
structure Helped (height : UInt64) (b : RawBlock) (net : Network ι) (e : ι × Event) : Prop where
  undisturbed : S.Honest height e.1 → (net e.1).Undisturbed height b e.2
  unaltered : S.Honest height e.1 → ∀ m j, e.2 = .receive m → S.Honest height j →
    m.recoverSigner S.crypto = .ok (S.address j) → m.view.height = height →
    .broadcast m ∈ (net j).history

/-- The honest validators run the height once and no later one yet, and the hash has no
collisions. -/
structure Orderly (height : UInt64) (net : Network ι) : Prop where
  free : S.crypto.CollisionFree net.hashed
  once : ∀ i, S.Honest height i → (net i).RunsOnce height
  height_le : ∀ i, S.Honest height i → ∀ run ∈ (net i).runs, run.height ≤ height

/-- What holds in a good case. -/
structure Good (height : UInt64) (b : RawBlock) (net : Network ι) : Prop where
  /-- What was heard of an honest validator was said by it. -/
  heard : ∀ i, S.Honest height i → ∀ m ∈ (net i).received, ∀ j, S.Honest height j →
    m.recoverSigner S.crypto = .ok (S.address j) → m.view.height = height →
    .broadcast m ∈ (net j).history
  speaks : ∀ i, S.Honest height i → ∀ m, .broadcast m ∈ (net i).history →
    m.view.height = height → m.view.round = 0 ∧ m.IsFor S.crypto b
  calm : ∀ i, S.Honest height i → ∀ run, (net i).run = some run → run.height = height →
    run.Calm (S.config i) b (net i).knowledge
  keeps : ∀ i, S.Honest height i → (net i).Open height →
    (net i).Keeps (S.config i) (S.Trusted height) height

variable {S} [DecidableEq ι] {heights : ι → UInt64} {net net' : Network ι} {height : UInt64}
  {b : RawBlock} {i : ι}

/-! ## Order is inherited -/

omit [Fintype ι] [DecidableEq ι] in
theorem hashed_mono (hle : ∀ i, (net i).knowledge ≤ (net' i).knowledge) :
    net.hashed ⊆ net'.hashed := by
  rintro x ⟨i, m, hm, hx⟩
  refine ⟨i, m, ?_, hx⟩
  rw [Node.mem_seen] at hm ⊢
  exact hm.imp (fun hrecv => (hle i).2 hrecv) (fun hsent => (hle i).1 hsent)

end Deployment

/-- A step leaves the heights of the runs alone, or begins one more. -/
theorem NodeStep.runs_heights {cfg : Config} {n n' : Node} {ev : Event} (h : NodeStep cfg n ev n') :
    ∃ added, n'.runs.map Run.height = n.runs.map Run.height ++ added := by
  cases h with
  | receive | addPending => exact ⟨[], (List.append_nil _).symm⟩
  | @runHeight height past hpast =>
    refine ⟨[(Run.start cfg n.messages height).height], ?_⟩
    subst hpast
    simp [Node.runs]
  | run hrun hrunstep =>
    refine ⟨[], ?_⟩
    simp [Node.runs, hrun, hrunstep.same.1]

theorem Node.runsOnce_iff_count {n : Node} {height : UInt64} :
    n.RunsOnce height ↔ (n.runs.map Run.height).count height ≤ 1 := by
  rw [Node.RunsOnce, List.count_eq_countP, List.countP_map, List.countP_eq_length_filter]
  rfl

namespace Deployment

variable {ι : Type} [Fintype ι] {S : Deployment ι} [DecidableEq ι] {heights : ι → UInt64}
  {net net' : Network ι} {height : UInt64} {b : RawBlock} {i : ι}

/-- The runs of the nodes before a step. -/
theorem runs_of_step {e : ι × Event} (h : S.step net e = some net') (i : ι) :
    ∃ added, (net' i).runs.map Run.height = (net i).runs.map Run.height ++ added := by
  obtain ⟨j, ev⟩ := e
  obtain ⟨-, n, hn, rfl⟩ := step_eq_some.mp h
  by_cases hij : i = j
  · subst hij
    rw [Function.update_self]
    exact (nodeStep_of_step hn).runs_heights
  · rw [Function.update_of_ne hij]
    exact ⟨[], (List.append_nil _).symm⟩

theorem Orderly.of_step {e : ι × Event} (h : S.Orderly height net') (hstep : S.step net e = some net') :
    S.Orderly height net where
  free := h.free.mono (hashed_mono (knowledge_le_of_step hstep))
  once i hi := by
    obtain ⟨added, hadded⟩ := runs_of_step hstep i
    have honce := Node.runsOnce_iff_count.mp (h.once i hi)
    rw [hadded, List.count_append] at honce
    exact Node.runsOnce_iff_count.mpr (le_trans (Nat.le_add_right _ _) honce)
  height_le i hi run hrun := by
    obtain ⟨added, hadded⟩ := runs_of_step hstep i
    have hmem : run.height ∈ (net' i).runs.map Run.height := by
      rw [hadded]
      exact List.mem_append_left _ (List.mem_map_of_mem hrun)
    obtain ⟨run', hrun', hheight⟩ := List.mem_map.mp hmem
    rw [← hheight]
    exact h.height_le i hi run' hrun'

/-! ## What the stored messages are -/

section Stored

variable (hreach : Reachable S.step (S.init heights) net) (hgood : S.Good height b net)
include hgood

omit [DecidableEq ι] in
/-- What an honest validator has stored of another one for the height was said by that one. -/
theorem Good.said (hi : S.Honest height i) {m : IBFTMessage} {a : Address}
    (horigin : Origin (S.config i) (net i).knowledge m a) (ha : S.Trusted height a)
    (hheight : m.view.height = height) : ∃ j, S.Honest height j ∧ .broadcast m ∈ (net j).history := by
  obtain ⟨j, hj, rfl⟩ := ha
  cases horigin with
  | peer hrecv _ hrec => exact ⟨j, hj, hgood.heard i hi m hrecv j hj hrec hheight⟩
  | own _ hsent => exact ⟨i, hi, hsent⟩

omit [DecidableEq ι] in
theorem Good.isFor (hi : S.Honest height i) {m : IBFTMessage} {a : Address}
    (horigin : Origin (S.config i) (net i).knowledge m a) (ha : S.Trusted height a)
    (hheight : m.view.height = height) : m.view.round = 0 ∧ m.IsFor S.crypto b := by
  obtain ⟨j, hj, hsent⟩ := hgood.said hi horigin ha hheight
  exact hgood.speaks j hj m hsent hheight

include hreach

/-- The proposal stored for the first round is the one of the block. -/
theorem Good.proposesBlock (hi : S.Honest height i)
    (hproposer : S.Trusted height (S.proposer (firstView height))) :
    ProposesBlock S.crypto (net i).messages height b := by
  intro p hp
  obtain ⟨hview, a, horigin⟩ := (inv_node hreach i).store.proposal _ p hp
  have hheight : (IBFTMessage.proposal p).view.height = height := congrArg View.height hview
  have hsender : a = S.proposer (firstView height) := by
    cases horigin with
    | peer _ _ _ hadm =>
      rw [← hview]
      exact (S.isProposer_iff _ _).mp hadm
    | own heq hsent =>
      have hown : OwnProposal (S.config i) p := (inv_node hreach i).actions _ hsent
      rw [heq, ← hview]
      exact eq_proposer_of_proposed hown
  subst hsender
  exact (hgood.isFor hi horigin hproposer hheight).2

/-- No quorum of round changes is stored: one of them would be honest. -/
theorem Good.noQuorum (hi : S.Honest height i) {v : View} (hheight : v.height = height)
    (f : RoundChangeMessageSigned → Bool) :
    (ConsensusMessages.viewEntries ((net i).messages.retainVerified v f) v).length <
      S.validatorManager.quorum height := by
  by_contra hquorum
  let entries := ConsensusMessages.viewEntries ((net i).messages.retainVerified v f) v
  have hnodup : (entries.map Prod.fst).Nodup := ConsensusMessages.nodup_viewEntries
  have hstored : ∀ e ∈ entries, e.2.1.view = v ∧
      Origin (S.config i) (net i).knowledge (.roundChange e.2.1) e.1 := by
    intro e he
    obtain ⟨flag, hst⟩ := ConsensusMessages.stores_of_mem_retainVerified he
    exact (inv_node hreach i).store.roundChange v e.1 e.2.1 flag hst
  have hmem : ∀ e ∈ entries, e.1 ∈ S.validators height := by
    intro e he
    obtain ⟨hview, horigin⟩ := hstored e he
    cases horigin with
    | peer _ _ _ hadm =>
      rw [← hheight, ← hview]
      exact (S.isValidator_iff _ _).mp hadm.1
    | own heq _ =>
      rw [heq]
      exact hi
  -- The senders of the entries are different validators.
  have hset : (S.quorumSystem height).IsQuorum (entries.map Prod.fst).toFinset := by
    refine ⟨?_, ?_⟩
    · intro a ha
      obtain ⟨e, he, rfl⟩ := List.mem_map.mp (List.mem_toFinset.mp ha)
      exact hmem e he
    · rw [quorum_quorumSystem, List.toFinset_card_of_nodup hnodup, List.length_map]
      exact not_lt.mp hquorum
  -- One of them is honest, and has never asked for a later round.
  obtain ⟨a, ha, hhonest⟩ := hset.exists_honest
  obtain ⟨e, he, rfl⟩ := List.mem_map.mp (List.mem_toFinset.mp ha)
  obtain ⟨hview, horigin⟩ := hstored e he
  obtain ⟨j, hj⟩ := exists_node (hmem e he) hhonest
  have htrusted : S.Trusted height e.1 := ⟨j, by rw [Honest, hj]; exact hmem e he, hj⟩
  exact (hgood.isFor hi horigin htrusted ((congrArg View.height hview).trans hheight)).2

/-- No proposal of a later round is accepted: one of its round changes would be honest. -/
theorem Good.noProposal (hfree : S.crypto.CollisionFree net.hashed) (hi : S.Honest height i)
    {v : View} (hheight : v.height = height) (hround : v.round ≠ 0) (env : Env) (d : Digest) :
    ((net i).messages.getValidProposalDigest v (proposalVerifyFn (S.config i) env v)).1 ≠
      some (.ok d) := by
  intro hd
  have hinv := inv_node hreach i
  -- The checks that the query makes count as known.
  let K' : Knowledge := { (net i).knowledge with
    history := (net i).history ++ RoundTask.blockChecks (S.config i) env (net i).messages v }
  have hK : (net i).knowledge ≤ K' := ⟨List.subset_append_left _ _, fun _ h => h⟩
  obtain ⟨p, -, hview, -, ⟨a, horigin⟩, hjudged⟩ :=
    hinv.store.getValidProposalDigest_ok hd hK (List.subset_append_right _ _)
  subst hview
  have hnotSent : .broadcast (.proposal p) ∉ (net i).history := by
    intro hsent
    exact hround (hgood.speaks i hi _ hsent hheight).1
  cases horigin with
  | own _ hsent => exact hnotSent hsent
  | peer hrecv _ hrec hadm hle =>
    obtain ⟨env', hok, -⟩ := hjudged.resolve_right hnotSent
    rcases proposalVerifyFn_ok hok with ⟨hzero, -⟩ | ⟨-, validators, highest, hfor, -⟩
    · exact hround hzero
    · have hset : (S.quorumSystem height).IsQuorum validators.toFinset := by
        refine ⟨?_, ?_⟩
        · intro a ha
          obtain ⟨rc, -, hsigned⟩ :=
            RelatedLists.exists_mem_left_of_forall₂ hfor.signed (List.mem_toFinset.mp ha)
          rw [← hheight]
          exact (S.isValidator_iff _ _).mp hsigned.isValidator
        · rw [quorum_quorumSystem, List.toFinset_card_of_nodup hfor.nodup, ← hfor.signed.length_eq,
            ← hheight]
          exact hfor.quorum_le
      -- The certificate has a round change of an honest validator, who has sent none.
      obtain ⟨a, ha, hhonest⟩ := hset.exists_honest
      obtain ⟨j, hj⟩ := exists_node (hset.1 ha) hhonest
      obtain ⟨rc, hrc, hsigned⟩ :=
        RelatedLists.exists_mem_left_of_forall₂ hfor.signed (List.mem_toFinset.mp ha)
      have hcarried : rc.attestation ∈ (IBFTMessage.proposal p).carried :=
        List.mem_flatMap.mpr ⟨rc, hrc, List.mem_cons_self⟩
      obtain ⟨m, hm, hmview, -⟩ := roundChange_of_unforged hreach hfree subset_rfl
        ⟨i, _, Node.mem_seen.mpr (Or.inl hrecv), IBFTMessage.carried_mem_hashed hcarried⟩
        (hj ▸ hsigned.recover) (unforged_of_received hreach hrecv (List.mem_cons_of_mem _ hcarried))
      refine (hgood.speaks j ?_ _ hm ?_).2
      · rw [Honest, hj]
        exact hset.1 ha
      · show m.view.height = height
        rw [hmview, hsigned.view_eq]
        exact hheight

/-- **Good nodes are sheltered.** -/
theorem Good.sheltered (horder : S.Orderly height net) (hi : S.Honest height i)
    (hproposer : S.Trusted height (S.proposer (firstView height))) (hfirst : heights i < height) :
    (net i).Sheltered (S.config i) (S.Trusted height) height b where
  known := Node.assertionsKnown_of_reachable S.uniqueProposer.soleProposer (reachable_node hreach i)
  quorum_ne := by
    rw [show (S.config i).validatorManager = S.validatorManager from rfl, S.quorum_eq]
    exact Nat.succ_ne_zero _
  drive run hrun hheight := by
    have hknown : (net i).AssertionsKnown (S.config i) := Node.assertionsKnown_of_reachable
      S.uniqueProposer.soleProposer (reachable_node hreach i)
    refine (hknown.clean run hrun ?_).2
    exact Node.noOwnMessages_of_once (reachable_node hreach i) (hheight ▸ horder.once i hi)
      (List.mem_append_right _ (Option.mem_toList.mpr hrun))
  proposal := hgood.proposesBlock hreach hi hproposer
  prepare a m ha hm := by
    obtain ⟨hview, horigin⟩ := (inv_node hreach i).store.prepare _ a m hm
    exact (hgood.isFor hi horigin ha (congrArg View.height hview)).2
  commit a m ha hm := by
    obtain ⟨hview, horigin⟩ := (inv_node hreach i).store.commit _ a m hm
    exact (hgood.isFor hi horigin ha (congrArg View.height hview)).2
  speaks := hgood.speaks i hi
  noQuorum _ hheight _ f := hgood.noQuorum hreach hi hheight f
  noProposal _ hheight hround env d := hgood.noProposal hreach horder.free hi hheight hround env d
  once := horder.once i hi
  height_le := horder.height_le i hi
  finalized := by
    -- The finalized height is the first one, or that of a run, and no run is of a later one.
    rcases (Node.heightsGrow_of_reachable (reachable_node hreach i)).height_cases with
      hsame | ⟨run, hrun, hheight, hupdated⟩
    · left
      rw [hsame]
      exact hfirst
    · have hle := horder.height_le i hi run hrun
      rw [hheight] at hle
      rcases UInt64.lt_or_eq_of_le hle with hlt | heq
      · exact Or.inl hlt
      · exact Or.inr ⟨run, hrun, hheight.trans heq, hupdated⟩

end Stored

/-! ## The invariant -/

/-- **One step** of a good case is good. -/
theorem Good.step {e : ι × Event} (hreach : Reachable S.step (S.init heights) net)
    (hgood : S.Good height b net) (horder : S.Orderly height net)
    (hproposer : S.Trusted height (S.proposer (firstView height)))
    (hfirst : ∀ i, S.Honest height i → heights i < height) (hlen : b.length < 2 ^ 32)
    (hhelp : S.Helped height b net e) (hstep : S.step net e = some net') :
    S.Good height b net' := by
  have hle := knowledge_le_of_step hstep
  obtain ⟨j, ev⟩ := e
  obtain ⟨-, n, hn, rfl⟩ := step_eq_some.mp hstep
  -- The node that takes the step, if it is an honest validator.
  have hnode : S.Honest height j → (net j).Sheltered (S.config j) (S.Trusted height) height b :=
    fun hj => hgood.sheltered hreach horder hj hproposer (hfirst j hj)
  refine ⟨?_, ?_, ?_, ?_⟩
  · intro i hi m hm k hk hrec hheight
    suffices hsent : .broadcast m ∈ (net k).history from (hle k).1 hsent
    by_cases hij : i = j
    · subst hij
      rw [Function.update_self] at hm
      have hold : m ∈ (net i).received → .broadcast m ∈ (net k).history :=
        fun hmem => hgood.heard i hi m hmem k hk hrec hheight
      cases nodeStep_of_step hn with
      | receive =>
        rcases List.mem_cons.mp hm with rfl | hm
        · exact hhelp.unaltered hi m k rfl hk hrec hheight
        · exact hold hm
      | addPending | runHeight | run => exact hold hm
    · rw [Function.update_of_ne hij] at hm
      exact hgood.heard i hi m hm k hk hrec hheight
  · intro i hi
    by_cases hij : i = j
    · subst hij
      rw [Function.update_self]
      exact (hnode hi).speaks_step (hgood.calm i hi) hn
    · rw [Function.update_of_ne hij]
      exact hgood.speaks i hi
  · intro i hi
    by_cases hij : i = j
    · subst hij
      rw [Function.update_self]
      exact (hnode hi).calm_step (hgood.calm i hi) (hhelp.undisturbed hi) hlen hn
    · rw [Function.update_of_ne hij]
      exact hgood.calm i hi
  · intro i hi
    by_cases hij : i = j
    · subst hij
      rw [Function.update_self]
      intro hopen
      exact (hnode hi).keeps_step (hgood.calm i hi) ⟨i, hi, rfl⟩ (hhelp.undisturbed hi)
        (hgood.keeps i hi) hopen hn
    · rw [Function.update_of_ne hij]
      exact hgood.keeps i hi

omit [DecidableEq ι] in
theorem Good.init : S.Good height b (S.init heights) where
  heard i _ m hm := by cases hm
  speaks i _ m hm := by cases hm
  calm i _ run hrun := by cases hrun
  keeps i _ _ := ⟨(fun m a hm => by cases hm), fun m hm => by cases hm⟩

/-- **Every run of a good case is good.** -/
theorem good_of_reachable
    (hreach : ReachableWithin S.step (S.Helped height b) (S.init heights) net)
    (hproposer : S.Trusted height (S.proposer (firstView height)))
    (hfirst : ∀ i, S.Honest height i → heights i < height) (hlen : b.length < 2 ^ 32)
    (horder : S.Orderly height net) : S.Good height b net := by
  -- The runs that are orderly in the end were so all along.
  refine hreach.invariant_of (I := fun net => S.Orderly height net → S.Good height b net)
    (fun _ hnet => hnet) ?_ (fun _ => Good.init) horder
  intro net e net' hnet _ hhelp hgood hstep horder'
  have horder := horder'.of_step hstep
  exact (hgood horder).step hnet horder hproposer hfirst hlen hhelp hstep

end Deployment

end Tonic
