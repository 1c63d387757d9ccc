/-
# The honest validators decide

When a good case has run out of steps, every honest validator has finalized the block.  A
validator that has not lacks a message: the proposal, prepares or commits.  The proposer has
proposed, so no other validator lacks its proposal; all have then voted, so none lacks
prepares; all have then committed, and none lacks commits.
-/
import Tonic.GoodCase

namespace Tonic

open Transition

variable {cfg : Config} {n : Node} {run : Run} {height : UInt64} {b : RawBlock}

/-! ## One validator -/

/-- Where a validator stands when no step is left to it. -/
inductive Run.Stands (cfg : Config) (b : RawBlock) (msgs : ConsensusMessages) (run : Run) : Prop where
  | decided {block : FinalizedBlock} (h : run.phase = .returned (some block))
    (hblock : block.rawBlock = b ∧ block.proof.round = 0) : Stands cfg b msgs run
  | noProposal {rx : Receiver} (h : run.roundTask = some (.recvProposal rx))
    (hnone : msgs.storedProposal run.view = none) : Stands cfg b msgs run
  | fewPrepares {task : RoundTask} (h : run.roundTask = some task)
    (hloop : task.loop? = some (.prepare (digestBlock cfg.crypto b 0)))
    (hfew : ¬ (CountingLoop.prepare (digestBlock cfg.crypto b 0)).Reached cfg msgs run.view) :
    Stands cfg b msgs run
  | fewCommits {task : RoundTask} (h : run.roundTask = some task)
    (hloop : task.loop? = some (.commit (digestBlock cfg.crypto b 0)))
    (hfew : ¬ (CountingLoop.commit (digestBlock cfg.crypto b 0)).Reached cfg msgs run.view) :
    Stands cfg b msgs run

theorem RoundTask.digest_of_loop {task : RoundTask} {d : Digest}
    (h : task.loop? = some (.prepare d) ∨ task.loop? = some (.commit d)) : task.digest? = some d := by
  rcases h with h | h <;> cases task <;> cases h <;> rfl

theorem RoundTask.awaits_of_loop {task : RoundTask} (h : task.loop? = some .roundChange) :
    task.awaitsRoundChanges = true := by
  cases task <;> cases h <;> rfl

theorem RoundTask.adding_of_loop {task : RoundTask} {loop : CountingLoop}
    (h : task.loop? = some loop) : task.adding = none := by
  cases task <;> cases h <;> rfl

theorem RoundTask.not_finished_of_loop {task : RoundTask} {loop : CountingLoop}
    (h : task.loop? = some loop) : ∀ seals, task ≠ .finished seals := by
  rintro seals rfl
  cases h

/-- A calm validator that rests has decided or lacks messages for the block. -/
theorem Node.RestKnown.stands (h : n.RestKnown cfg run)
    (hsettled : Settled (Node.step cfg) Event.Driven n) (hcalm : run.Calm cfg b n.knowledge) :
    run.Stands cfg b n.messages := by
  have hphase := hcalm.phase
  rcases h.phase_cases hsettled with hselect | ⟨result, hreturned⟩ | ⟨why, -, hpanicked⟩
  · obtain ⟨task, htask, hrests⟩ := h.rests_round hsettled hselect
    have htaskCalm := hcalm.task task htask
    -- A round task rests at the receiver of the proposal or in a counting loop.
    cases hrests with
    | proposal hnone => exact .noProposal htask hnone
    | @messages _ loop hloop hfew =>
      cases loop with
      | prepare d =>
        obtain rfl := htaskCalm.digest d (RoundTask.digest_of_loop (Or.inl hloop))
        exact .fewPrepares htask hloop hfew
      | commit d =>
        obtain rfl := htaskCalm.digest d (RoundTask.digest_of_loop (Or.inr hloop))
        exact .fewCommits htask hloop hfew
      | roundChange =>
        have hwaits := htaskCalm.waits
        rw [RoundTask.awaits_of_loop hloop] at hwaits
        cases hwaits
    | failed => exact absurd rfl (htaskCalm.not_failed _)
    | tooLarge => exact absurd rfl htaskCalm.fits
  · rw [hreturned] at hphase
    cases result with
    | none => exact absurd hphase id
    | some block => exact .decided hreturned hphase
  · rw [hpanicked] at hphase
    exact absurd hphase id

/-- A validator that has decided or lacks commits has committed to the block. -/
theorem Run.Stands.committed (h : run.Stands cfg b n.messages) (hinv : n.Inv cfg)
    (hrun : n.run = some run) (hcalm : run.Calm cfg b n.knowledge) :
    .broadcast (.commit (cfg.ownCommit run.view (digestBlock cfg.crypto b 0))) ∈ n.history ∨
      (∃ rx, run.roundTask = some (.recvProposal rx) ∧ n.messages.storedProposal run.view = none) ∨
      ∃ task, run.roundTask = some task ∧
        task.loop? = some (.prepare (digestBlock cfg.crypto b 0)) ∧
        ¬ (CountingLoop.prepare (digestBlock cfg.crypto b 0)).Reached cfg n.messages run.view := by
  cases h with
  | decided hreturned =>
    left
    apply hcalm.committed
    simp [hreturned]
  | noProposal htask hnone => exact Or.inr (Or.inl ⟨_, htask, hnone⟩)
  | fewPrepares htask hloop hfew => exact Or.inr (Or.inr ⟨_, htask, hloop, hfew⟩)
  | @fewCommits task htask hloop =>
    left
    have htaskInv := ((hinv.run run hrun).select_of_task htask).2
    cases task with
    | takeSeals | recvCommit =>
      cases hloop
      exact htaskInv.2.2
    | _ => cases hloop

/-- A validator that does not lack the proposal has voted for the block. -/
theorem Run.Stands.voted (h : run.Stands cfg b n.messages) (hinv : n.Inv cfg)
    (hrun : n.run = some run) (hcalm : run.Calm cfg b n.knowledge) :
    VotedFor cfg n.knowledge run.view (digestBlock cfg.crypto b 0) ∨
      ∃ rx, run.roundTask = some (.recvProposal rx) ∧ n.messages.storedProposal run.view = none := by
  rcases h.committed hinv hrun hcalm with hsent | hnone | ⟨task, htask, hloop, -⟩
  · left
    have hown : OwnCommit cfg n.knowledge (cfg.ownCommit run.view (digestBlock cfg.crypto b 0)) :=
      hinv.actions _ hsent
    exact hown.voted
  · exact Or.inr hnone
  · left
    have htaskInv := ((hinv.run run hrun).select_of_task htask).2
    cases task with
    | countPrepares | recvPrepare =>
      cases hloop
      exact htaskInv.2.2
    | _ => cases hloop

/-- The round of a node whose run of the height is its only one goes on as long as the run has a
round task that does not hold the seals. -/
theorem Node.open_of_current (honce : n.RunsOnce height) (hrun : n.run = some run)
    (hheight : run.height = height) (hinv : run.Inv cfg n.knowledge) {task : RoundTask}
    (htask : run.roundTask = some task) (hgoes : ∀ seals, task ≠ .finished seals) :
    n.Open height := by
  intro run' hrun' hheight'
  obtain rfl := honce.eq (List.mem_append_right _ (Option.mem_toList.mpr hrun)) hrun' hheight hheight'
  refine ⟨(hinv.select_of_task htask).1, ?_⟩
  intro seals heq
  exact hgoes seals (Option.some.inj (htask.symm.trans heq))

namespace Deployment

variable {ι : Type} [Fintype ι] {S : Deployment ι}

/-! ## All of them -/

variable (S) in
/-- Nothing is left to happen: the honest validators run the height, what one of them has said for
it has reached the others, and no step is left to them. -/
structure Exhausted (height : UInt64) (net : Network ι) : Prop where
  runs : ∀ i, S.Honest height i → ∃ run, (net i).run = some run ∧ run.height = height
  delivered : ∀ i j, S.Honest height i → S.Honest height j → i ≠ j → ∀ m,
    .broadcast m ∈ (net i).history → m.view.height = height → m ∈ (net j).received
  settled : ∀ i, S.Honest height i → Settled (Node.step (S.config i)) Event.Driven (net i)

variable [DecidableEq ι] {heights : ι → UInt64} {net : Network ι} {i j : ι}

/-- What is known of the honest validators when nothing is left to happen. -/
structure Spent (S : Deployment ι) (height : UInt64) (b : RawBlock) (net : Network ι) : Prop where
  good : S.Good height b net
  inv : ∀ i, (net i).Inv (S.config i)
  admissible : ∀ i j m, S.Honest height i → .broadcast m ∈ (net i).history →
    m.view.height = height →
    m.recoverSigner S.crypto = .ok (S.address i) ∧ m.Admissible (S.config j) (S.address i)
  prepare : ∀ i, S.Honest height i → ∀ a m, S.Trusted height a →
    (net i).messages.prepareMessages.Stores (firstView height, a) m →
    (IBFTMessage.prepare m).IsFor S.crypto b
  commit : ∀ i, S.Honest height i → ∀ a m, S.Trusted height a →
    (net i).messages.commitMessages.Stores (firstView height, a) m →
    (IBFTMessage.commit m).IsFor S.crypto b
  once : ∀ i, S.Honest height i → (net i).RunsOnce height
  stands : ∀ i, S.Honest height i → ∃ run, (net i).run = some run ∧ run.height = height ∧
    run.Calm (S.config i) b (net i).knowledge ∧ run.Stands (S.config i) b (net i).messages
  exhausted : S.Exhausted height net

theorem spent_of_exhausted
    (hreach : ReachableWithin S.step (S.Helped height b) (S.init heights) net)
    (hproposer : S.Trusted height (S.proposer (firstView height)))
    (hfirst : ∀ i, S.Honest height i → heights i < height) (hlen : b.length < 2 ^ 32)
    (horder : S.Orderly height net) (hexhausted : S.Exhausted height net) :
    S.Spent height b net := by
  have hreach' := hreach.reachable
  have hgood := good_of_reachable hreach hproposer hfirst hlen horder
  have hsheltered : ∀ i, S.Honest height i →
      (net i).Sheltered (S.config i) (S.Trusted height) height b :=
    fun i hi => hgood.sheltered hreach' horder hi hproposer (hfirst i hi)
  exact
    { good := hgood
      inv := fun i => inv_node hreach' i
      admissible := fun i j m hi hsent hheight =>
        admissible_of_broadcast hreach' hsent (hheight.symm ▸ hi)
      prepare := fun i hi => (hsheltered i hi).prepare
      commit := fun i hi => (hsheltered i hi).commit
      once := horder.once
      exhausted := hexhausted
      stands := by
        intro i hi
        obtain ⟨run, hrun, hheight⟩ := hexhausted.runs i hi
        have hcalm := hgood.calm i hi run hrun hheight
        refine ⟨run, hrun, hheight, hcalm, ?_⟩
        have hkeepsUp : ReachableWithin (Node.step (S.config i)) Node.KeepsUp
            (Node.init (S.config i) (heights i)) (net i) :=
          reachableWithin_node (fun _ _ hhelped => (hhelped.undisturbed hi).keepsUp) hreach
        have hclean := Node.noOwnMessages_of_once hkeepsUp.reachable (hheight ▸ horder.once i hi)
          (List.mem_append_right _ (Option.mem_toList.mpr hrun))
        exact (Node.RestKnown.of_reachable S.uniqueProposer.soleProposer hkeepsUp hrun hclean).stands
          (hexhausted.settled i hi) hcalm }

variable (S) in
/-- The addresses of the honest validators, as a set. -/
def honestValidators (height : UInt64) : Finset Address :=
  S.validators height \ S.byzantine height

omit [DecidableEq ι] in
theorem mem_honestValidators {a : Address} :
    a ∈ S.honestValidators height ↔ S.Trusted height a := by
  rw [honestValidators, Finset.mem_sdiff]
  constructor
  · rintro ⟨hmem, hhonest⟩
    obtain ⟨i, rfl⟩ := exists_node hmem hhonest
    exact ⟨i, hmem, rfl⟩
  · rintro ⟨i, hi, rfl⟩
    refine ⟨hi, ?_⟩
    simp [byzantine, address]

omit [DecidableEq ι] in
variable (S) in
/-- The honest validators are a quorum. -/
theorem quorum_le_card_honestValidators (height : UInt64) :
    S.validatorManager.quorum height ≤ (S.honestValidators height).card := by
  have hpos : 0 < (S.validators height).card :=
    Finset.card_pos.mpr ⟨_, S.proposer_mem (firstView height)⟩
  have hbyz : (S.byzantine height).card ≤ ((S.validators height).card - 1) / 3 :=
    S.byzantine_le height
  have hsub := Finset.le_card_sdiff (S.byzantine height) (S.validators height)
  rw [S.quorum_eq, honestValidators]
  omega

namespace Spent

variable (h : S.Spent height b net)
include h

/-- What an honest validator has said is stored at one that waits. -/
theorem occupied (hi : S.Honest height i) (hj : S.Honest height j) {run : Run}
    (hrun : (net j).run = some run) (hheight : run.height = height) {task : RoundTask}
    (htask : run.roundTask = some task) (hadding : task.adding = none)
    (hgoes : ∀ seals, task ≠ .finished seals) {m : IBFTMessage}
    (hsent : .broadcast m ∈ (net i).history) (hview : m.view = firstView height) :
    (net j).messages.occupied (m.slot (S.address i)) = true := by
  have hopen := Node.open_of_current (h.once j hj) hrun hheight ((h.inv j).run run hrun) htask hgoes
  have hkeeps := h.good.keeps j hj hopen
  have hmHeight : m.view.height = height := congrArg View.height hview
  by_cases hij : i = j
  · subst hij
    rcases hkeeps.own m hsent hview with ⟨run', task', hrun', htask', hadding'⟩ | hocc
    · cases hrun.symm.trans hrun'
      cases htask.symm.trans htask'
      rw [hadding] at hadding'
      cases hadding'
    · exact hocc
  · obtain ⟨hrec, hadm⟩ := h.admissible i j m hi hsent hmHeight
    have hrecv := h.exhausted.delivered i j hi hj hij m hsent hmHeight
    have hne : S.address i ≠ S.address j := fun heq => hij (S.address_injective heq)
    rcases hkeeps.peers m _ hrecv hrec hne ⟨i, hi, rfl⟩ hadm hview with hpending | hocc
    · rw [Node.pending_of_settled (h.exhausted.settled j hj)] at hpending
      cases hpending
    · exact hocc

omit [DecidableEq ι] in
/-- The proposer has proposed. -/
theorem proposed (hi : S.Honest height i) (hproposer : S.address i = S.proposer (firstView height)) :
    ∃ p, .broadcast (.proposal p) ∈ (net i).history ∧ p.view = firstView height := by
  obtain ⟨run, hrun, hheight, hcalm, hstands⟩ := h.stands i hi
  have hview := hcalm.view_eq hheight
  have hisProposer : S.validatorManager.isProposer (S.address i) (firstView height) = true :=
    (S.isProposer_iff _ _).mpr hproposer
  rcases hstands.voted (h.inv i) hrun hcalm with hvoted | ⟨rx, htask, -⟩
  · rw [hview] at hvoted
    rcases hvoted with ⟨p, hsent, hp, -⟩ | hsent
    · exact ⟨p, hsent, hp⟩
    · -- A proposer does not prepare.
      have hown : OwnPrepare (S.config i) (net i).knowledge _ := (h.inv i).actions _ hsent
      have hnot : S.validatorManager.isProposer (S.address i) (firstView height) = false :=
        hown.not_proposer
      rw [hnot] at hisProposer
      cases hisProposer
  · have htaskInv := (((h.inv i).run run hrun).select_of_task htask).2
    have hnot := htaskInv.2.2
    rw [hview] at hnot
    rw [show S.validatorManager.isProposer (S.address i) (firstView height) = false from hnot]
      at hisProposer
    cases hisProposer

variable (hproposer : S.Trusted height (S.proposer (firstView height)))
include hproposer

/-- No validator lacks the proposal. -/
theorem storedProposal_ne_none (hj : S.Honest height j) {run : Run}
    (hrun : (net j).run = some run) (hheight : run.height = height)
    (hcalm : run.Calm (S.config j) b (net j).knowledge) {rx : Receiver}
    (htask : run.roundTask = some (.recvProposal rx)) :
    (net j).messages.storedProposal run.view ≠ none := by
  obtain ⟨i, hi, haddress⟩ := hproposer
  obtain ⟨p, hsent, hview⟩ := h.proposed hi haddress
  have hocc := h.occupied hi hj hrun hheight htask rfl (by simp) hsent hview
  have hstored : ((net j).messages.storedProposal p.view).isSome = true := hocc
  rw [hcalm.view_eq hheight, ← hview]
  exact Option.isSome_iff_ne_none.mp hstored

/-- Every validator but the proposer has prepared the block. -/
theorem prepared (hi : S.Honest height i) (hne : S.address i ≠ S.proposer (firstView height)) :
    .broadcast (.prepare ((S.config i).ownPrepare (firstView height) (digestBlock S.crypto b 0))) ∈
      (net i).history := by
  obtain ⟨run, hrun, hheight, hcalm, hstands⟩ := h.stands i hi
  have hview := hcalm.view_eq hheight
  rcases hstands.voted (h.inv i) hrun hcalm with hvoted | ⟨rx, htask, hnone⟩
  · rw [hview] at hvoted
    rcases hvoted with ⟨p, hsent, hp, -⟩ | hsent
    · have hown : OwnProposal (S.config i) p := (h.inv i).actions _ hsent
      exact absurd (hp ▸ eq_proposer_of_proposed hown) hne
    · exact hsent
  · exact absurd hnone (h.storedProposal_ne_none hproposer hi hrun hheight hcalm htask)

/-- Prepares of all honest validators but the proposer are a quorum with the proposal. -/
theorem prepare_reached (hj : S.Honest height j) {run : Run} (hrun : (net j).run = some run)
    (hheight : run.height = height) (hcalm : run.Calm (S.config j) b (net j).knowledge)
    {task : RoundTask} (htask : run.roundTask = some task)
    (hloop : task.loop? = some (.prepare (digestBlock S.crypto b 0))) :
    (CountingLoop.prepare (digestBlock S.crypto b 0)).Reached (S.config j) (net j).messages
      run.view := by
  have hview := hcalm.view_eq hheight
  let proposer := S.proposer (firstView height)
  refine ⟨((S.honestValidators height).erase proposer).toList, Finset.nodup_toList _, ?_, ?_⟩
  · rw [Finset.length_toList, hview]
    have hquorum := S.quorum_le_card_honestValidators height
    have herase := Finset.pred_card_le_card_erase (s := S.honestValidators height) (a := proposer)
    exact (Nat.sub_le_sub_right hquorum 1).trans herase
  · intro a ha
    obtain ⟨hne, ha⟩ := Finset.mem_erase.mp (Finset.mem_toList.mp ha)
    obtain ⟨i, hi, rfl⟩ := mem_honestValidators.mp ha
    have hsent := h.prepared hproposer hi hne
    have hocc := h.occupied hi hj hrun hheight htask (RoundTask.adding_of_loop hloop)
      (RoundTask.not_finished_of_loop hloop) hsent rfl
    obtain ⟨m, hget⟩ := Option.isSome_iff_exists.mp hocc
    have hstored := FirstWinsMap.get?_eq_some_iff.mp hget
    rw [hview]
    exact ⟨m, hstored, decide_eq_true (h.prepare j hj _ m ⟨i, hi, rfl⟩ hstored)⟩

/-- Every validator has committed to the block. -/
theorem committed (hi : S.Honest height i) :
    .broadcast (.commit ((S.config i).ownCommit (firstView height) (digestBlock S.crypto b 0))) ∈
      (net i).history := by
  obtain ⟨run, hrun, hheight, hcalm, hstands⟩ := h.stands i hi
  rcases hstands.committed (h.inv i) hrun hcalm with
    hsent | ⟨rx, htask, hnone⟩ | ⟨task, htask, hloop, hfew⟩
  · rw [hcalm.view_eq hheight] at hsent
    exact hsent
  · exact absurd hnone (h.storedProposal_ne_none hproposer hi hrun hheight hcalm htask)
  · exact absurd (h.prepare_reached hproposer hi hrun hheight hcalm htask hloop) hfew

/-- Commits of all honest validators are a quorum. -/
theorem commit_reached (hj : S.Honest height j) {run : Run} (hrun : (net j).run = some run)
    (hheight : run.height = height) (hcalm : run.Calm (S.config j) b (net j).knowledge)
    {task : RoundTask} (htask : run.roundTask = some task)
    (hloop : task.loop? = some (.commit (digestBlock S.crypto b 0))) :
    (CountingLoop.commit (digestBlock S.crypto b 0)).Reached (S.config j) (net j).messages
      run.view := by
  have hview := hcalm.view_eq hheight
  refine ⟨(S.honestValidators height).toList, Finset.nodup_toList _, ?_, ?_⟩
  · rw [Finset.length_toList, hview]
    exact S.quorum_le_card_honestValidators height
  · intro a ha
    obtain ⟨i, hi, rfl⟩ := mem_honestValidators.mp (Finset.mem_toList.mp ha)
    have hsent := h.committed hproposer hi
    have hocc := h.occupied hi hj hrun hheight htask (RoundTask.adding_of_loop hloop)
      (RoundTask.not_finished_of_loop hloop) hsent rfl
    obtain ⟨m, hget⟩ := Option.isSome_iff_exists.mp hocc
    have hstored := FirstWinsMap.get?_eq_some_iff.mp hget
    rw [hview]
    exact ⟨m, hstored, decide_eq_true (h.commit j hj _ m ⟨i, hi, rfl⟩ hstored)⟩

end Spent

/-- **The honest validators decide.**  In a good case that has run out of steps, every honest
validator has finalized the block in the first round. -/
theorem decided_of_exhausted
    (hreach : ReachableWithin S.step (S.Helped height b) (S.init heights) net)
    (hproposer : S.Trusted height (S.proposer (firstView height)))
    (hfirst : ∀ i, S.Honest height i → heights i < height) (hlen : b.length < 2 ^ 32)
    (horder : S.Orderly height net) (hexhausted : S.Exhausted height net) (hi : S.Honest height i) :
    ∃ run block, (net i).run = some run ∧ run.height = height ∧
      run.phase = .returned (some block) ∧ block.rawBlock = b ∧ block.proof.round = 0 := by
  have hspent := spent_of_exhausted hreach hproposer hfirst hlen horder hexhausted
  obtain ⟨run, hrun, hheight, hcalm, hstands⟩ := hspent.stands i hi
  cases hstands with
  | @decided block hreturned hblock =>
    exact ⟨run, block, hrun, hheight, hreturned, hblock.1, hblock.2⟩
  | noProposal htask hnone =>
    exact absurd hnone (hspent.storedProposal_ne_none hproposer hi hrun hheight hcalm htask)
  | fewPrepares htask hloop hfew =>
    exact absurd (hspent.prepare_reached hproposer hi hrun hheight hcalm htask hloop) hfew
  | fewCommits htask hloop hfew =>
    exact absurd (hspent.commit_reached hproposer hi hrun hheight hcalm htask hloop) hfew

end Deployment

/-! ## Two validators that decide -/

/-- The events that end a round early. -/
def Event.endsRound : Event → Bool
  | .timeout | .cancel => true
  | _ => false

/-- The message that reaches the node with the event. -/
def Event.message? : Event → Option IBFTMessage
  | .receive m => some m
  | _ => none

instance (env : Env) (height : UInt64) (b : RawBlock) : Decidable (env.Serves height b) :=
  inferInstanceAs (Decidable (_ ∧ _))

instance (height : UInt64) (b : RawBlock) (n : Node) (ev : Event) :
    Decidable (n.Undisturbed height b ev) :=
  decidable_of_iff (n.KeepsUp ev ∧
      (∀ run ∈ n.run, run.height = height → ev.endsRound = false) ∧
      ∀ env ∈ ev.env?, env.Serves height b) <| by
    constructor
    · rintro ⟨hkeeps, hpatient, hserved⟩
      refine ⟨hkeeps, ?_, hserved⟩
      intro run hrun hheight
      have hends := hpatient run hrun hheight
      refine ⟨?_, ?_⟩ <;> rintro rfl <;> cases hends
    · rintro ⟨hkeeps, hpatient, hserved⟩
      refine ⟨hkeeps, ?_, hserved⟩
      intro run hrun hheight
      obtain ⟨htimeout, hcancel⟩ := hpatient run hrun hheight
      cases ev with
      | timeout => exact absurd rfl htimeout
      | cancel => exact absurd rfl hcancel
      | _ => rfl

/-- No step is left to a node whose run has returned. -/
theorem Node.settled_of_returned {result : Option FinalizedBlock} (hpending : n.pending = none)
    (hrun : n.run = some run) (hphase : run.phase = .returned result) (hround : run.roundTask = none)
    (hproposal : run.futureProposalTask = none) (hrcc : run.futureRccTask = none) :
    Settled (Node.step cfg) Event.Driven n := by
  intro ev hdriven
  cases ev with
  | receive | runHeight | cancel | timeout => exact absurd hdriven id
  | addPending =>
    show n.addPending = none
    rw [Node.addPending, hpending]
  | round env => simp [Node.step, hrun, Node.stepRound, hround]
  | futureProposal env => simp [Node.step, hrun, Node.stepFutureProposal, hproposal]
  | futureRcc => simp [Node.step, hrun, Node.stepFutureRcc, hrcc]
  | main env => simp [Node.step, hrun, Node.stepMain, hphase]
  | roundFinished | futureProposalReady | futureRccReady =>
    simp [Node.step, hrun, Node.stepSelect, hphase]

namespace Deployment

variable {ι : Type} [Fintype ι] (S : Deployment ι)

instance (height : UInt64) (i : ι) : Decidable (S.Honest height i) :=
  inferInstanceAs (Decidable (_ ∈ _))

instance (height : UInt64) (b : RawBlock) (net : Network ι) (e : ι × Event) :
    Decidable (S.Helped height b net e) :=
  decidable_of_iff ((S.Honest height e.1 → (net e.1).Undisturbed height b e.2) ∧
      (S.Honest height e.1 → ∀ m ∈ e.2.message?, ∀ j, S.Honest height j →
        m.recoverSigner S.crypto = .ok (S.address j) → m.view.height = height →
        .broadcast m ∈ (net j).history)) <| by
    constructor
    · rintro ⟨hundisturbed, hunaltered⟩
      refine ⟨hundisturbed, ?_⟩
      intro hi m j hev
      exact hunaltered hi m (by rw [hev]; rfl) j
    · rintro ⟨hundisturbed, hunaltered⟩
      refine ⟨hundisturbed, ?_⟩
      intro hi m hm j
      apply hunaltered hi m j
      cases hev : e.2 <;> rw [hev] at hm <;> cases hm
      rfl

/-- The block with the seals as the second validator has collected them. -/
def decidedBlock : FinalizedBlock where
  rawBlock := [7]
  proof := { round := 0, commitSeals := duoBlock.proof.commitSeals.reverse }

/-- Both validators finalize the block and prune their stores. -/
def decidedEvents : List (Fin 2 × Event) :=
  duoEvents ++ (List.finRange 2).map fun i => (i, .main (modelEnv [7]))

def decidedNetwork : Network (Fin 2) :=
  (exec duoDeployment.step (duoDeployment.init fun _ => 0) decidedEvents).get (by decide +kernel)

theorem decidedNetwork_reachable :
    ReachableWithin duoDeployment.step (duoDeployment.Helped 1 [7]) (duoDeployment.init fun _ => 0)
      decidedNetwork :=
  reachableWithin_get (by decide +kernel) _

theorem decidedNetwork_orderly : duoDeployment.Orderly 1 decidedNetwork where
  free := Network.collisionFree_of_nodup (by decide +kernel)
  once := by decide +kernel
  height_le := by decide +kernel

theorem decidedNetwork_exhausted : duoDeployment.Exhausted 1 decidedNetwork where
  runs i _ := by
    have hsome : (decidedNetwork i).run.isSome = true := by
      revert i
      decide +kernel
    obtain ⟨run, hrun⟩ := Option.isSome_iff_exists.mp hsome
    have hheight : ∀ i, ∀ run ∈ (decidedNetwork i).run, run.height = 1 := by decide +kernel
    exact ⟨run, hrun, hheight i run hrun⟩
  delivered i j hi hj hne m hsent hheight := by
    have hall : ∀ i j, i ≠ j → ∀ a ∈ (decidedNetwork i).history, ∀ m ∈ a.message?,
        m.view.height = 1 → m ∈ (decidedNetwork j).received := by decide +kernel
    exact hall i j hne _ hsent m rfl hheight
  settled i _ := by
    have hover : ∀ i, (decidedNetwork i).pending = none ∧ ∀ run ∈ (decidedNetwork i).run,
        (∃ block ∈ [duoBlock, decidedBlock], run.phase = .returned (some block)) ∧
          run.roundTask = none ∧ run.futureProposalTask = none ∧ run.futureRccTask = none := by
      decide +kernel
    have hsome : ∀ i, (decidedNetwork i).run.isSome = true := by decide +kernel
    obtain ⟨run, hrun⟩ := Option.isSome_iff_exists.mp (hsome i)
    obtain ⟨⟨block, -, hphase⟩, hround, hproposal, hrcc⟩ := (hover i).2 run hrun
    exact Node.settled_of_returned (hover i).1 hrun hphase hround hproposal hrcc

theorem decided_of_exhausted_duo : ∃ run block, (decidedNetwork 0).run = some run ∧
    run.height = 1 ∧ run.phase = .returned (some block) ∧ block.rawBlock = [7] ∧
      block.proof.round = 0 :=
  decided_of_exhausted decidedNetwork_reachable ⟨1, by decide +kernel, by decide +kernel⟩
    (fun _ _ => by decide) (by decide) decidedNetwork_orderly decidedNetwork_exhausted
    (by decide +kernel)

end Deployment

end Tonic
