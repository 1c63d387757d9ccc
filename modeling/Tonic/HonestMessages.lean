/-
# Honest messages are let through

The handler of a node looks at a message before it is added: the height, the round, the
signer and what the signer may send.  Whatever an honest validator broadcasts passes at
every other honest node that has not finalized the height, with one exception that the
round limit makes: the round change out of the last round, which nobody counts.
-/
import Tonic.ViewUniqueness

namespace Tonic

open Transition

variable {cfg : Config} {K : Knowledge} {n : Node} {m : IBFTMessage}

/-- A node's own message is signed by the node. -/
theorem ActionOk.recoverSigner (h : ActionOk cfg K (.broadcast m)) :
    m.recoverSigner cfg.crypto = .ok cfg.address := by
  cases m with
  | proposal p => exact OwnProposal.recoverSigner h
  | prepare m =>
    have hown : OwnPrepare cfg K m := h
    show m.recoverSigner cfg.crypto = _
    rw [hown.eq_own]
    exact PrepareMessage.recoverSigner_intoSigned _ _ _
  | commit m =>
    have hown : OwnCommit cfg K m := h
    show m.recoverSigner cfg.crypto = _
    rw [hown.eq_own]
    exact CommitMessage.recoverSigner_intoSigned _ _ _
  | roundChange m =>
    have hown : OwnRoundChange cfg K m := h
    show m.recoverSigner cfg.crypto = _
    rw [hown.eq_own]
    exact RoundChangeMessage.recoverSigner_intoSigned _ _ _

/-- A validator sends only what it may send. -/
theorem ActionOk.admissible (h : ActionOk cfg K (.broadcast m))
    (hval : cfg.validatorManager.isValidator cfg.address m.view.height = true) :
    m.Admissible cfg cfg.address := by
  cases m with
  | proposal p => exact OwnProposal.isProposer h
  | prepare m => exact ⟨hval, OwnPrepare.not_proposer h⟩
  | commit m =>
    have hown : OwnCommit cfg K m := h
    refine ⟨hval, ?_⟩
    rw [hown.eq_own]
    exact CommitMessage.recoverCommitSealSigner_new _ _ _ _
  | roundChange m => exact ⟨hval, OwnRoundChange.round_ne h⟩

/-- Only a round change goes beyond the last round. -/
theorem ActionOk.round_le (h : ActionOk cfg K (.broadcast m))
    (hkind : ∀ rc, m ≠ .roundChange rc) : m.view.round ≤ maxRound := by
  cases m with
  | proposal p => exact OwnProposal.round_le h
  | prepare m => exact OwnPrepare.round_le h
  | commit m => exact OwnCommit.round_le h
  | roundChange m => exact absurd rfl (hkind m)

/-- The checks of the handler are the same at all nodes but for their own address. -/
theorem IBFTMessage.Admissible.congr {cfg' : Config} {a : Address} (h : m.Admissible cfg a)
    (hcrypto : cfg'.crypto = cfg.crypto)
    (hmanager : cfg'.validatorManager = cfg.validatorManager) : m.Admissible cfg' a := by
  cases m with
  | proposal | prepare | roundChange =>
    simp only [IBFTMessage.Admissible, hmanager]
    exact h
  | commit =>
    simp only [IBFTMessage.Admissible, hmanager, hcrypto]
    exact h

/-! ## How far round changes go -/

/-- Round changes of the run ask for a round just beyond the limit at most. -/
def Run.AsksBelow (run : Run) : Prop :=
  ∀ rc, .broadcast (.roundChange rc) ∈ run.log → rc.view.round ≤ maxRound + 1

theorem Run.asksBelow_start (cfg : Config) (K : Knowledge) (msgs : ConsensusMessages)
    (height : UInt64) : (Run.start cfg msgs height).AsksBelow := by
  intro rc hrc
  rcases (Node.inv_start cfg K msgs height).2 with hnil | hentered
  · rw [hnil] at hrc
    cases hrc
  · rw [hentered] at hrc
    cases List.mem_singleton.mp hrc

theorem Node.asksBelow_of_reachable {height : UInt64}
    (h : Reachable (Node.step cfg) (Node.init cfg height) n) : ∀ run ∈ n.runs, run.AsksBelow := by
  refine h.invariant_of (I := fun n => ∀ run ∈ n.runs, run.AsksBelow)
    (fun _ hn => Node.inv_of_reachable hn) ?_ (fun run hrun => by cases hrun)
  intro n ev n' hinv _ hold hstep
  refine (nodeStep_of_step hstep).forall_runs (P := fun _ run => run.AsksBelow) (fun _ hP => hP)
    (Run.asksBelow_start cfg n.knowledge n.messages) ?_ hold
  intro run run' hrun _ hrunstep hbelow rc hrc
  have hrunInv := hinv.run run hrun
  rcases hrunstep.broadcast_mem_log hinv.round_le_of_storedProposal hrunInv hrc with
    hmem | ⟨task, -, hout⟩ | ⟨rc', heq, hphase⟩
  · exact hbelow rc hmem
  · cases task <;> cases hout
  · cases heq
    have hphaseInv := hrunInv.phase
    rw [hphase] at hphaseInv
    obtain ⟨-, -, hview⟩ := hphaseInv
    have hround := hrunInv.round_le
    have hle : run.view.round + 1 ≤ maxRound + 1 := by
      simp only [Run.view, maxRound, UInt8.le_iff_toNat_le, UInt8.toNat_add] at hround ⊢
      simp only [UInt8.reduceToNat] at hround ⊢
      omega
    rw [hview]
    exact hle

/-! ## Between the nodes of a network -/

namespace Deployment

variable {ι : Type} [Fintype ι] [DecidableEq ι] {S : Deployment ι} {heights : ι → UInt64}
  {net : Network ι}

/-- The checks that another node makes of a message that an honest validator has broadcast. -/
theorem admissible_of_broadcast (hreach : Reachable S.step (S.init heights) net) {i j : ι}
    {m : IBFTMessage} (hsent : .broadcast m ∈ (net i).history)
    (hval : S.address i ∈ S.validators m.view.height) :
    m.recoverSigner S.crypto = .ok (S.address i) ∧ m.Admissible (S.config j) (S.address i) := by
  have hok := (inv_node hreach i).actions _ hsent
  refine ⟨hok.recoverSigner, (hok.admissible ?_).congr rfl rfl⟩
  exact (S.isValidator_iff _ _).mpr hval

/-- **Honest messages are let through.**  What an honest validator broadcasts passes the handler of
every other honest node below its height, or it is the round change out of the last round. -/
theorem broadcast_let_through (hreach : Reachable S.step (S.init heights) net) {i j : ι}
    (hne : i ≠ j) {m : IBFTMessage} (hsent : .broadcast m ∈ (net i).history)
    (hval : S.address i ∈ S.validators m.view.height) {finalized : UInt64}
    (hheight : finalized < m.view.height) :
    checkConsensusMessage (S.config j) finalized m = .ok (some (S.address i)) ∨
      ∃ rc, m = .roundChange rc ∧ rc.view.round = maxRound + 1 := by
  obtain ⟨hsigner, hadm⟩ := admissible_of_broadcast (j := j) hreach hsent hval
  have hok := (inv_node hreach i).actions _ hsent
  by_cases hround : m.view.round ≤ maxRound
  · left
    rw [checkConsensusMessage_eq_some_iff]
    refine ⟨hheight, hround, hsigner, ?_, hadm⟩
    intro heq
    exact hne (S.address_injective heq)
  · right
    by_cases hkind : ∃ rc, m = .roundChange rc
    · obtain ⟨rc, rfl⟩ := hkind
      obtain ⟨run, hrun, hlog⟩ := List.mem_flatMap.mp hsent
      have hbelow := Node.asksBelow_of_reachable (reachable_node hreach i) run hrun rc hlog
      refine ⟨rc, rfl, UInt8.le_antisymm hbelow ?_⟩
      have hlt : maxRound < rc.view.round := UInt8.not_le.mp hround
      simp only [maxRound, UInt8.lt_iff_toNat_lt, UInt8.reduceToNat] at hlt
      rw [UInt8.le_iff_toNat_le, show (maxRound + 1).toNat = 22 by decide]
      omega
    · push Not at hkind
      exact absurd (hok.round_le hkind) hround

theorem broadcast_let_through_duo :
    checkConsensusMessage (duoDeployment.config 0) 0 (.proposal duoProposal) =
        .ok (some (duoDeployment.address 1)) ∨
      ∃ rc, IBFTMessage.proposal duoProposal = .roundChange rc ∧ rc.view.round = maxRound + 1 :=
  broadcast_let_through duoNetwork_reachable (by decide) (by decide +kernel) (by decide +kernel)
    (by decide)

end Deployment

end Tonic
