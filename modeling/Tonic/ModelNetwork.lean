/-
# Networks that compute

The simulation tests run a list of validators under the mock manager.  `mockDeployment`
is such a network with some of the validators honest; `duoDeployment` has two of them,
both honest, and `duoEvents` is a run in which they propose, prepare, commit and finalize
a block in the first round.
-/
import Tonic.ModelCrypto
import Tonic.Network

namespace Tonic

open Transition

section Mock

variable {ι : Type} [Fintype ι] (key : ι → SecretKey) (validators : List Address)

/-- The validators of the mock, of which those with the given keys are honest. -/
def mockDeployment (hpos : 0 < validators.length) (hnodup : validators.Nodup)
    (hinj : Function.Injective fun i => modelCrypto.address (key i))
    (hbyz : (validators.toFinset \
      Finset.univ.image fun i => modelCrypto.address (key i)).card ≤ (validators.length - 1) / 3) :
    Deployment ι where
  crypto := modelCrypto
  validatorManager := mockManager validators
  key
  validators _ := validators.toFinset
  proposer view :=
    validators.get ⟨(view.height.toNat + view.round.toNat) % validators.length, Nat.mod_lt _ hpos⟩
  isValidator_iff a height := by simp [mockManager]
  isProposer_iff a view := by
    have hlt := Nat.mod_lt (view.height.toNat + view.round.toNat) hpos
    simp [mockManager, List.getElem?_eq_getElem hlt, eq_comm]
  proposer_mem view := by simp
  quorum_eq height := by
    rw [List.toFinset_card_of_nodup hnodup, Nat.mul_comm]
    rfl
  address_injective := hinj
  byzantine_le height := by
    rw [List.toFinset_card_of_nodup hnodup]
    exact hbyz

end Mock

/-- A message reaches a node and is added to its store. -/
def deliver {ι : Type} (i : ι) (m : IBFTMessage) : List (ι × Event) :=
  [(i, .receive m), (i, .addPending)]

/-- Steps of the round task of a node. -/
def roundSteps {ι : Type} (i : ι) (env : Env) (k : ℕ) : List (ι × Event) :=
  List.replicate k (i, .round env)

/-- What is hashed in a network, as a list. -/
def Network.contents {n : ℕ} (net : Network (Fin n)) : List SignedContent :=
  ((List.finRange n).flatMap fun i => (net i).seen.flatMap IBFTMessage.hashed).dedup

theorem Network.mem_contents {n : ℕ} {net : Network (Fin n)} {x : SignedContent} :
    x ∈ net.contents ↔ x ∈ net.hashed := by
  rw [Network.contents, List.mem_dedup, List.mem_flatMap]
  constructor
  · rintro ⟨i, -, hx⟩
    obtain ⟨m, hm, hx⟩ := List.mem_flatMap.mp hx
    exact ⟨i, m, hm, hx⟩
  · rintro ⟨i, m, hm, hx⟩
    exact ⟨i, List.mem_finRange i, List.mem_flatMap.mpr ⟨m, hm, hx⟩⟩

theorem Network.collisionFree_of_nodup {n : ℕ} {net : Network (Fin n)} {c : Crypto}
    (h : (net.contents.map (SignedContent.digest c)).Nodup) : c.CollisionFree net.hashed :=
  Crypto.collisionFree_of_nodup (fun _ hx => Network.mem_contents.mpr hx) h

/-! ## Two validators -/

def duoKey : Fin 2 → SecretKey := ![modelKey 0, modelKey 1]

def duoDeployment : Deployment (Fin 2) :=
  mockDeployment duoKey [modelAddress 0, modelAddress 1] (by decide) (by decide +kernel)
    (by decide +kernel) (by decide +kernel)

/-- The messages of the round: the second validator proposes. -/
def duoView : View := { height := 1, round := 0 }

def duoProposal : ProposalMessageSigned := (duoDeployment.config 1).ownProposal duoView [7] none

def duoPrepare : PrepareMessageSigned :=
  (duoDeployment.config 0).ownPrepare duoView (digestBlock modelCrypto [7] 0)

def duoCommit (i : Fin 2) : CommitMessageSigned :=
  (duoDeployment.config i).ownCommit duoView (digestBlock modelCrypto [7] 0)

/-- The block that the two validators finalize, with the seals of both. -/
def duoBlock : FinalizedBlock where
  rawBlock := [7]
  proof := { round := 0, commitSeals := [(duoCommit 1).commitSeal, (duoCommit 0).commitSeal] }

/-- Both validators run height 1 and finalize the block in round 0. -/
def duoEvents : List (Fin 2 × Event) :=
  List.flatten
    [[(0, .runHeight 1), (1, .runHeight 1)], roundSteps 1 (modelEnv [7]) 3,
      deliver 0 (.proposal duoProposal), roundSteps 0 (modelEnv [7]) 7,
      deliver 1 (.prepare duoPrepare), roundSteps 1 (modelEnv [7]) 3,
      deliver 0 (.commit (duoCommit 1)), deliver 1 (.commit (duoCommit 0)),
      roundSteps 0 (modelEnv [7]) 1, roundSteps 1 (modelEnv [7]) 1,
      [(0, .roundFinished), (0, .main (modelEnv [7])), (0, .main (modelEnv [7])),
        (1, .roundFinished), (1, .main (modelEnv [7])), (1, .main (modelEnv [7]))]]

/-- The network after these events. -/
def duoNetwork : Network (Fin 2) :=
  (exec duoDeployment.step (duoDeployment.init fun _ => 0) duoEvents).get (by decide +kernel)

theorem duoNetwork_reachable :
    Reachable duoDeployment.step (duoDeployment.init fun _ => 0) duoNetwork :=
  reachable_get _

theorem duoNetwork_runsOnce : ∀ i, (duoNetwork i).RunsOnce 1 := by decide +kernel

theorem duoNetwork_collisionFree : modelCrypto.CollisionFree duoNetwork.hashed :=
  Network.collisionFree_of_nodup (by decide +kernel)

/-- The proposal of the second validator with another block. -/
def tamperedProposal : ProposalMessageSigned :=
  { duoProposal with
    message := { duoProposal.message with proposedBlock := { rawBlock := [8], round := 0 } } }

/-- The second validator proposes, and its proposal reaches the first with another block. -/
def tamperedEvents : List (Fin 2 × Event) :=
  List.flatten
    [[(0, .runHeight 1), (1, .runHeight 1)], roundSteps 1 (modelEnv [7]) 3,
      deliver 0 (.proposal tamperedProposal)]

end Tonic
