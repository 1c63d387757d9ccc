/-
# A crypto that computes, and the validator manager of the simulation tests

The hash and the signatures come from outside the repository; here they are given by
functions that can be evaluated, so that runs can be.  The hash reads its input as a
number in base 257 modulo `2 ^ 255 - 19`; a signature is the address of its signer
followed by the signed digest.  What makes signatures unforgeable is never taken from
these functions: it is a condition on the messages a network delivers.

`mockManager` is the validator manager of `sim_tests/mock.rs`.
-/
import Tonic.Engine

namespace Tonic

open ByteEncoding Transition

/-- A hash and signatures that can be evaluated. -/
def modelCrypto : Crypto where
  sha256 bs := ⟨leBytes 32 (bs.foldl (fun acc b => (acc * 257 + b.toNat + 1) % (2 ^ 255 - 19)) 0),
    length_leBytes _ _⟩
  address key := ⟨key.bytes.take 24, by simp⟩
  signPrehash key d := ⟨key.bytes.take 24 ++ d.bytes ++ List.replicate 9 0, by simp⟩
  recoverFromPrehash s d :=
    if (s.bytes.drop 24).take 32 = d.bytes then .ok ⟨s.bytes.take 24, by simp⟩
    else .error "incorrect signature"
  recover_sign := by
    intro key d
    have h24 : (key.bytes.take 24).length = 24 := by simp
    have hdigest :
        ((key.bytes.take 24 ++ d.bytes ++ List.replicate 9 0).drop 24).take 32 = d.bytes := by
      rw [List.append_assoc, List.drop_left' h24, List.take_left' d.length_bytes]
    rw [if_pos hdigest]
    refine congrArg Except.ok (FixedBytes.ext ?_)
    simp only [List.append_assoc]
    exact List.take_left' h24

/-- The secret key whose bytes are all the given one. -/
def modelKey (b : UInt8) : SecretKey := ⟨List.replicate 32 b, by simp⟩

def modelAddress (b : UInt8) : Address := modelCrypto.address (modelKey b)

/-! ## The mock of the simulation tests -/

/-- `Mock`: the validators take turns, and a quorum is more than two thirds of them. -/
def mockManager (validators : List Address) : ValidatorManager where
  isProposer address view :=
    validators[(view.height.toNat + view.round.toNat) % validators.length]? = some address
  isValidator address _ := address ∈ validators
  quorum _ := validators.length * 2 / 3 + 1

section Mock

variable (validators : List Address)

/-- The mock has one proposer for a view. -/
theorem mockManager_proposer_unique {a b : Address} {v : View}
    (ha : (mockManager validators).isProposer a v = true)
    (hb : (mockManager validators).isProposer b v = true) : a = b := by
  have ha' := of_decide_eq_true ha
  rw [of_decide_eq_true hb] at ha'
  exact (Option.some.inj ha').symm

/-- The proposer of the mock is a validator. -/
theorem mockManager_isValidator_of_isProposer {a : Address} {v : View}
    (ha : (mockManager validators).isProposer a v = true) :
    (mockManager validators).isValidator a v.height = true :=
  decide_eq_true (List.mem_of_getElem? (of_decide_eq_true ha))

end Mock

/-! ## A validator on its own -/

/-- Blocks are the given bytes, every block is fine, and maps are listed as they are stored. -/
def modelEnv (rawBlock : RawBlock) : Env where
  buildBlock _ := .ok rawBlock
  verifyBlock _ := .ok ()
  hashRank _ := 0

/-- A single validator: it is always the proposer, and its own messages are a quorum. -/
def soloConfig : Config where
  crypto := modelCrypto
  validatorManager := mockManager [modelAddress 0]
  key := modelKey 0

/-! ## The first of four validators -/

/-- Four validators take turns: the second proposes in round 0 of height 1, the third in
round 1. -/
def fourConfig : Config where
  crypto := modelCrypto
  validatorManager := mockManager [modelAddress 0, modelAddress 1, modelAddress 2, modelAddress 3]
  key := modelKey 0

def fourView (round : UInt8) : View := { height := 1, round }

def fourProposal : ProposalMessageSigned :=
  (ProposalMessage.new modelCrypto (fourView 0) [7] none).intoSigned modelCrypto (modelKey 1)

def fourPrepare (signer round : UInt8) : PrepareMessageSigned :=
  (PrepareMessage.new (fourView round) (digestBlock modelCrypto [7] round)).intoSigned modelCrypto
    (modelKey signer)

def fourCommit (signer round : UInt8) : CommitMessageSigned :=
  (CommitMessage.new modelCrypto (modelKey signer) (fourView round)
    (digestBlock modelCrypto [7] round)).intoSigned modelCrypto (modelKey signer)

/-- The block of round 0 with the prepares of the first and the third validator. -/
def fourPrepared : PreparedProposed :=
  PreparedProposed.new fourProposal [fourPrepare 2 0, fourPrepare 0 0]

def fourRoundChange (signer : UInt8) : RoundChangeMessageSigned :=
  (RoundChangeMessage.new (fourView 1) (some fourPrepared)).intoSigned modelCrypto
    (modelKey signer)

/-- The fourth validator wants to go on to round 2. -/
def fourLaterRoundChange : RoundChangeMessageSigned :=
  (RoundChangeMessage.new (fourView 2) none).intoSigned modelCrypto (modelKey 3)

/-- The third validator proposes the block again in round 1. -/
def fourReproposal : ProposalMessageSigned :=
  (ProposalMessage.new modelCrypto (fourView 1) [7]
    (some { roundChangeMessages :=
      [0, 1, 2].map fun signer => (fourRoundChange signer).intoMetadata.2 })).intoSigned modelCrypto
    (modelKey 2)

/-- A message is taken from the network and added to the store. -/
def arrives (message : IBFTMessage) : List Event := [.receive message, .addPending]

/-- The first validator begins height 1 and polls its tasks until all three wait. -/
def waitingEvents : List Event :=
  [.runHeight 1, .round (modelEnv [7]), .round (modelEnv [7]), .futureProposal (modelEnv [7]),
    .futureProposal (modelEnv [7]), .futureRcc, .futureRcc]

def waitingNode : Node :=
  (exec (Node.step fourConfig) (Node.init fourConfig 0) waitingEvents).get (by decide +kernel)

def waitingRun : Run := waitingNode.run.get (by decide +kernel)

theorem waitingNode_run : waitingNode.run = some waitingRun := (Option.some_get _).symm

/-- It commits in round 0 and times out there with a prepared block; in round 1 the block is
proposed again, and the validator waits for the last commit while its monitors wait, too. -/
def sealingEvents : List Event :=
  List.flatten
    [waitingEvents, arrives (.proposal fourProposal), List.replicate 5 (.round (modelEnv [7])),
      arrives (.prepare (fourPrepare 2 0)), List.replicate 5 (.round (modelEnv [7])),
      [.timeout], List.replicate 3 (.main (modelEnv [7])),
      waitingEvents.tail, arrives (.proposal fourReproposal), [.futureProposal (modelEnv [7])],
      List.replicate 5 (.round (modelEnv [7])), arrives (.prepare (fourPrepare 1 1)),
      arrives (.prepare (fourPrepare 3 1)), List.replicate 5 (.round (modelEnv [7])),
      arrives (.roundChange fourLaterRoundChange), [.futureRcc],
      arrives (.commit (fourCommit 2 1)), [.round (modelEnv [7])]]

def sealingNode : Node :=
  (exec (Node.step fourConfig) (Node.init fourConfig 0) sealingEvents).get (by decide +kernel)

def sealingRun : Run := sealingNode.run.get (by decide +kernel)

theorem sealingRun_mem : sealingRun ∈ sealingNode.runs :=
  List.mem_append_right _ (Option.mem_toList.mpr (Option.some_get _).symm)

/-- With the last commit it finalizes the block. -/
def fourEvents : List Event :=
  sealingEvents ++ arrives (.commit (fourCommit 3 1)) ++ List.replicate 2 (.round (modelEnv [7])) ++
    .roundFinished :: List.replicate 3 (.main (modelEnv [7]))

def fourNode : Node :=
  (exec (Node.step fourConfig) (Node.init fourConfig 0) fourEvents).get (by decide +kernel)

theorem fourNode_reachable :
    Reachable (Node.step fourConfig) (Node.init fourConfig 0) fourNode :=
  reachable_get _

def fourRun : Run := fourNode.run.get (by decide +kernel)

theorem fourRun_mem : fourRun ∈ fourNode.runs :=
  List.mem_append_right _ (Option.mem_toList.mpr (Option.some_get _).symm)

/-- The block it finalizes, sealed by three of the validators. -/
def fourBlock : FinalizedBlock where
  rawBlock := [7]
  proof := { round := 1, commitSeals := [3, 2, 0].map fun signer => (fourCommit signer 1).commitSeal }

end Tonic
