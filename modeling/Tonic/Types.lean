/-
# Consensus messages and their digests

`crates/consensus/poa/src/types.rs` and `codec.rs`: the four message kinds with
their signed forms, the certificates built from them, the finalized block, and
the digests that are signed.  Fields and constructors are the source's; a method
that only reads a field is the field itself.
-/
import Tonic.Primitives

namespace Tonic

/-! ## Views, blocks and certificates -/

structure View where
  height : UInt64
  round : UInt8
  deriving DecidableEq

/-- The discriminant that opens the preimage of a signed message. -/
inductive MessageType where
  | proposal
  | prepare
  | commit
  | roundChange
  deriving DecidableEq

abbrev RawBlock := List UInt8

structure ProposedBlock where
  rawBlock : RawBlock
  round : UInt8
  deriving DecidableEq

structure ProposalMetadata where
  view : View
  proposedBlockDigest : Digest
  signature : Signature
  deriving DecidableEq

structure PrepareMessage where
  view : View
  proposedBlockDigest : Digest
  deriving DecidableEq

structure PrepareMessageSigned where
  message : PrepareMessage
  signature : Signature
  deriving DecidableEq

structure PreparedCertificate where
  proposalMeta : ProposalMetadata
  prepareMessages : List PrepareMessageSigned
  deriving DecidableEq

structure PreparedProposed where
  proposedBlock : ProposedBlock
  preparedCertificate : PreparedCertificate
  deriving DecidableEq

structure RoundChangeMessage where
  view : View
  latestPreparedProposed : Option PreparedProposed
  deriving DecidableEq

structure RoundChangeMessageSigned where
  message : RoundChangeMessage
  signature : Signature
  deriving DecidableEq

structure RoundChangeMetadata where
  view : View
  latestPreparedCertificate : Option PreparedCertificate
  signature : Signature
  deriving DecidableEq

structure RoundChangeCertificate where
  roundChangeMessages : List RoundChangeMetadata
  deriving DecidableEq

structure ProposalMessage where
  view : View
  proposedBlock : ProposedBlock
  proposedBlockDigest : Digest
  roundChangeCertificate : Option RoundChangeCertificate
  deriving DecidableEq

structure ProposalMessageSigned where
  message : ProposalMessage
  signature : Signature
  deriving DecidableEq

structure CommitMessage where
  view : View
  proposedBlockDigest : Digest
  commitSeal : Signature
  deriving DecidableEq

structure CommitMessageSigned where
  message : CommitMessage
  signature : Signature
  deriving DecidableEq

abbrev CommitSeals := List Signature

structure FinalizationProof where
  round : UInt8
  commitSeals : CommitSeals
  deriving DecidableEq

structure FinalizedBlock where
  rawBlock : RawBlock
  proof : FinalizationProof
  deriving DecidableEq

/-- `IBFTBroadcastMessage` and `IBFTReceivedMessage`, which differ only in borrowing their
content or owning it. -/
inductive IBFTMessage where
  | proposal (proposal : ProposalMessageSigned)
  | prepare (prepare : PrepareMessageSigned)
  | commit (commit : CommitMessageSigned)
  | roundChange (roundChange : RoundChangeMessageSigned)
  deriving DecidableEq

inductive IBFTError where
  | incorrectProposalDigest
  | invalidProposalBlock (err : String)
  | blockBuild (err : String)
  | missingRoundChangeCertificate
  | roundChangeCertificateQuorumNotReached
  | invalidRoundChangeInCertificate
  | duplicateRoundChangeInCertificate
  deriving DecidableEq

/-! ## Encodings -/

/-- `#[borsh(use_discriminant = true)]`. -/
instance : BorshSerialize MessageType where
  serialize
    | .proposal => [0]
    | .prepare => [1]
    | .commit => [2]
    | .roundChange => [3]

instance : BorshSerialize View where
  serialize v := serialize (v.height, v.round)

instance : BorshSerialize ProposedBlock where
  serialize b := serialize (b.rawBlock, b.round)

instance : BorshSerialize ProposalMetadata where
  serialize m := serialize (m.view, m.proposedBlockDigest, m.signature)

instance : BorshSerialize PrepareMessage where
  serialize m := serialize (m.view, m.proposedBlockDigest)

instance : BorshSerialize PrepareMessageSigned where
  serialize m := serialize (m.message, m.signature)

instance : BorshSerialize PreparedCertificate where
  serialize c := serialize (c.proposalMeta, c.prepareMessages)

instance : BorshSerialize PreparedProposed where
  serialize p := serialize (p.proposedBlock, p.preparedCertificate)

instance : BorshSerialize RoundChangeMessage where
  serialize m := serialize (m.view, m.latestPreparedProposed)

instance : BorshSerialize RoundChangeMessageSigned where
  serialize m := serialize (m.message, m.signature)

instance : BorshSerialize RoundChangeMetadata where
  serialize m := serialize (m.view, m.latestPreparedCertificate, m.signature)

instance : BorshSerialize RoundChangeCertificate where
  serialize c := serialize c.roundChangeMessages

instance : BorshSerialize ProposalMessage where
  serialize m :=
    serialize (m.view, m.proposedBlock, m.proposedBlockDigest, m.roundChangeCertificate)

instance : BorshSerialize ProposalMessageSigned where
  serialize m := serialize (m.message, m.signature)

instance : BorshSerialize CommitMessage where
  serialize m := serialize (m.view, m.proposedBlockDigest, m.commitSeal)

instance : BorshSerialize CommitMessageSigned where
  serialize m := serialize (m.message, m.signature)

instance : BorshSerialize FinalizationProof where
  serialize p := serialize (p.round, p.commitSeals)

instance : BorshSerialize FinalizedBlock where
  serialize b := serialize (b.rawBlock, b.proof)

/-- The variant index, then the content. -/
instance : BorshSerialize IBFTMessage where
  serialize
    | .proposal m => 0 :: serialize m
    | .prepare m => 1 :: serialize m
    | .commit m => 2 :: serialize m
    | .roundChange m => 3 :: serialize m

/-! ## Digests -/

section Digests

variable (c : Crypto)

/-- The bytes hashed by `digest_proposal`. -/
def proposalPreimage (view : View) (proposedBlockDigest : Digest) : List UInt8 :=
  serialize (MessageType.proposal, view, proposedBlockDigest)

/-- The bytes hashed by `digest_prepare`. -/
def preparePreimage (view : View) (proposedBlockDigest : Digest) : List UInt8 :=
  serialize (MessageType.prepare, view, proposedBlockDigest)

/-- The bytes hashed by `digest_commit`. -/
def commitPreimage (view : View) (proposedBlockDigest : Digest) (commitSeal : Signature) :
    List UInt8 :=
  serialize (MessageType.commit, view, proposedBlockDigest, commitSeal)

/-- The bytes hashed by `digest_round_change`. -/
def roundChangePreimage (view : View) (latestPreparedCertificate : Option PreparedCertificate) :
    List UInt8 :=
  serialize (MessageType.roundChange, view, latestPreparedCertificate)

/-- The bytes hashed by `digest_block`. -/
def blockPreimage (rawBlock : RawBlock) (round : UInt8) : List UInt8 :=
  serialize (rawBlock, round)

def digestProposal (view : View) (proposedBlockDigest : Digest) : Digest :=
  c.sha256 (proposalPreimage view proposedBlockDigest)

def digestPrepare (view : View) (proposedBlockDigest : Digest) : Digest :=
  c.sha256 (preparePreimage view proposedBlockDigest)

def digestCommit (view : View) (proposedBlockDigest : Digest) (commitSeal : Signature) : Digest :=
  c.sha256 (commitPreimage view proposedBlockDigest commitSeal)

def digestRoundChange (view : View) (latestPreparedCertificate : Option PreparedCertificate) :
    Digest :=
  c.sha256 (roundChangePreimage view latestPreparedCertificate)

def digestBlock (rawBlock : RawBlock) (round : UInt8) : Digest :=
  c.sha256 (blockPreimage rawBlock round)

end Digests

def ProposedBlock.digest (c : Crypto) (b : ProposedBlock) : Digest :=
  digestBlock c b.rawBlock b.round

/-! ## Messages: construction, signing, recovery -/

namespace ProposalMessage

def new (c : Crypto) (view : View) (rawBlock : RawBlock)
    (roundChangeCertificate : Option RoundChangeCertificate) : ProposalMessage :=
  let proposedBlock : ProposedBlock := { rawBlock, round := view.round }
  { view, proposedBlock, proposedBlockDigest := proposedBlock.digest c, roundChangeCertificate }

def digest (c : Crypto) (m : ProposalMessage) : Digest :=
  digestProposal c m.view m.proposedBlockDigest

def intoSigned (c : Crypto) (key : SecretKey) (m : ProposalMessage) : ProposalMessageSigned :=
  { message := m, signature := c.signPrehash key (m.digest c) }

def verifyBlockDigest (c : Crypto) (m : ProposalMessage) : Bool :=
  m.proposedBlock.digest c = m.proposedBlockDigest

end ProposalMessage

namespace ProposalMessageSigned

def view (p : ProposalMessageSigned) : View := p.message.view

def proposedBlock (p : ProposalMessageSigned) : ProposedBlock := p.message.proposedBlock

def proposedBlockDigest (p : ProposalMessageSigned) : Digest := p.message.proposedBlockDigest

def roundChangeCertificate (p : ProposalMessageSigned) : Option RoundChangeCertificate :=
  p.message.roundChangeCertificate

def recoverSigner (c : Crypto) (p : ProposalMessageSigned) : Except String Address :=
  c.recoverFromPrehash p.signature (p.message.digest c)

def verifyBlockDigest (c : Crypto) (p : ProposalMessageSigned) : Bool :=
  p.message.verifyBlockDigest c

end ProposalMessageSigned

def ProposalMetadata.recoverSigner (c : Crypto) (m : ProposalMetadata) : Except String Address :=
  c.recoverFromPrehash m.signature (digestProposal c m.view m.proposedBlockDigest)

namespace PrepareMessage

def new (view : View) (proposedBlockDigest : Digest) : PrepareMessage :=
  { view, proposedBlockDigest }

def digest (c : Crypto) (m : PrepareMessage) : Digest :=
  digestPrepare c m.view m.proposedBlockDigest

def intoSigned (c : Crypto) (key : SecretKey) (m : PrepareMessage) : PrepareMessageSigned :=
  { message := m, signature := c.signPrehash key (m.digest c) }

end PrepareMessage

namespace PrepareMessageSigned

def view (p : PrepareMessageSigned) : View := p.message.view

def proposedBlockDigest (p : PrepareMessageSigned) : Digest := p.message.proposedBlockDigest

def recoverSigner (c : Crypto) (p : PrepareMessageSigned) : Except String Address :=
  c.recoverFromPrehash p.signature (p.message.digest c)

end PrepareMessageSigned

namespace CommitMessage

def new (c : Crypto) (key : SecretKey) (view : View) (proposedBlockDigest : Digest) :
    CommitMessage :=
  { view, proposedBlockDigest, commitSeal := c.signPrehash key proposedBlockDigest }

def recoverCommitSealSigner (c : Crypto) (m : CommitMessage) : Except String Address :=
  c.recoverFromPrehash m.commitSeal m.proposedBlockDigest

def digest (c : Crypto) (m : CommitMessage) : Digest :=
  digestCommit c m.view m.proposedBlockDigest m.commitSeal

def intoSigned (c : Crypto) (key : SecretKey) (m : CommitMessage) : CommitMessageSigned :=
  { message := m, signature := c.signPrehash key (m.digest c) }

end CommitMessage

namespace CommitMessageSigned

def view (p : CommitMessageSigned) : View := p.message.view

def proposedBlockDigest (p : CommitMessageSigned) : Digest := p.message.proposedBlockDigest

def commitSeal (p : CommitMessageSigned) : Signature := p.message.commitSeal

def recoverCommitSealSigner (c : Crypto) (p : CommitMessageSigned) : Except String Address :=
  p.message.recoverCommitSealSigner c

def recoverSigner (c : Crypto) (p : CommitMessageSigned) : Except String Address :=
  c.recoverFromPrehash p.signature (p.message.digest c)

end CommitMessageSigned

def PreparedProposed.new (proposal : ProposalMessageSigned) (prepares : List PrepareMessageSigned) :
    PreparedProposed where
  proposedBlock := proposal.message.proposedBlock
  preparedCertificate :=
    { proposalMeta :=
        { view := proposal.message.view
          proposedBlockDigest := proposal.message.proposedBlockDigest
          signature := proposal.signature }
      prepareMessages := prepares }

namespace RoundChangeMessage

def new (view : View) (latestPreparedProposed : Option PreparedProposed) : RoundChangeMessage :=
  { view, latestPreparedProposed }

def digest (c : Crypto) (m : RoundChangeMessage) : Digest :=
  digestRoundChange c m.view (m.latestPreparedProposed.map PreparedProposed.preparedCertificate)

def intoSigned (c : Crypto) (key : SecretKey) (m : RoundChangeMessage) :
    RoundChangeMessageSigned :=
  { message := m, signature := c.signPrehash key (m.digest c) }

end RoundChangeMessage

namespace RoundChangeMessageSigned

def view (p : RoundChangeMessageSigned) : View := p.message.view

/-- Updates the round of the round change message, and resigns the message. -/
def updateAndResign (c : Crypto) (key : SecretKey) (round : UInt8)
    (p : RoundChangeMessageSigned) : RoundChangeMessageSigned :=
  let message := { p.message with view := { p.message.view with round } }
  { message, signature := c.signPrehash key (message.digest c) }

def latestPreparedProposed (p : RoundChangeMessageSigned) : Option PreparedProposed :=
  p.message.latestPreparedProposed

def recoverSigner (c : Crypto) (p : RoundChangeMessageSigned) : Except String Address :=
  c.recoverFromPrehash p.signature (p.message.digest c)

def intoMetadata (p : RoundChangeMessageSigned) : Option ProposedBlock × RoundChangeMetadata :=
  (p.message.latestPreparedProposed.map PreparedProposed.proposedBlock,
    { view := p.message.view
      latestPreparedCertificate :=
        p.message.latestPreparedProposed.map PreparedProposed.preparedCertificate
      signature := p.signature })

end RoundChangeMessageSigned

namespace RoundChangeMetadata

def digest (c : Crypto) (m : RoundChangeMetadata) : Digest :=
  digestRoundChange c m.view m.latestPreparedCertificate

def recoverSigner (c : Crypto) (m : RoundChangeMetadata) : Except String Address :=
  c.recoverFromPrehash m.signature (m.digest c)

end RoundChangeMetadata

def FinalizedBlock.new (proposedBlock : ProposedBlock) (commitSeals : CommitSeals) :
    FinalizedBlock where
  rawBlock := proposedBlock.rawBlock
  proof := { round := proposedBlock.round, commitSeals }

/-! ## What signing and extraction preserve -/

section Laws

variable (c : Crypto) (key : SecretKey)

@[simp] theorem ProposalMessage.recoverSigner_intoSigned (m : ProposalMessage) :
    (m.intoSigned c key).recoverSigner c = .ok (c.address key) :=
  c.recover_sign key _

@[simp] theorem PrepareMessage.recoverSigner_intoSigned (m : PrepareMessage) :
    (m.intoSigned c key).recoverSigner c = .ok (c.address key) :=
  c.recover_sign key _

@[simp] theorem CommitMessage.recoverSigner_intoSigned (m : CommitMessage) :
    (m.intoSigned c key).recoverSigner c = .ok (c.address key) :=
  c.recover_sign key _

@[simp] theorem CommitMessage.recoverCommitSealSigner_new (v : View) (d : Digest) :
    ((CommitMessage.new c key v d).intoSigned c key).recoverCommitSealSigner c
      = .ok (c.address key) :=
  c.recover_sign key _

@[simp] theorem RoundChangeMessage.recoverSigner_intoSigned (m : RoundChangeMessage) :
    (m.intoSigned c key).recoverSigner c = .ok (c.address key) :=
  c.recover_sign key _

@[simp] theorem RoundChangeMessageSigned.recoverSigner_updateAndResign (round : UInt8)
    (p : RoundChangeMessageSigned) :
    (p.updateAndResign c key round).recoverSigner c = .ok (c.address key) :=
  c.recover_sign key _

/-- A freshly built proposal passes its own digest check. -/
@[simp] theorem ProposalMessage.verifyBlockDigest_new (v : View) (b : RawBlock)
    (rcc : Option RoundChangeCertificate) :
    ((ProposalMessage.new c v b rcc).intoSigned c key).verifyBlockDigest c = true := by
  simp [ProposalMessageSigned.verifyBlockDigest, ProposalMessage.verifyBlockDigest,
    ProposalMessage.intoSigned, ProposalMessage.new]

end Laws

end Tonic
