/-
# How long messages are on the wire

The encodings are sums of fixed parts, the block, and lists.  A round change adds a
certificate to the block, a proposal of a later round adds a certificate for each of
its round changes.  With `n` validators the longest message around a block is such a
proposal; whether it can be sent is a matter of the block and of `n`.
-/
import Tonic.GossipCodec
import Tonic.SignedContent
import Tonic.Verify

namespace Tonic

/-! ## Lengths of encodings -/

theorem length_serialize_proposedBlock (b : ProposedBlock) :
    (serialize b).length = b.rawBlock.length + 5 := by
  show (serialize (b.rawBlock, b.round)).length = b.rawBlock.length + 5
  rw [length_serialize_prod, length_serialize_bytes, length_serialize_uint8]

theorem length_serialize_preparedProposed (pp : PreparedProposed) :
    (serialize pp).length = pp.proposedBlock.rawBlock.length + 115 +
      106 * pp.preparedCertificate.prepareMessages.length := by
  show (serialize (pp.proposedBlock, pp.preparedCertificate)).length = _
  simp only [length_serialize_prod, length_serialize_proposedBlock,
    length_serialize_preparedCertificate]
  omega

theorem length_serialize_option {α : Type} [BorshSerialize α] (a : Option α) :
    (serialize a).length = 1 + a.elim 0 fun a => (serialize a).length := by
  cases a with
  | none => rfl
  | some a =>
    rw [serialize_some, List.length_cons, Option.elim_some]
    omega

/-- A vector of items of any length. -/
theorem length_serialize_vec {α : Type} [BorshSerialize α] (xs : List α) :
    (serialize xs).length = 4 + (xs.map fun a => (serialize a).length).sum := by
  rw [serialize_list, List.length_append, ByteEncoding.length_leBytes, List.length_flatMap]

theorem length_serialize_roundChangeMetadata (m : RoundChangeMetadata) :
    (serialize m).length =
      75 + m.latestPreparedCertificate.elim 0 fun pc => 110 + 106 * pc.prepareMessages.length := by
  show (serialize (m.view, m.latestPreparedCertificate, m.signature)).length = _
  simp only [length_serialize_prod, length_serialize_view, length_serialize_fixedBytes,
    length_serialize_option, length_serialize_preparedCertificate]
  omega

theorem length_serialize_roundChangeCertificate (rcc : RoundChangeCertificate) :
    (serialize rcc).length =
      4 + (rcc.roundChangeMessages.map fun rc => (serialize rc).length).sum :=
  length_serialize_vec rcc.roundChangeMessages

/-- The content of an enum is encoded behind a byte for its variant. -/
theorem length_serialize_proposal (p : ProposalMessageSigned) :
    (serialize (IBFTMessage.proposal p)).length =
      p.proposedBlock.rawBlock.length + 113 +
        p.roundChangeCertificate.elim 0 fun rcc => (serialize rcc).length := by
  show (serialize (p.message, p.signature)).length + 1 = _
  rw [length_serialize_prod]
  show (serialize (p.view, p.proposedBlock, p.proposedBlockDigest,
    p.roundChangeCertificate)).length + _ + 1 = _
  simp only [length_serialize_prod, length_serialize_view, length_serialize_proposedBlock,
    length_serialize_fixedBytes, length_serialize_option]
  omega

theorem length_serialize_roundChange (m : RoundChangeMessageSigned) :
    (serialize (IBFTMessage.roundChange m)).length =
      76 + m.latestPreparedProposed.elim 0 fun pp => (serialize pp).length := by
  show (serialize (m.message, m.signature)).length + 1 = _
  rw [length_serialize_prod]
  show (serialize (m.view, m.latestPreparedProposed)).length + _ + 1 = _
  simp only [length_serialize_prod, length_serialize_view, length_serialize_fixedBytes,
    length_serialize_option]
  omega

theorem length_serialize_prepare (m : PrepareMessageSigned) :
    (serialize (IBFTMessage.prepare m)).length = 107 := by
  show (serialize m).length + 1 = 107
  rw [length_serialize_prepareMessageSigned]

theorem length_serialize_commit (m : CommitMessageSigned) :
    (serialize (IBFTMessage.commit m)).length = 172 := by
  show (serialize (m.message, m.signature)).length + 1 = 172
  rw [length_serialize_prod]
  show (serialize (m.view, m.proposedBlockDigest, m.commitSeal)).length + _ + 1 = 172
  simp only [length_serialize_prod, length_serialize_view, length_serialize_fixedBytes]

theorem length_serialize_finalizedBlock (b : FinalizedBlock) :
    (serialize b).length = b.rawBlock.length + 9 + 65 * b.proof.commitSeals.length := by
  show (serialize (b.rawBlock, b.proof)).length = _
  rw [length_serialize_prod, length_serialize_bytes]
  show _ + (serialize (b.proof.round, b.proof.commitSeals)).length = _
  simp only [length_serialize_prod, length_serialize_uint8,
    length_serialize_list length_serialize_fixedBytes]
  omega

/-! ## Messages around a block -/

/-- A proposal of the block with `n` round changes, each with a certificate of `n - 1` prepares. -/
def maxDerivedSize (n blockSize : ℕ) : ℕ := blockSize + 117 + n * (185 + 106 * (n - 1))

/-- The block that a message carries. -/
def IBFTMessage.rawBlock? : IBFTMessage → Option RawBlock
  | .proposal m => some m.proposedBlock.rawBlock
  | .roundChange m => m.latestPreparedProposed.map fun pp => pp.proposedBlock.rawBlock
  | .prepare _ | .commit _ => none

/-- The prepared certificates that a message carries. -/
def IBFTMessage.preparedCertificates : IBFTMessage → List PreparedCertificate
  | .proposal m => m.certificates
  | .roundChange m =>
    (m.latestPreparedProposed.map PreparedProposed.preparedCertificate).toList
  | .prepare _ | .commit _ => []

/-- The round changes that a proposal of a later round is sent with. -/
def IBFTMessage.justification : IBFTMessage → List RoundChangeMetadata
  | .proposal m => m.roundChanges
  | .prepare _ | .commit _ | .roundChange _ => []

/-- A message of a height with `n` validators: no more round changes than validators, and no more
prepares in a certificate than validators that did not propose. -/
structure IBFTMessage.OfValidators (n : ℕ) (m : IBFTMessage) : Prop where
  roundChanges_le : m.justification.length ≤ n
  prepares_le : ∀ pc ∈ m.preparedCertificates, pc.prepareMessages.length ≤ n - 1

theorem length_serialize_metadata_le {n : ℕ} {rc : RoundChangeMetadata}
    (h : ∀ pc, rc.latestPreparedCertificate = some pc → pc.prepareMessages.length ≤ n - 1) :
    (serialize rc).length ≤ 185 + 106 * (n - 1) := by
  rw [length_serialize_roundChangeMetadata]
  cases hpc : rc.latestPreparedCertificate with
  | none =>
    rw [Option.elim_none]
    omega
  | some pc =>
    have := h pc hpc
    rw [Option.elim_some]
    omega

/-- **No message around a block is longer** than such a proposal. -/
theorem IBFTMessage.OfValidators.length_le {n : ℕ} {m : IBFTMessage} (h : m.OfValidators n)
    (hpos : 0 < n) {blockSize : ℕ} (hblock : ∀ b, m.rawBlock? = some b → b.length ≤ blockSize) :
    (serialize m).length ≤ maxDerivedSize n blockSize := by
  have hone : 185 + 106 * (n - 1) ≤ n * (185 + 106 * (n - 1)) := Nat.le_mul_of_pos_left _ hpos
  unfold maxDerivedSize
  cases m with
  | proposal p =>
    have hraw := hblock _ rfl
    rw [length_serialize_proposal]
    cases hrcc : p.roundChangeCertificate with
    | none =>
      rw [Option.elim_none]
      omega
    | some rcc =>
      have hrcs : p.roundChanges = rcc.roundChangeMessages := by
        rw [ProposalMessageSigned.roundChanges, hrcc, Option.elim_some]
      have hlen : rcc.roundChangeMessages.length ≤ n := hrcs ▸ h.roundChanges_le
      have hsum : (rcc.roundChangeMessages.map fun rc => (serialize rc).length).sum ≤
          rcc.roundChangeMessages.length * (185 + 106 * (n - 1)) := by
        have hle := List.sum_le_card_nsmul
          (rcc.roundChangeMessages.map fun rc => (serialize rc).length) (185 + 106 * (n - 1)) ?_
        · rw [List.length_map, smul_eq_mul] at hle
          exact hle
        · rintro size hsize
          obtain ⟨rc, hrc, rfl⟩ := List.mem_map.mp hsize
          refine length_serialize_metadata_le fun pc hpc => h.prepares_le pc ?_
          exact List.mem_filterMap.mpr ⟨rc, hrcs ▸ hrc, hpc⟩
      have hmul := Nat.mul_le_mul_right (185 + 106 * (n - 1)) hlen
      rw [Option.elim_some, length_serialize_roundChangeCertificate]
      omega
  | prepare p =>
    rw [length_serialize_prepare]
    omega
  | commit p =>
    rw [length_serialize_commit]
    omega
  | roundChange p =>
    rw [length_serialize_roundChange]
    cases hpp : p.latestPreparedProposed with
    | none =>
      rw [Option.elim_none]
      omega
    | some pp =>
      have hraw : pp.proposedBlock.rawBlock.length ≤ blockSize :=
        hblock _ (by rw [rawBlock?, hpp, Option.map_some])
      have hprepares : pp.preparedCertificate.prepareMessages.length ≤ n - 1 :=
        h.prepares_le _ (by rw [preparedCertificates, hpp]; exact List.mem_singleton_self _)
      rw [Option.elim_some, length_serialize_preparedProposed]
      omega

/-- Neither is a finalized block. -/
theorem FinalizedBlock.length_le {n : ℕ} {b : FinalizedBlock}
    (h : b.proof.commitSeals.length ≤ n) (hpos : 0 < n) :
    (serialize b).length ≤ maxDerivedSize n b.rawBlock.length := by
  have hone : 185 + 106 * (n - 1) ≤ n * (185 + 106 * (n - 1)) := Nat.le_mul_of_pos_left _ hpos
  have hmul : n * 185 ≤ n * (185 + 106 * (n - 1)) := Nat.mul_le_mul_left n (by omega)
  rw [length_serialize_finalizedBlock, maxDerivedSize]
  omega

/-! ## The limit of the codec -/

theorem proxyCodec_serialize_received (m : IBFTMessage) :
    proxyCodec.serialize m.received = proxyCodec.serialize m := by
  have hsame : proxyCodec.serialize m.received = proxyCodec.serialize m.received.broadcast := rfl
  rw [hsame, IBFTMessage.broadcast_received]

/-- What is sent is what is received. -/
theorem proxyCodec_deserialize_iff {m : IBFTMessage} {data : List UInt8} :
    proxyCodec.deserialize data = .ok m.received ↔ proxyCodec.serialize m = .ok data := by
  rw [GossipCodec.deserialize_ok_iff_serialize_ok, proxyCodec_serialize_received]

/-- A message is sent exactly when its encoding is within the limit. -/
theorem proxyCodec_serialize_message_iff {m : IBFTMessage} :
    (∃ data, proxyCodec.serialize m = .ok data) ↔ (serialize m).length ≤ maxMessageSize := by
  have hreceived : (∃ data, proxyCodec.serialize m.received = .ok data) ↔
      (serialize m.received).length ≤ maxMessageSize :=
    GossipCodec.serialize_ok_iff_length (by decide)
  have hbytes : serialize m.received = serialize m.received.broadcast := rfl
  rw [proxyCodec_serialize_received, hbytes, IBFTMessage.broadcast_received] at hreceived
  exact hreceived

/-- Fields of no interest. -/
def zeroBytes (n : ℕ) : FixedBytes n := ⟨List.replicate n 0, List.length_replicate⟩

/-- A round change whose certificate holds the prepares of all validators but the proposer. -/
def longestRoundChange (n : ℕ) : RoundChangeMetadata where
  view := { height := 0, round := 0 }
  latestPreparedCertificate :=
    some
      { proposalMeta :=
          { view := { height := 0, round := 0 }
            proposedBlockDigest := zeroBytes 32
            signature := zeroBytes 65 }
        prepareMessages :=
          List.replicate (n - 1)
            { message :=
                { view := { height := 0, round := 0 }, proposedBlockDigest := zeroBytes 32 }
              signature := zeroBytes 65 } }
  signature := zeroBytes 65

/-- A proposal of the block with such a round change of each validator. -/
def longestProposal (n : ℕ) (b : RawBlock) : ProposalMessageSigned where
  message :=
    { view := { height := 0, round := 0 }
      proposedBlock := { rawBlock := b, round := 0 }
      proposedBlockDigest := zeroBytes 32
      roundChangeCertificate :=
        some { roundChangeMessages := List.replicate n (longestRoundChange n) } }
  signature := zeroBytes 65

theorem longestProposal_ofValidators (n : ℕ) (b : RawBlock) :
    (IBFTMessage.proposal (longestProposal n b)).OfValidators n where
  roundChanges_le := Nat.le_of_eq List.length_replicate
  prepares_le pc hpc := by
    obtain ⟨rc, hrc, hsome⟩ := List.mem_filterMap.mp hpc
    have hrc' : rc = longestRoundChange n := List.eq_of_mem_replicate hrc
    subst hrc'
    cases hsome
    exact Nat.le_of_eq List.length_replicate

theorem length_serialize_longestProposal (n : ℕ) (b : RawBlock) :
    (serialize (IBFTMessage.proposal (longestProposal n b))).length = maxDerivedSize n b.length := by
  have hmetadata : (serialize (longestRoundChange n)).length = 185 + 106 * (n - 1) := by
    rw [length_serialize_roundChangeMetadata, longestRoundChange, Option.elim_some,
      List.length_replicate]
    omega
  rw [length_serialize_proposal]
  show b.length + 113 + (serialize (RoundChangeCertificate.mk
    (List.replicate n (longestRoundChange n)))).length = _
  rw [length_serialize_roundChangeCertificate, List.map_replicate, List.sum_replicate, hmetadata,
    smul_eq_mul]
  unfold maxDerivedSize
  omega

/-- **The bound is exact**: all messages around a block that the validators can bring about are
within the limit exactly when the longest one is. -/
theorem proxyCodec_serialize_derived_iff {n : ℕ} (hpos : 0 < n) (b : RawBlock) :
    (∀ m : IBFTMessage, m.rawBlock? = some b → m.OfValidators n →
      ∃ data, proxyCodec.serialize m = .ok data) ↔ maxDerivedSize n b.length ≤ maxMessageSize := by
  constructor
  · intro h
    have hlongest := h (.proposal (longestProposal n b)) rfl (longestProposal_ofValidators n b)
    rw [proxyCodec_serialize_message_iff, length_serialize_longestProposal] at hlongest
    exact hlongest
  · intro h m hblock hvalidators
    refine proxyCodec_serialize_message_iff.mpr (le_trans (hvalidators.length_le hpos ?_) h)
    intro b' hb'
    rw [hblock] at hb'
    cases hb'
    exact le_refl _

end Tonic
