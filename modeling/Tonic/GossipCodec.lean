/-
# The wire format of gossip messages

`crates/p2p/src/gossipsub/codec.rs` and the decoders that `types.rs` derives.  A
consensus message is encoded as an `IBFTBroadcastMessage` and decoded as an
`IBFTReceivedMessage`, two enums that are declared apart; a finalized block is
encoded and decoded as itself.  Decoding undoes encoding, and it accepts no bytes
other than the ones the encoder writes.
-/
import Tonic.BorshDecode
import Tonic.Types

namespace Tonic

/-! ## Derived decoders -/

section Derived

instance : BorshDeserialize View := .ofFields fun (height, round) => { height, round }

instance : BorshFits View := .ofFields fun v => (v.height, v.round)

instance : LawfulBorsh View := .of_fields (fun v => (v.height, v.round)) (fun (h, r) => ⟨h, r⟩)

instance : BorshDeserialize ProposedBlock := .ofFields fun (rawBlock, round) => { rawBlock, round }

instance : BorshFits ProposedBlock := .ofFields fun b => (b.rawBlock, b.round)

instance : LawfulBorsh ProposedBlock :=
  .of_fields (fun b => (b.rawBlock, b.round)) (fun (b, r) => ⟨b, r⟩)

instance : BorshDeserialize ProposalMetadata :=
  .ofFields fun (view, proposedBlockDigest, signature) => { view, proposedBlockDigest, signature }

instance : BorshFits ProposalMetadata :=
  .ofFields fun m => (m.view, m.proposedBlockDigest, m.signature)

instance : LawfulBorsh ProposalMetadata :=
  .of_fields (fun m => (m.view, m.proposedBlockDigest, m.signature)) (fun (v, d, s) => ⟨v, d, s⟩)

instance : BorshDeserialize PrepareMessage :=
  .ofFields fun (view, proposedBlockDigest) => { view, proposedBlockDigest }

instance : BorshFits PrepareMessage := .ofFields fun m => (m.view, m.proposedBlockDigest)

instance : LawfulBorsh PrepareMessage :=
  .of_fields (fun m => (m.view, m.proposedBlockDigest)) (fun (v, d) => ⟨v, d⟩)

instance : BorshDeserialize PrepareMessageSigned :=
  .ofFields fun (message, signature) => { message, signature }

instance : BorshFits PrepareMessageSigned := .ofFields fun m => (m.message, m.signature)

instance : LawfulBorsh PrepareMessageSigned :=
  .of_fields (fun m => (m.message, m.signature)) (fun (m, s) => ⟨m, s⟩)

instance : BorshDeserialize PreparedCertificate :=
  .ofFields fun (proposalMeta, prepareMessages) => { proposalMeta, prepareMessages }

instance : BorshFits PreparedCertificate := .ofFields fun c => (c.proposalMeta, c.prepareMessages)

instance : LawfulBorsh PreparedCertificate :=
  .of_fields (fun c => (c.proposalMeta, c.prepareMessages)) (fun (m, ps) => ⟨m, ps⟩)

instance : BorshDeserialize PreparedProposed :=
  .ofFields fun (proposedBlock, preparedCertificate) => { proposedBlock, preparedCertificate }

instance : BorshFits PreparedProposed :=
  .ofFields fun p => (p.proposedBlock, p.preparedCertificate)

instance : LawfulBorsh PreparedProposed :=
  .of_fields (fun p => (p.proposedBlock, p.preparedCertificate)) (fun (b, c) => ⟨b, c⟩)

instance : BorshDeserialize RoundChangeMessage :=
  .ofFields fun (view, latestPreparedProposed) => { view, latestPreparedProposed }

instance : BorshFits RoundChangeMessage := .ofFields fun m => (m.view, m.latestPreparedProposed)

instance : LawfulBorsh RoundChangeMessage :=
  .of_fields (fun m => (m.view, m.latestPreparedProposed)) (fun (v, p) => ⟨v, p⟩)

instance : BorshDeserialize RoundChangeMessageSigned :=
  .ofFields fun (message, signature) => { message, signature }

instance : BorshFits RoundChangeMessageSigned := .ofFields fun m => (m.message, m.signature)

instance : LawfulBorsh RoundChangeMessageSigned :=
  .of_fields (fun m => (m.message, m.signature)) (fun (m, s) => ⟨m, s⟩)

instance : BorshDeserialize RoundChangeMetadata :=
  .ofFields fun (view, latestPreparedCertificate, signature) =>
    { view, latestPreparedCertificate, signature }

instance : BorshFits RoundChangeMetadata :=
  .ofFields fun m => (m.view, m.latestPreparedCertificate, m.signature)

instance : LawfulBorsh RoundChangeMetadata :=
  .of_fields (fun m => (m.view, m.latestPreparedCertificate, m.signature))
    (fun (v, c, s) => ⟨v, c, s⟩)

instance : BorshDeserialize RoundChangeCertificate :=
  .ofFields fun roundChangeMessages => { roundChangeMessages }

instance : BorshFits RoundChangeCertificate := .ofFields fun c => c.roundChangeMessages

instance : LawfulBorsh RoundChangeCertificate :=
  .of_fields (fun c => c.roundChangeMessages) (fun ms => ⟨ms⟩)

instance : BorshDeserialize ProposalMessage :=
  .ofFields fun (view, proposedBlock, proposedBlockDigest, roundChangeCertificate) =>
    { view, proposedBlock, proposedBlockDigest, roundChangeCertificate }

instance : BorshFits ProposalMessage :=
  .ofFields fun m =>
    (m.view, m.proposedBlock, m.proposedBlockDigest, m.roundChangeCertificate)

instance : LawfulBorsh ProposalMessage :=
  .of_fields
    (fun m => (m.view, m.proposedBlock, m.proposedBlockDigest, m.roundChangeCertificate))
    (fun (v, b, d, c) => ⟨v, b, d, c⟩)

instance : BorshDeserialize ProposalMessageSigned :=
  .ofFields fun (message, signature) => { message, signature }

instance : BorshFits ProposalMessageSigned := .ofFields fun m => (m.message, m.signature)

instance : LawfulBorsh ProposalMessageSigned :=
  .of_fields (fun m => (m.message, m.signature)) (fun (m, s) => ⟨m, s⟩)

instance : BorshDeserialize CommitMessage :=
  .ofFields fun (view, proposedBlockDigest, commitSeal) =>
    { view, proposedBlockDigest, commitSeal }

instance : BorshFits CommitMessage :=
  .ofFields fun m => (m.view, m.proposedBlockDigest, m.commitSeal)

instance : LawfulBorsh CommitMessage :=
  .of_fields (fun m => (m.view, m.proposedBlockDigest, m.commitSeal)) (fun (v, d, s) => ⟨v, d, s⟩)

instance : BorshDeserialize CommitMessageSigned :=
  .ofFields fun (message, signature) => { message, signature }

instance : BorshFits CommitMessageSigned := .ofFields fun m => (m.message, m.signature)

instance : LawfulBorsh CommitMessageSigned :=
  .of_fields (fun m => (m.message, m.signature)) (fun (m, s) => ⟨m, s⟩)

instance : BorshDeserialize FinalizationProof :=
  .ofFields fun (round, commitSeals) => { round, commitSeals }

instance : BorshFits FinalizationProof := .ofFields fun p => (p.round, p.commitSeals)

instance : LawfulBorsh FinalizationProof :=
  .of_fields (fun p => (p.round, p.commitSeals)) (fun (r, s) => ⟨r, s⟩)

instance : BorshDeserialize FinalizedBlock := .ofFields fun (rawBlock, proof) => { rawBlock, proof }

instance : BorshFits FinalizedBlock := .ofFields fun b => (b.rawBlock, b.proof)

instance : LawfulBorsh FinalizedBlock :=
  .of_fields (fun b => (b.rawBlock, b.proof)) (fun (b, p) => ⟨b, p⟩)

end Derived

/-! ## The two message enums -/

/-- `IBFTReceivedMessage`. -/
inductive IBFTReceivedMessage where
  | proposal (proposal : ProposalMessageSigned)
  | prepare (prepare : PrepareMessageSigned)
  | commit (commit : CommitMessageSigned)
  | roundChange (roundChange : RoundChangeMessageSigned)
  deriving DecidableEq

namespace IBFTReceivedMessage

/-- The variant index, then the content. -/
instance : BorshDeserialize IBFTReceivedMessage where
  deserializeReader
    | [] => none
    | variant :: bytes =>
      if variant = 0 then do
        let (m, bytes) ← deserializeReader bytes
        some (.proposal m, bytes)
      else if variant = 1 then do
        let (m, bytes) ← deserializeReader bytes
        some (.prepare m, bytes)
      else if variant = 2 then do
        let (m, bytes) ← deserializeReader bytes
        some (.commit m, bytes)
      else if variant = 3 then do
        let (m, bytes) ← deserializeReader bytes
        some (.roundChange m, bytes)
      else none

/-- The message of the same kind and content that its sender broadcast. -/
def broadcast : IBFTReceivedMessage → IBFTMessage
  | .proposal m => .proposal m
  | .prepare m => .prepare m
  | .commit m => .commit m
  | .roundChange m => .roundChange m

end IBFTReceivedMessage

/-- The received message of the same kind and content. -/
def IBFTMessage.received : IBFTMessage → IBFTReceivedMessage
  | .proposal m => .proposal m
  | .prepare m => .prepare m
  | .commit m => .commit m
  | .roundChange m => .roundChange m

@[simp] theorem IBFTMessage.broadcast_received (m : IBFTMessage) : m.received.broadcast = m := by
  cases m <;> rfl

@[simp] theorem IBFTReceivedMessage.received_broadcast (m : IBFTReceivedMessage) :
    m.broadcast.received = m := by
  cases m <;> rfl

instance : BorshFits IBFTMessage where
  fits
    | .proposal m => fits m
    | .prepare m => fits m
    | .commit m => fits m
    | .roundChange m => fits m

/-- A received message is encoded again by broadcasting it. -/
instance : BorshSerialize IBFTReceivedMessage where
  serialize m := serialize m.broadcast

instance : BorshFits IBFTReceivedMessage where
  fits m := fits m.broadcast

/-- The content of a variant is read after its index. -/
theorem IBFTReceivedMessage.read_variant {α : Type} [BorshSerialize α] [BorshDeserialize α]
    [BorshFits α] [LawfulBorsh α] (variant : α → IBFTReceivedMessage) {bytes rest : List UInt8}
    {m : IBFTReceivedMessage} :
    (do
      let (a, bytes) ← deserializeReader bytes
      some (variant a, bytes)) = some (m, rest) ↔
      ∃ a : α, m = variant a ∧ fits a = true ∧ bytes = serialize a ++ rest := by
  show (deserializeReader bytes).bind _ = _ ↔ _
  constructor
  · intro h
    obtain ⟨⟨a, bytes'⟩, hread, hsome⟩ := Option.bind_eq_some_iff.mp h
    obtain ⟨rfl, rfl⟩ := Prod.mk.inj (Option.some.inj hsome)
    exact ⟨a, rfl, LawfulBorsh.read_iff.mp hread⟩
  · rintro ⟨a, rfl, hfits, rfl⟩
    rw [LawfulBorsh.read_iff.mpr ⟨hfits, rfl⟩]
    rfl

instance : LawfulBorsh IBFTReceivedMessage where
  read_iff := by
    intro bytes m rest
    constructor
    · intro h
      cases bytes with
      | nil => cases h
      | cons tag bytes =>
        change (if tag = 0 then _ else if tag = 1 then _ else if tag = 2 then _
          else if tag = 3 then _ else none) = _ at h
        by_cases h0 : tag = 0
        · rw [if_pos h0] at h
          obtain ⟨a, rfl, hfits, rfl⟩ := (IBFTReceivedMessage.read_variant .proposal).mp h
          exact ⟨hfits, congrArg (· :: _) h0⟩
        rw [if_neg h0] at h
        by_cases h1 : tag = 1
        · rw [if_pos h1] at h
          obtain ⟨a, rfl, hfits, rfl⟩ := (IBFTReceivedMessage.read_variant .prepare).mp h
          exact ⟨hfits, congrArg (· :: _) h1⟩
        rw [if_neg h1] at h
        by_cases h2 : tag = 2
        · rw [if_pos h2] at h
          obtain ⟨a, rfl, hfits, rfl⟩ := (IBFTReceivedMessage.read_variant .commit).mp h
          exact ⟨hfits, congrArg (· :: _) h2⟩
        rw [if_neg h2] at h
        by_cases h3 : tag = 3
        · rw [if_pos h3] at h
          obtain ⟨a, rfl, hfits, rfl⟩ := (IBFTReceivedMessage.read_variant .roundChange).mp h
          exact ⟨hfits, congrArg (· :: _) h3⟩
        rw [if_neg h3] at h
        cases h
    · rintro ⟨hfits, rfl⟩
      cases m with
      | proposal a =>
        exact (IBFTReceivedMessage.read_variant .proposal).mpr ⟨a, rfl, hfits, rfl⟩
      | prepare a =>
        exact (IBFTReceivedMessage.read_variant .prepare).mpr ⟨a, rfl, hfits, rfl⟩
      | commit a =>
        exact (IBFTReceivedMessage.read_variant .commit).mpr ⟨a, rfl, hfits, rfl⟩
      | roundChange a =>
        exact (IBFTReceivedMessage.read_variant .roundChange).mpr ⟨a, rfl, hfits, rfl⟩
  length_pos m := by
    cases m <;> exact Nat.succ_pos _
  fits_of_length m h := by
    -- the content is one byte shorter than the message
    cases m with
    | proposal a => exact LawfulBorsh.fits_of_length a (Nat.lt_of_succ_lt h)
    | prepare a => exact LawfulBorsh.fits_of_length a (Nat.lt_of_succ_lt h)
    | commit a => exact LawfulBorsh.fits_of_length a (Nat.lt_of_succ_lt h)
    | roundChange a => exact LawfulBorsh.fits_of_length a (Nat.lt_of_succ_lt h)

/-! ## The codec -/

inductive GossipError where
  /-- `P2P message size exceeds maximum limit. size=.. limit=..`. -/
  | sizeExceedsLimit (size limit : ℕ)
  /-- An error of borsh. -/
  | borsh
  deriving DecidableEq

structure GossipCodec where
  maxMessageSize : ℕ

/-- `MAX_MESSAGE_SIZE`: 4 MB. -/
def maxMessageSize : ℕ := 1024 * 1024 * 4

namespace GossipCodec

variable {α : Type}

def verifyMessageSize (codec : GossipCodec) (size : ℕ) : Except GossipError Unit :=
  if size > codec.maxMessageSize then .error (.sizeExceedsLimit size codec.maxMessageSize)
  else .ok ()

def serialize [BorshSerialize α] [BorshFits α] (codec : GossipCodec) (value : α) :
    Except GossipError (List UInt8) :=
  match toVec value with
  | none => .error .borsh
  | some data => do
    codec.verifyMessageSize data.length
    .ok data

def deserialize [BorshDeserialize α] (codec : GossipCodec) (data : List UInt8) :
    Except GossipError α := do
  codec.verifyMessageSize data.length
  match fromSlice data with
  | none => .error .borsh
  | some value => .ok value

section Laws

variable {codec : GossipCodec}

theorem serialize_eq_ok_iff [BorshSerialize α] [BorshFits α] {value : α} {data : List UInt8} :
    codec.serialize value = .ok data ↔
      toVec value = some data ∧ data.length ≤ codec.maxMessageSize := by
  rw [serialize]
  cases toVec value with
  | none => simp
  | some data' =>
    simp only [verifyMessageSize]
    by_cases hsize : data'.length > codec.maxMessageSize
    · rw [if_pos hsize]
      constructor
      · intro h
        cases h
      · rintro ⟨hdata, hle⟩
        cases hdata
        omega
    · rw [if_neg hsize]
      constructor
      · intro h
        cases h
        exact ⟨rfl, by omega⟩
      · rintro ⟨hdata, -⟩
        cases hdata
        rfl

theorem deserialize_eq_ok_iff [BorshDeserialize α] {value : α} {data : List UInt8} :
    codec.deserialize data = .ok value ↔
      fromSlice data = some value ∧ data.length ≤ codec.maxMessageSize := by
  rw [deserialize, verifyMessageSize]
  by_cases hsize : data.length > codec.maxMessageSize
  · rw [if_pos hsize]
    constructor
    · intro h
      cases h
    · rintro ⟨-, hle⟩
      omega
  · rw [if_neg hsize]
    have hle : data.length ≤ codec.maxMessageSize := by omega
    cases (fromSlice data : Option α) with
    | none =>
      constructor
      · intro h
        cases h
      · rintro ⟨h, -⟩
        cases h
    | some value' =>
      constructor
      · intro h
        cases h
        exact ⟨rfl, hle⟩
      · rintro ⟨h, -⟩
        cases h
        rfl

/-- A value is decoded from the bytes it is encoded to, and from no others. -/
theorem deserialize_ok_iff_serialize_ok [BorshSerialize α] [BorshDeserialize α] [BorshFits α]
    [LawfulBorsh α] {value : α} {data : List UInt8} :
    codec.deserialize data = .ok value ↔ codec.serialize value = .ok data := by
  rw [deserialize_eq_ok_iff, serialize_eq_ok_iff, LawfulBorsh.fromSlice_eq_some_iff]

/-- No two byte strings are accepted as one value. -/
theorem deserialize_injective [BorshSerialize α] [BorshDeserialize α] [BorshFits α]
    [LawfulBorsh α] {value : α} {data data' : List UInt8} (h : codec.deserialize data = .ok value)
    (h' : codec.deserialize data' = .ok value) : data = data' := by
  rw [deserialize_ok_iff_serialize_ok] at h h'
  rw [h] at h'
  exact Except.ok.inj h'

/-- A value whose encoding fits a limit below `2 ^ 32` is encoded. -/
theorem serialize_of_length [BorshSerialize α] [BorshDeserialize α] [BorshFits α] [LawfulBorsh α]
    (hlimit : codec.maxMessageSize < 2 ^ 32) {value : α}
    (h : (BorshSerialize.serialize value).length ≤ codec.maxMessageSize) :
    codec.serialize value = .ok (BorshSerialize.serialize value) :=
  serialize_eq_ok_iff.mpr ⟨LawfulBorsh.toVec_of_length (by omega), h⟩

/-- Under such a limit the length decides whether a value is encoded. -/
theorem serialize_ok_iff_length [BorshSerialize α] [BorshDeserialize α] [BorshFits α]
    [LawfulBorsh α] (hlimit : codec.maxMessageSize < 2 ^ 32) {value : α} :
    (∃ data, codec.serialize value = .ok data) ↔
      (BorshSerialize.serialize value).length ≤ codec.maxMessageSize := by
  constructor
  · rintro ⟨data, hdata⟩
    obtain ⟨htoVec, hle⟩ := serialize_eq_ok_iff.mp hdata
    unfold toVec at htoVec
    split at htoVec
    · cases htoVec
      exact hle
    · cases htoVec
  · intro hle
    exact ⟨_, serialize_of_length hlimit hle⟩

end Laws

end GossipCodec

/-- `P2PServiceProxy.codec`. -/
def proxyCodec : GossipCodec := { maxMessageSize }

/-- **Round trip and canonicity.**  What is broadcast within the limit is received as the message
of the same kind and content, bytes that are accepted are the encoding of what they are accepted
as, and no message has two encodings; the same holds of finalized blocks. -/
theorem proxyCodec_roundTrip_canonical :
    (∀ m : IBFTMessage, (serialize m).length ≤ maxMessageSize →
      ∃ data, proxyCodec.serialize m = .ok data ∧ proxyCodec.deserialize data = .ok m.received) ∧
    (∀ (data : List UInt8) (m : IBFTReceivedMessage), proxyCodec.deserialize data = .ok m →
      proxyCodec.serialize m.broadcast = .ok data) ∧
    (∀ (data data' : List UInt8) (m : IBFTReceivedMessage), proxyCodec.deserialize data = .ok m →
      proxyCodec.deserialize data' = .ok m → data = data') ∧
    (∀ b : FinalizedBlock, (serialize b).length ≤ maxMessageSize →
      ∃ data, proxyCodec.serialize b = .ok data ∧ proxyCodec.deserialize data = .ok b) ∧
    (∀ (data : List UInt8) (b : FinalizedBlock), proxyCodec.deserialize data = .ok b →
      proxyCodec.serialize b = .ok data) ∧
    (∀ (data data' : List UInt8) (b : FinalizedBlock), proxyCodec.deserialize data = .ok b →
      proxyCodec.deserialize data' = .ok b → data = data') := by
  refine ⟨?_, ?_, ?_, ?_, ?_, ?_⟩
  · intro m hlength
    have hreceived : proxyCodec.serialize m.received = .ok (serialize m.received) := by
      apply GossipCodec.serialize_of_length (by decide)
      show (serialize m.received.broadcast).length ≤ maxMessageSize
      rw [IBFTMessage.broadcast_received]
      exact hlength
    refine ⟨serialize m.received, ?_, GossipCodec.deserialize_ok_iff_serialize_ok.mpr hreceived⟩
    have hsame : proxyCodec.serialize m.received = proxyCodec.serialize m.received.broadcast := rfl
    rw [← hreceived, hsame, IBFTMessage.broadcast_received]
  · intro data m haccepted
    show proxyCodec.serialize m = .ok data
    exact GossipCodec.deserialize_ok_iff_serialize_ok.mp haccepted
  · intro data data' m haccepted haccepted'
    exact GossipCodec.deserialize_injective haccepted haccepted'
  · intro b hlength
    have hencoded : proxyCodec.serialize b = .ok (serialize b) :=
      GossipCodec.serialize_of_length (by decide) hlength
    exact ⟨_, hencoded, GossipCodec.deserialize_ok_iff_serialize_ok.mpr hencoded⟩
  · intro data b haccepted
    exact GossipCodec.deserialize_ok_iff_serialize_ok.mp haccepted
  · intro data data' b haccepted haccepted'
    exact GossipCodec.deserialize_injective haccepted haccepted'

end Tonic
