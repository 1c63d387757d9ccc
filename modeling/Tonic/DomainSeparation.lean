/-
# The preimages as the program builds them

Three of the digest functions of `types.rs` hash a buffer of fixed size that
`codec::serialize_to` writes into; the other two hash a growing vector.  The buffers
are filled to the last byte and never overflow, so what is hashed is the preimage,
and a signature made for one content verifies for no other content.
-/
import Tonic.SignedContent
import Tonic.ModelCrypto

namespace Tonic

open ByteEncoding

/-- `codec::serialize_to` on a buffer of `size` bytes: what was written and how many bytes of
the buffer are left, or nothing where the writer runs out of room. -/
def serializeTo {α : Type} [BorshSerialize α] (item : α) (size : ℕ) : Option (List UInt8 × ℕ) :=
  if (serialize item).length ≤ size then
    some (serialize item, size - (serialize item).length)
  else none

/-- `PROPOSAL_SIZE`. -/
def proposalSize : ℕ := 1 + 9 + 32

/-- `PREPARE_SIZE`. -/
def prepareSize : ℕ := 1 + 9 + 32

/-- `COMMIT_SIZE`. -/
def commitSize : ℕ := 1 + 9 + 32 + 65

/-- What the digest function of the content writes, and what is left of its buffer. -/
def SignedContent.written : SignedContent → Option (List UInt8 × ℕ)
  | .proposal view d => serializeTo (MessageType.proposal, view, d) proposalSize
  | .prepare view d => serializeTo (MessageType.prepare, view, d) prepareSize
  | .commit view d commitSeal => serializeTo (MessageType.commit, view, d, commitSeal) commitSize
  | .roundChange view certificate => some (roundChangePreimage view certificate, 0)
  | .block rawBlock round => some (blockPreimage rawBlock round, 0)

theorem serializeTo_of_length {α : Type} [BorshSerialize α] {item : α} {size : ℕ}
    (h : (serialize item).length = size) : serializeTo item size = some (serialize item, 0) := by
  rw [serializeTo, if_pos h.le, h, Nat.sub_self]

/-- The buffers are filled exactly. -/
theorem SignedContent.written_eq (content : SignedContent) :
    content.written = some (content.preimage, 0) := by
  cases content with
  | proposal view d => exact serializeTo_of_length (length_proposalPreimage view d)
  | prepare view d => exact serializeTo_of_length (length_preparePreimage view d)
  | commit view d commitSeal => exact serializeTo_of_length (length_commitPreimage view d commitSeal)
  | roundChange view certificate => rfl
  | block rawBlock round => rfl

/-- A signature made with `key` for `prehash` verifies for no other hash. -/
def Crypto.Binds (c : Crypto) (key : SecretKey) (prehash : Digest) : Prop :=
  ∀ other, c.recoverFromPrehash (c.signPrehash key prehash) other = .ok (c.address key) →
    other = prehash

/-- Two contents hash to one value only if they have the same preimage. -/
def SignedContent.NoCollision (c : Crypto) (x y : SignedContent) : Prop :=
  x.digest c = y.digest c → x.preimage = y.preimage

/-- **Preimages never collide.**  The hashed bytes determine the digest function and all of its
arguments, each buffer is filled exactly, and a signature verifies for the signed content
only. -/
theorem SignedContent.separated :
    Function.Injective SignedContent.preimage ∧
      (∀ content : SignedContent, content.written = some (content.preimage, 0)) ∧
      ∀ (c : Crypto) (key : SecretKey) (signed other : SignedContent),
        c.Binds key (signed.digest c) → SignedContent.NoCollision c signed other →
        c.recoverFromPrehash (c.signPrehash key (signed.digest c)) (other.digest c)
          = .ok (c.address key) → other = signed := by
  refine ⟨SignedContent.preimage_injective, SignedContent.written_eq, ?_⟩
  intro c key signed other hbinds hfree hverifies
  have hdigest : other.digest c = signed.digest c := hbinds _ hverifies
  exact (SignedContent.preimage_injective (hfree hdigest.symm)).symm

/-- The signatures of the model crypto carry the hash they were made for. -/
theorem modelCrypto_binds (key : SecretKey) (prehash : Digest) :
    modelCrypto.Binds key prehash := by
  intro other h
  have h24 : (key.bytes.take 24).length = 24 := by simp
  have hdigest : ((modelCrypto.signPrehash key prehash).bytes.drop 24).take 32
      = prehash.bytes := by
    show ((key.bytes.take 24 ++ prehash.bytes ++ List.replicate 9 0).drop 24).take 32 = _
    rw [List.append_assoc, List.drop_left' h24, List.take_left' prehash.length_bytes]
  by_contra hne
  have hbytes : ¬ prehash.bytes = other.bytes := fun heq => hne (FixedBytes.ext heq.symm)
  simp only [modelCrypto] at h hdigest
  rw [hdigest, if_neg hbytes] at h
  cases h

/-- A signed prepare does not verify as the seal of a block. -/
theorem SignedContent.separated_prepare :
    modelCrypto.recoverFromPrehash
        (modelCrypto.signPrehash (modelKey 0)
          (digestPrepare modelCrypto ⟨1, 0⟩ ⟨List.replicate 32 0, rfl⟩))
        (digestBlock modelCrypto [7] 0) ≠ .ok (modelAddress 0) := by
  intro h
  exact nomatch SignedContent.separated.2.2 modelCrypto (modelKey 0)
    (.prepare ⟨1, 0⟩ ⟨List.replicate 32 0, rfl⟩) (.block [7] 0) (modelCrypto_binds _ _)
    (fun heq => absurd heq (by decide +kernel)) h

end Tonic
