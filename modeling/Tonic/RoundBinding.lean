/-
# The round inside a proposed block

A proposal names its round twice: in its view and inside its block.  The digest of the
block is made with the one inside, certificates are compared under the one of the view.
The honest constructor sets both to the same round, and no check of a verify function
compares them.  So a node binds the rounds of what it accepts, signs and finalizes as
long as it is given no acceptable proposal that the constructor does not build.
-/
import Tonic.StoreSoundness
import Tonic.Reproposal

namespace Tonic

open Transition

variable (cfg : Config)

/-! ## The condition and the property -/

/-- `ProposalMessage::new` builds the proposal for its view. -/
def Composed (c : Crypto) (p : ProposalMessageSigned) : Prop :=
  ∃ rawBlock rcc, p.message = ProposalMessage.new c p.view rawBlock rcc

variable {cfg} {n : Node} {p : ProposalMessageSigned} {c : Crypto}

/-- The constructor sets both rounds and the digest. -/
theorem composed_iff :
    Composed c p ↔ p.proposedBlock.round = p.view.round ∧ p.verifyBlockDigest c = true := by
  constructor
  · rintro ⟨rawBlock, rcc, hnew⟩
    have hdigest : p.message.verifyBlockDigest c = true := by
      rw [hnew]
      exact decide_eq_true rfl
    refine ⟨?_, hdigest⟩
    show p.message.proposedBlock.round = p.view.round
    rw [hnew]
    rfl
  · rintro ⟨hround, hdigest⟩
    refine ⟨p.proposedBlock.rawBlock, p.roundChangeCertificate, ?_⟩
    obtain ⟨⟨view, ⟨rawBlock, round⟩, digest, rcc⟩, signature⟩ := p
    obtain rfl : round = view.round := hround
    have hd : digestBlock c rawBlock view.round = digest := of_decide_eq_true hdigest
    subst hd
    rfl

theorem Composed.digest_eq (h : Composed c p) :
    p.proposedBlockDigest = digestBlock c p.proposedBlock.rawBlock p.view.round := by
  obtain ⟨hround, hdigest⟩ := composed_iff.mp h
  rw [← hround]
  exact (of_decide_eq_true hdigest).symm

end Tonic
