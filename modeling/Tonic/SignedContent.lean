/-
# What a signature covers

Every signature of the program is made over a sha256 hash; `SignedContent` is what
was hashed: the arguments of one of the five digest functions of `types.rs`.  The
hashed bytes of two contents are equal only if the contents are equal.  For the
tagged kinds this is read off the first byte; the untagged block preimage, which a
commit seal covers, is told apart by its length prefix and its total length.
-/
import Tonic.Types

namespace Tonic

open ByteEncoding

inductive SignedContent where
  | proposal (view : View) (proposedBlockDigest : Digest)
  | prepare (view : View) (proposedBlockDigest : Digest)
  | commit (view : View) (proposedBlockDigest : Digest) (commitSeal : Signature)
  | roundChange (view : View) (latestPreparedCertificate : Option PreparedCertificate)
  | block (rawBlock : RawBlock) (round : UInt8)
  deriving DecidableEq

/-- The bytes that are hashed. -/
def SignedContent.preimage : SignedContent → List UInt8
  | .proposal view d => proposalPreimage view d
  | .prepare view d => preparePreimage view d
  | .commit view d commitSeal => commitPreimage view d commitSeal
  | .roundChange view certificate => roundChangePreimage view certificate
  | .block rawBlock round => blockPreimage rawBlock round

def SignedContent.digest (c : Crypto) (content : SignedContent) : Digest :=
  c.sha256 content.preimage

/-! ## Fields can be read back -/

instance : SelfDelimiting View :=
  .of_fields (fun v => (v.height, v.round)) (fun a b h => by cases a; cases b; cases h; rfl)
    (fun _ => rfl)

instance : SelfDelimiting ProposalMetadata :=
  .of_fields (fun m => (m.view, m.proposedBlockDigest, m.signature))
    (fun a b h => by cases a; cases b; cases h; rfl) (fun _ => rfl)

instance : SelfDelimiting PrepareMessage :=
  .of_fields (fun m => (m.view, m.proposedBlockDigest))
    (fun a b h => by cases a; cases b; cases h; rfl) (fun _ => rfl)

instance : SelfDelimiting PrepareMessageSigned :=
  .of_fields (fun m => (m.message, m.signature)) (fun a b h => by cases a; cases b; cases h; rfl)
    (fun _ => rfl)

/-! ## Lengths -/

section Lengths

@[simp] theorem length_serialize_uint8 (b : UInt8) : (serialize b).length = 1 := rfl

@[simp] theorem length_serialize_uint64 (n : UInt64) : (serialize n).length = 8 :=
  length_leBytes 8 _

@[simp] theorem length_serialize_fixedBytes {n : ℕ} (a : FixedBytes n) :
    (serialize a).length = n := a.length_bytes

@[simp] theorem length_serialize_prod {α β : Type} [BorshSerialize α] [BorshSerialize β]
    (p : α × β) : (serialize p).length = (serialize p.1).length + (serialize p.2).length :=
  List.length_append

@[simp] theorem length_serialize_messageType (t : MessageType) : (serialize t).length = 1 := by
  cases t <;> rfl

@[simp] theorem length_serialize_view (v : View) : (serialize v).length = 9 := by
  change (serialize (v.height, v.round)).length = 9
  simp

@[simp] theorem length_serialize_proposalMetadata (m : ProposalMetadata) :
    (serialize m).length = 106 := by
  change (serialize (m.view, m.proposedBlockDigest, m.signature)).length = 106
  simp

@[simp] theorem length_serialize_prepareMessage (m : PrepareMessage) :
    (serialize m).length = 41 := by
  change (serialize (m.view, m.proposedBlockDigest)).length = 41
  simp

@[simp] theorem length_serialize_prepareMessageSigned (m : PrepareMessageSigned) :
    (serialize m).length = 106 := by
  change (serialize (m.message, m.signature)).length = 106
  simp

@[simp] theorem length_serialize_preparedCertificate (c : PreparedCertificate) :
    (serialize c).length = 110 + 106 * c.prepareMessages.length := by
  change (serialize (c.proposalMeta, c.prepareMessages)).length = _
  rw [length_serialize_prod, length_serialize_proposalMetadata,
    length_serialize_list length_serialize_prepareMessageSigned]
  simp only
  omega

theorem length_proposalPreimage (v : View) (d : Digest) : (proposalPreimage v d).length = 42 := by
  simp [proposalPreimage]

theorem length_preparePreimage (v : View) (d : Digest) : (preparePreimage v d).length = 42 := by
  simp [preparePreimage]

theorem length_commitPreimage (v : View) (d : Digest) (s : Signature) :
    (commitPreimage v d s).length = 107 := by
  simp [commitPreimage]

/-- A round change preimage is 11 bytes long, or 121 and 106 for each prepare. -/
theorem length_roundChangePreimage (v : View) (c : Option PreparedCertificate) :
    (roundChangePreimage v c).length =
      match c with
      | none => 11
      | some c => 121 + 106 * c.prepareMessages.length := by
  cases c with
  | none => simp [roundChangePreimage, serialize_none]
  | some c =>
    simp only [roundChangePreimage, length_serialize_prod, length_serialize_messageType,
      length_serialize_view, serialize_some, List.length_cons,
      length_serialize_preparedCertificate]
    omega

theorem length_blockPreimage (b : RawBlock) (r : UInt8) :
    (blockPreimage b r).length = b.length + 5 := by
  rw [blockPreimage, length_serialize_prod, length_serialize_bytes, length_serialize_uint8]

end Lengths

/-! ## Contents are determined by their preimages -/

theorem proposalPreimage_inj {v w : View} {d e : Digest}
    (h : proposalPreimage v d = proposalPreimage w e) : v = w ∧ d = e := by
  have hfields := SelfDelimiting.serialize_injective (α := View × Digest) (List.cons.inj h).2
  exact Prod.mk.inj hfields

theorem preparePreimage_inj {v w : View} {d e : Digest}
    (h : preparePreimage v d = preparePreimage w e) : v = w ∧ d = e := by
  have hfields := SelfDelimiting.serialize_injective (α := View × Digest) (List.cons.inj h).2
  exact Prod.mk.inj hfields

theorem commitPreimage_inj {v w : View} {d e : Digest} {s t : Signature}
    (h : commitPreimage v d s = commitPreimage w e t) : v = w ∧ d = e ∧ s = t := by
  have hfields :=
    SelfDelimiting.serialize_injective (α := View × Digest × Signature) (List.cons.inj h).2
  obtain ⟨hv, hrest⟩ := Prod.mk.inj hfields
  exact ⟨hv, Prod.mk.inj hrest⟩

theorem serialize_preparedCertificate_inj {c c' : PreparedCertificate}
    (h : serialize c = serialize c') : c = c' := by
  obtain ⟨hmeta, hprepares⟩ := SelfDelimiting.append_inj (α := ProposalMetadata) h
  have hlist := serialize_list_inj (by decide) length_serialize_prepareMessageSigned
    SelfDelimiting.serialize_injective hprepares
  cases c
  cases c'
  simp only at hmeta hlist
  rw [hmeta, hlist]

theorem roundChangePreimage_inj {v w : View} {c c' : Option PreparedCertificate}
    (h : roundChangePreimage v c = roundChangePreimage w c') : v = w ∧ c = c' := by
  obtain ⟨hv, hopt⟩ := SelfDelimiting.append_inj (α := View) (List.cons.inj h).2
  refine ⟨hv, ?_⟩
  cases c with
  | none =>
    cases c' with
    | none => rfl
    | some c' => exact absurd (List.cons.inj hopt).1 (by decide)
  | some c =>
    cases c' with
    | none => exact absurd (List.cons.inj hopt).1 (by decide)
    | some c' => rw [serialize_preparedCertificate_inj (List.cons.inj hopt).2]

/-- The length prefix may wrap around; the total length still gives the length of the block. -/
theorem blockPreimage_inj {b b' : RawBlock} {r r' : UInt8}
    (h : blockPreimage b r = blockPreimage b' r') : b = b' ∧ r = r' := by
  have hlen := congrArg List.length h
  rw [length_blockPreimage, length_blockPreimage] at hlen
  rw [blockPreimage, blockPreimage, serialize_prod, serialize_prod, serialize_bytes,
    serialize_bytes, List.append_assoc, List.append_assoc] at h
  obtain ⟨-, hrest⟩ := append_left_inj (by simp) h
  obtain ⟨hb, hr⟩ := append_left_inj (by simp only at hlen ⊢; omega) hrest
  exact ⟨hb, (List.cons.inj hr).1⟩

/-- The first byte of a tagged preimage. -/
def MessageType.tag : MessageType → ℕ
  | .proposal => 0
  | .prepare => 1
  | .commit => 2
  | .roundChange => 3

/-- A block preimage starts with the length of the block, so it equals a tagged string of the
same total length only if that length ends in the byte of the tag. -/
theorem blockPreimage_ne_tagged {b : RawBlock} {r : UInt8} {t : MessageType} {s : List UInt8}
    (h : blockPreimage b r = serialize t ++ s) :
    b.length % 256 = t.tag ∧ b.length + 4 = s.length := by
  have hlen := congrArg List.length h
  rw [length_blockPreimage, List.length_append, length_serialize_messageType] at hlen
  refine ⟨?_, by omega⟩
  rw [blockPreimage, serialize_prod, serialize_bytes] at h
  have hhead : UInt8.ofNat b.length = UInt8.ofNat t.tag := by
    cases t <;> exact (List.cons.inj h).1
  rw [uint8_ofNat_eq_iff] at hhead
  cases t <;> simpa [MessageType.tag] using hhead

/-- **Domain separation**: a preimage determines the kind of its content and all its fields. -/
theorem SignedContent.preimage_injective : Function.Injective SignedContent.preimage := by
  have hblock : ∀ (b : RawBlock) (r : UInt8) (content : SignedContent),
      blockPreimage b r = content.preimage → content = .block b r := by
    intro b r content h
    cases content with
    | proposal v d =>
      obtain ⟨htag, hlen⟩ := blockPreimage_ne_tagged (t := .proposal) h
      simp [MessageType.tag] at htag hlen
      omega
    | prepare v d =>
      obtain ⟨htag, hlen⟩ := blockPreimage_ne_tagged (t := .prepare) h
      simp [MessageType.tag] at htag hlen
      omega
    | commit v d s =>
      obtain ⟨htag, hlen⟩ := blockPreimage_ne_tagged (t := .commit) h
      simp [MessageType.tag] at htag hlen
      omega
    | roundChange v c =>
      obtain ⟨htag, -⟩ := blockPreimage_ne_tagged (t := .roundChange) h
      have hlen := congrArg List.length h
      rw [length_blockPreimage] at hlen
      change _ = (roundChangePreimage v c).length at hlen
      rw [length_roundChangePreimage] at hlen
      cases c <;> simp only [MessageType.tag] at htag hlen <;> omega
    | block b' r' =>
      obtain ⟨rfl, rfl⟩ := blockPreimage_inj h
      rfl
  intro x y h
  cases x with
  | block b r => exact (hblock b r y h).symm
  | proposal v d =>
    cases y with
    | proposal w e =>
      obtain ⟨rfl, rfl⟩ := proposalPreimage_inj h
      rfl
    | block b r => exact hblock b r _ h.symm
    | prepare | commit | roundChange => exact absurd (List.cons.inj h).1 (by decide)
  | prepare v d =>
    cases y with
    | prepare w e =>
      obtain ⟨rfl, rfl⟩ := preparePreimage_inj h
      rfl
    | block b r => exact hblock b r _ h.symm
    | proposal | commit | roundChange => exact absurd (List.cons.inj h).1 (by decide)
  | commit v d s =>
    cases y with
    | commit w e t =>
      obtain ⟨rfl, rfl, rfl⟩ := commitPreimage_inj h
      rfl
    | block b r => exact hblock b r _ h.symm
    | proposal | prepare | roundChange => exact absurd (List.cons.inj h).1 (by decide)
  | roundChange v c =>
    cases y with
    | roundChange w e =>
      obtain ⟨rfl, rfl⟩ := roundChangePreimage_inj h
      rfl
    | block b r => exact hblock b r _ h.symm
    | proposal | prepare | commit => exact absurd (List.cons.inj h).1 (by decide)

end Tonic
