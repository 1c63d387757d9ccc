/-
# The decoders of a signature

A signature is made in six ways: `from_bytes`, `from_slice`, `from_parts`, `from_hex`, the
serde implementation and the derived borsh decoder, through which every signature of a
consensus message comes.  All but the last go through `from_bytes` and its check of the
recovery id.
-/
import Tonic.GossipCodec
import Tonic.SerdeRoundTrip

namespace Tonic

open Serde

/-- What the type documents of its decoders. -/
def expectedSignature (bytes : FixedBytes 65) : Option Signature :=
  if Signature.recoveryId bytes ≤ 3 then some bytes else none

/-- The first 64 bytes. -/
def rawSignature (bytes : FixedBytes 65) : FixedBytes 64 := ⟨bytes.bytes.take 64, by simp⟩

/-- All decoders accept the bytes under the condition of the type and give the same value; so what
is decoded has the invariant, and every other decoder takes it. -/
structure DecodersAgree (f : Format) (bytes : FixedBytes 65) : Prop where
  from_bytes : (Signature.fromBytes bytes).toOption = expectedSignature bytes
  from_slice : (Signature.fromSlice bytes.bytes).toOption = expectedSignature bytes
  from_parts : (Signature.fromParts (rawSignature bytes)
    (Signature.recoveryId bytes)).toOption = expectedSignature bytes
  from_hex : (Signature.fromHex (encode0xPrefixed bytes)).toOption = expectedSignature bytes
  serde : (fromOutput f Signature (toOutput f bytes)).toOption = expectedSignature bytes
  borsh : fromSlice bytes.bytes = expectedSignature bytes
  redecodes : ∀ s : Signature, fromSlice bytes.bytes = some s →
    Signature.recoveryId s ≤ 3 ∧ Signature.fromBytes s = .ok s

/-- The derived decoder takes any 65 bytes. -/
theorem fromSlice_signature (s : Signature) : fromSlice s.bytes = some s :=
  LawfulBorsh.fromSlice_eq_some_iff.mpr (if_pos rfl)

/-- The parts of the bytes are the bytes. -/
theorem fromParts_rawSignature (bytes : FixedBytes 65) :
    Signature.fromParts (rawSignature bytes) (Signature.recoveryId bytes)
      = Signature.fromBytes bytes := by
  have hlength := bytes.length_bytes
  have hlt : 64 < bytes.bytes.length := by omega
  have hparts : bytes.bytes.take 64 ++ [Signature.recoveryId bytes] = bytes.bytes := by
    have hget : Signature.recoveryId bytes = bytes.bytes[64] := rfl
    rw [hget, List.take_append_getElem hlt]
    exact List.take_of_length_le (by omega)
  rw [Signature.fromParts]
  exact congrArg Signature.fromBytes (FixedBytes.ext hparts)

/-- The decoders that are written by hand check the recovery id. -/
theorem toOption_fromBytes (bytes : FixedBytes 65) :
    (Signature.fromBytes bytes).toOption = expectedSignature bytes := by
  unfold Signature.fromBytes expectedSignature
  split <;> rfl

/-- **When the decoders of a signature agree**: exactly on a valid recovery id, read by serde from
a format that lends what was written. -/
theorem decodersAgree_iff (f : Format) (bytes : FixedBytes 65) :
    DecodersAgree f bytes ↔ Signature.recoveryId bytes ≤ 3 ∧
      f.Lends (SerdeType.serialize f.humanReadable (bytes : Signature)) := by
  constructor
  · intro h
    have hborsh := h.borsh
    rw [fromSlice_signature bytes, expectedSignature] at hborsh
    split at hborsh
    next hid =>
      refine ⟨hid, ?_⟩
      have hserde := h.serde
      rw [expectedSignature, if_pos hid] at hserde
      have hround : fromOutput f Signature (toOutput f bytes) = .ok bytes := by
        cases hout : fromOutput f Signature (toOutput f bytes) with
        | error e =>
          rw [hout] at hserde
          cases hserde
        | ok s =>
          rw [hout] at hserde
          exact congrArg Except.ok (Option.some.inj hserde)
      exact (fromOutput_signature_iff f bytes hid).mp hround
    next => cases hborsh
  · rintro ⟨hid, hlends⟩
    have hbytes : Signature.fromBytes bytes = .ok bytes := if_pos hid
    have hexpected : expectedSignature bytes = some bytes := if_pos hid
    exact {
      from_bytes := toOption_fromBytes bytes
      from_slice := by
        rw [Signature.fromSlice, tryFromSlice_bytes]
        exact toOption_fromBytes bytes
      from_parts := by
        rw [fromParts_rawSignature]
        exact toOption_fromBytes bytes
      from_hex := by
        rw [Signature.fromHex, decode0xPrefixed_encode]
        exact toOption_fromBytes bytes
      serde := by
        rw [(fromOutput_signature_iff f bytes hid).mpr hlends, hexpected]
        rfl
      borsh := (fromSlice_signature bytes).trans hexpected.symm
      redecodes := by
        intro s hs
        rw [fromSlice_signature] at hs
        cases hs
        exact ⟨hid, hbytes⟩ }

/-- A prepare message whose signature has the recovery id 255. -/
def invalidPrepare : PrepareMessageSigned where
  message := {
    view := { height := 1, round := 0 }
    proposedBlockDigest := ⟨List.replicate 32 7, List.length_replicate⟩ }
  signature := ⟨List.replicate 65 255, List.length_replicate⟩

/-- The message is decoded, and no other decoder takes its signature. -/
theorem not_decodersAgree_invalid :
    fromSlice (serialize invalidPrepare) = some invalidPrepare ∧
      Signature.fromBytes invalidPrepare.signature = .error (.invalidRecoveryId 255) ∧
      ¬ DecodersAgree (valueTree true) invalidPrepare.signature := by
  refine ⟨LawfulBorsh.fromSlice_eq_some_iff.mpr (if_pos rfl), rfl, fun h => ?_⟩
  have hborsh := h.borsh
  rw [fromSlice_signature] at hborsh
  cases hborsh

end Tonic
