/-
# The serde round trips of addresses and signatures

Both types are read from text as a `&str`, so a format that copies its strings is refused.
In binary formats a signature is read as a `&[u8]`, with the same restriction, and an
address as a `[u8; 24]`, which is a tuple and not the byte string that was written: a
format that puts the length of a byte string before it gives back other bytes.
-/
import Tonic.AddressSignature

namespace Tonic

open Serde

/-- An address comes back exactly from a text format that lends its string. -/
theorem roundTrips_address_iff (f : Format) (a : Address) :
    RoundTrips f a ↔ f.humanReadable = true ∧ f.Lends (.str (encode0xPrefixed a)) := by
  rw [roundTrips_iff, requestedShape, fromOutput, toOutput]
  cases hreadable : f.humanReadable with
  | true =>
    have hlength : (encode0xPrefixed a).length < 2 ^ 64 := by
      rw [length_encode0xPrefixed]
      omega
    have hrun := Deserialize.run_borrowedStr_iff (f := f) hlength
      (g := Address.fromHex) (t := a)
    have hhex : Address.fromHex (encode0xPrefixed a) = .ok a := decode0xPrefixed_encode _ a
    constructor
    · rintro ⟨-, hround⟩
      exact ⟨rfl, (hrun.mp hround).1⟩
    · rintro ⟨-, hlends⟩
      exact ⟨rfl, hrun.mpr ⟨hlends, hhex⟩⟩
  | false =>
    -- the shapes differ
    refine iff_of_false (fun h => ?_) fun h => by cases h.1
    have hshape := h.1
    cases hshape

/-- Where byte strings carry a prefix, an address is read as the prefix and what follows. -/
theorem fromOutput_address_of_prefixesLengths {f : Format} (hbinary : f.humanReadable = false)
    {lengthPrefix : ℕ → List UInt8} (hf : f.PrefixesLengths lengthPrefix) (a : Address) :
    ∃ h, fromOutput f Address (toOutput f a)
      = .ok ⟨(lengthPrefix 24 ++ a.bytes).take 24, h⟩ := by
  obtain ⟨h, hrun⟩ :=
    Deserialize.run_array_of_prefixesLengths (E := FromBytesError) hf a.length_bytes
  refine ⟨h, ?_⟩
  rw [fromOutput, toOutput, hbinary]
  exact Deserialize.run_andThen_of_run hrun _

/-- A signature is asked for in the shape in which it is written. -/
theorem requestedShape_signature (f : Format) (s : Signature) :
    requestedShape f Signature = (SerdeType.serialize f.humanReadable s).shape := by
  rw [requestedShape]
  cases f.humanReadable <;> rfl

/-- A signature with a valid recovery id is read back exactly where the format lends what was
written. -/
theorem fromOutput_signature_iff (f : Format) (s : Signature)
    (hs : Signature.recoveryId s ≤ 3) :
    fromOutput f Signature (toOutput f s) = .ok s ↔
      f.Lends (SerdeType.serialize f.humanReadable s) := by
  rw [fromOutput, toOutput]
  have hbytes : Signature.fromBytes s = .ok s := if_pos hs
  cases hreadable : f.humanReadable with
  | true =>
    have hlength : (encode0xPrefixed s).length < 2 ^ 64 := by
      rw [length_encode0xPrefixed]
      omega
    have hrun := Deserialize.run_borrowedStr_iff (f := f) hlength
      (g := Signature.fromHex) (t := s)
    have hhex : Signature.fromHex (encode0xPrefixed s) = .ok s := by
      rw [Signature.fromHex, decode0xPrefixed_encode]
      exact hbytes
    exact ⟨fun hround => (hrun.mp hround).1, fun hlends => hrun.mpr ⟨hlends, hhex⟩⟩
  | false =>
    have hlength : s.bytes.length < 2 ^ 64 := by
      rw [s.length_bytes]
      omega
    have hrun := Deserialize.run_borrowedBytes_iff hreadable hlength
      (g := Signature.fromSlice) (t := s)
    have hslice : Signature.fromSlice s.bytes = .ok s := by
      rw [Signature.fromSlice, tryFromSlice_bytes]
      exact hbytes
    exact ⟨fun hround => (hrun.mp hround).1, fun hlends => hrun.mpr ⟨hlends, hslice⟩⟩

/-- **When addresses and signatures come back**: an address exactly from a text format that lends
its string, a signature exactly from a format that lends what was written. -/
theorem serdeRoundTrips_iff (f : Format) (a : Address) (s : Signature)
    (hs : Signature.recoveryId s ≤ 3) :
    (RoundTrips f a ↔ f.humanReadable = true ∧ f.Lends (.str (encode0xPrefixed a))) ∧
      (RoundTrips f s ↔ f.Lends (SerdeType.serialize f.humanReadable s)) :=
  ⟨roundTrips_address_iff f a, roundTrips_iff.trans
    ((and_iff_right (requestedShape_signature f s)).trans (fromOutput_signature_iff f s hs))⟩

/-- The values of the tests. -/
def testAddress : Address := ⟨List.replicate 24 10, List.length_replicate⟩

def testSignature : Signature := ⟨List.replicate 65 1, List.length_replicate⟩

/-- From a tree that lends its strings both come back. -/
theorem serdeRoundTrips_tree :
    RoundTrips (valueTree true) testAddress ∧ RoundTrips (valueTree true) testSignature := by
  obtain ⟨haddress, hsignature⟩ :=
    serdeRoundTrips_iff (valueTree true) testAddress testSignature (by decide)
  exact ⟨haddress.mpr ⟨rfl, rfl⟩, hsignature.mpr rfl⟩

/-- A tree that gives its strings away is refused, and a compact binary format gives back another
address. -/
theorem not_serdeRoundTrips :
    (¬ RoundTrips (valueTree false) testAddress ∧ ¬ RoundTrips (valueTree false) testSignature) ∧
      fromOutput (compact true) Address (toOutput (compact true) testAddress)
        ≠ .ok testAddress := by
  refine ⟨⟨fun h => ?_, fun h => ?_⟩, fun h => ?_⟩
  · cases h.round_trip
  · cases h.round_trip
  · cases h

end Tonic
