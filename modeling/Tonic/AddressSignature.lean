/-
# Addresses and signatures outside of messages

`crates/primitives/src/address.rs` and `signature.rs`: construction from slices and from
hexadecimal text, and the hand-written serde implementations.  Both types write a string
to text formats and a byte string to binary ones; what they ask for when they are read is
another matter.
-/
import Tonic.BorshDecode
import Tonic.Hex
import Tonic.Primitives
import Tonic.SerdeModel

namespace Tonic

open Serde

/-- The errors of the constructors. -/
inductive FromBytesError where
  | missingPrefix (message : String)
  | hex (error : Hex.FromHexError)
  /-- `TryFromSliceError`. -/
  | sliceLength
  | invalidRecoveryId (v : UInt8)
  deriving DecidableEq

/-! ## Hexadecimal text -/

/-- `0x`, then two digits for each byte. -/
def encode0xPrefixed {n : ℕ} (a : FixedBytes n) : List UInt8 := 48 :: 120 :: Hex.encode a.bytes

/-- Reads the text of `n` bytes. -/
def decode0xPrefixed (n : ℕ) (message : String) (s : List UInt8) :
    Except FromBytesError (FixedBytes n) :=
  if s.take 2 ≠ [48, 120] then .error (.missingPrefix message)
  else
    match h : Hex.decodeToSlice n (s.drop 2) with
    | .error e => .error (.hex e)
    | .ok bytes => .ok ⟨bytes, Hex.length_decodeToSlice h⟩

theorem decode0xPrefixed_encode {n : ℕ} (message : String) (a : FixedBytes n) :
    decode0xPrefixed n message (encode0xPrefixed a) = .ok a := by
  have hdecode := Hex.decodeToSlice_encode a.length_bytes
  unfold decode0xPrefixed
  rw [if_neg (by simp [encode0xPrefixed])]
  split
  next e h =>
    rw [show (encode0xPrefixed a).drop 2 = Hex.encode a.bytes from rfl, hdecode] at h
    cases h
  next bytes h =>
    rw [show (encode0xPrefixed a).drop 2 = Hex.encode a.bytes from rfl, hdecode] at h
    cases h
    rfl

theorem length_encode0xPrefixed {n : ℕ} (a : FixedBytes n) :
    (encode0xPrefixed a).length = 2 * n + 2 := by
  simp [encode0xPrefixed]

/-- `slice.try_into()`. -/
def tryFromSlice (n : ℕ) (slice : List UInt8) : Except FromBytesError (FixedBytes n) :=
  if h : slice.length = n then .ok ⟨slice, h⟩ else .error .sliceLength

theorem tryFromSlice_bytes {n : ℕ} (a : FixedBytes n) : tryFromSlice n a.bytes = .ok a :=
  dif_pos a.length_bytes

/-! ## Addresses -/

namespace Address

def fromSlice (slice : List UInt8) : Except FromBytesError Address := tryFromSlice 24 slice

def fromHex (s : List UInt8) : Except FromBytesError Address :=
  decode0xPrefixed 24 "Address must have 0x-prefix" s

end Address

instance : SerdeType Address where
  Err := FromBytesError
  serialize
    | true, a => .str (encode0xPrefixed a)
    | false, a => .bytes a.bytes
  deserialize
    | true => Deserialize.borrowedStr.andThen Address.fromHex
    | false => (Deserialize.array 24).andThen fun bytes => .ok ⟨bytes.1, bytes.2⟩

/-! ## Signatures -/

namespace Signature

/-- The last of the 65 bytes. -/
def recoveryId (s : FixedBytes 65) : UInt8 :=
  s.bytes.get ⟨64, by rw [s.length_bytes]; decide⟩

def fromBytes (bytes : FixedBytes 65) : Except FromBytesError Signature :=
  if recoveryId bytes ≤ 3 then .ok bytes else .error (.invalidRecoveryId (recoveryId bytes))

def fromParts (signature : FixedBytes 64) (recid : UInt8) : Except FromBytesError Signature :=
  fromBytes ⟨signature.bytes ++ [recid], by simp⟩

def fromSlice (slice : List UInt8) : Except FromBytesError Signature :=
  match tryFromSlice 65 slice with
  | .error e => .error e
  | .ok bytes => fromBytes bytes

def fromHex (s : List UInt8) : Except FromBytesError Signature :=
  match decode0xPrefixed 65 "Signature must have 0x-prefix" s with
  | .error e => .error e
  | .ok bytes => fromBytes bytes

end Signature

instance : SerdeType Signature where
  Err := FromBytesError
  serialize
    | true, s => .str (encode0xPrefixed s)
    | false, s => .bytes s.bytes
  deserialize
    | true => Deserialize.borrowedStr.andThen Signature.fromHex
    | false => Deserialize.borrowedBytes.andThen Signature.fromSlice

end Tonic
