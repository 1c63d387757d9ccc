/-
# Addresses, digests, signatures and the cryptography behind them

`crates/primitives`: the byte wrappers `Address` and `Signature`, the 32-byte
digests, and the functions that come from outside the repository (`sha2` and
`secp256k1`), which are taken as a parameter.  The one law the parameter carries
is the documented behaviour of a recoverable signature: recovering the signer of
a signature made with a secret key gives the address of that key.
-/
import Tonic.Borsh

namespace Tonic

/-- `Address([u8; 24])`. -/
abbrev Address := FixedBytes 24

instance (a : Address) (as : List Address) : Decidable (a ∈ as) :=
  List.instDecidableMemOfLawfulBEq a as

/-- The `[u8; 32]` of a sha256 hash. -/
abbrev Digest := FixedBytes 32

/-- `Signature([u8; 65])`. -/
abbrev Signature := FixedBytes 65

abbrev SecretKey := FixedBytes 32

/-- Sha256 and secp256k1 as the program uses them. -/
structure Crypto where
  sha256 : List UInt8 → Digest
  /-- `Address::from(secret_key.to_public_key())`. -/
  address : SecretKey → Address
  /-- `Signer::sign_prehash`. -/
  signPrehash : SecretKey → Digest → Signature
  /-- `Signature::recover_from_prehash`. -/
  recoverFromPrehash : Signature → Digest → Except String Address
  recover_sign : ∀ (key : SecretKey) (prehash : Digest),
    recoverFromPrehash (signPrehash key prehash) prehash = .ok (address key)

attribute [simp] Crypto.recover_sign

end Tonic
