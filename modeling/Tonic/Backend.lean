/-
# What the consensus code is given

`crates/consensus/poa/src/backend.rs` and `lib.rs`: the validator manager, the
block service and the signer of an engine.  The validator manager and the keys
stay as they are for the life of an engine (`Config`).  What the block service
answers, and in which order a `HashMap` hands out its entries, may differ from
call to call, so it is part of the environment of a single step (`Env`).
-/
import Tonic.Types

namespace Tonic

/-- The highest round a height may reach. -/
def maxRound : UInt8 := 21

/-- Length of the arrays indexed by a round. -/
def roundArraySize : ℕ := 22

theorem toNat_maxRound : maxRound.toNat + 1 = roundArraySize := rfl

structure ValidatorManager where
  isValidator : Address → UInt64 → Bool
  isProposer : Address → View → Bool
  quorum : UInt64 → ℕ

/-- The crypto, the validator manager and the signer of an engine. -/
structure Config where
  crypto : Crypto
  validatorManager : ValidatorManager
  key : SecretKey

/-- `signer.address()`. -/
def Config.address (cfg : Config) : Address := cfg.crypto.address cfg.key

/-- The answers a single step gets from outside. -/
structure Env where
  /-- `BlockService::build_block`. -/
  buildBlock : UInt64 → Except String RawBlock
  /-- `BlockService::verify_block`. -/
  verifyBlock : RawBlock → Except String Unit
  /-- The iteration order of a `HashMap`: entries come out by ascending rank of their key. -/
  hashRank : Address → ℕ

/-- `HashMap::into_values`, in the order of the environment. -/
def Env.intoValues {T : Type} (env : Env) (entries : List (Address × T)) : List T :=
  (entries.insertionSort (fun a b => env.hashRank a.1 ≤ env.hashRank b.1)).map Prod.snd

theorem Env.intoValues_perm {T : Type} (env : Env) (entries : List (Address × T)) :
    (env.intoValues entries).Perm (entries.map Prod.snd) :=
  (List.perm_insertionSort _ entries).map Prod.snd

@[simp] theorem Env.length_intoValues {T : Type} (env : Env) (entries : List (Address × T)) :
    (env.intoValues entries).length = entries.length := by
  rw [(env.intoValues_perm entries).length_eq, List.length_map]

theorem Env.mem_intoValues {T : Type} {env : Env} {entries : List (Address × T)} {t : T} :
    t ∈ env.intoValues entries ↔ ∃ a, (a, t) ∈ entries := by
  rw [(env.intoValues_perm entries).mem_iff]
  simp

end Tonic
