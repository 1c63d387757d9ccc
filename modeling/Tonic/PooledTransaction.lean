/-
# Pooled transactions

`crates/txpool/src/transaction.rs`.  The transactions themselves and their accessors come
from outside the repository; `TransactionSignedEcRecovered` says what the pool reads of
them.  Fees are `u128`: a build with overflow checks panics where the product of a fee and
a bump does not fit, any other build wraps.
-/
import Tonic.Primitives

namespace Tonic

/-! ## Machine integers -/

abbrev U128 := BitVec 128

/-- `crypto_bigint::U256`. -/
abbrev U256 := BitVec 256

namespace U128

variable (overflowChecks : Bool)

/-- `a + b`. -/
def add (a b : U128) : Option U128 :=
  if overflowChecks ∧ 2 ^ 128 ≤ a.toNat + b.toNat then none else some (a + b)

/-- `a * b`. -/
def mul (a b : U128) : Option U128 :=
  if overflowChecks ∧ 2 ^ 128 ≤ a.toNat * b.toNat then none else some (a * b)

/-- `a - b`. -/
def sub (a b : U128) : Option U128 :=
  if overflowChecks ∧ a.toNat < b.toNat then none else some (a - b)

/-- `cmp::min(a, b)`. -/
def min (a b : U128) : U128 := if a ≤ b then a else b

end U128

namespace U256

/-- `U256::from` of a smaller integer. -/
def fromNat (n : ℕ) : U256 := BitVec.ofNat 256 n

def saturatingMul (a b : U256) : U256 :=
  if a.toNat * b.toNat < 2 ^ 256 then a * b else BitVec.allOnes 256

def saturatingAdd (a b : U256) : U256 :=
  if a.toNat + b.toNat < 2 ^ 256 then a + b else BitVec.allOnes 256

end U256

/-! ## Transactions -/

/-- The types of transactions that the pool tells apart. -/
inductive Transaction where
  | legacy (gasPrice : U128) (gasLimit : UInt64)
  | eip1559 (maxFeePerGas : U128) (gasLimit : UInt64) (maxPriorityFeePerGas : U128)
  | other

/-- A signed transaction with its signer, and the accessors of the trait `TransactionT`. -/
class TransactionSignedEcRecovered (Tx : Type) where
  signer : Tx → Address
  nonce : Tx → UInt64
  gasLimit : Tx → UInt64
  value : Tx → U256
  maxFeePerGas : Tx → U128
  maxPriorityFeePerGas : Tx → Option U128
  transaction : Tx → Transaction

export TransactionSignedEcRecovered (signer transaction)

structure TransactionId where
  sender : Address
  nonce : UInt64
  deriving DecidableEq

/-- The order of ids: by sender, bytewise, then by nonce. -/
def TransactionId.cmp (a b : TransactionId) : Ordering :=
  (compare a.sender.bytes b.sender.bytes).then (compare a.nonce b.nonce)

instance : Std.TransCmp TransactionId.cmp :=
  inferInstanceAs (Std.TransCmp (compareLex (compareOn fun id : TransactionId => id.sender.bytes)
    (compareOn fun id : TransactionId => id.nonce)))

instance : Std.LawfulEqCmp TransactionId.cmp where
  eq_of_compare {a b} h := by
    obtain ⟨hsender, hnonce⟩ := Ordering.then_eq_eq.mp h
    obtain ⟨sender, nonce⟩ := a
    obtain ⟨sender', nonce'⟩ := b
    obtain rfl : sender = sender' := FixedBytes.ext (Std.LawfulEqOrd.eq_of_compare hsender)
    obtain rfl : nonce = nonce' := Std.LawfulEqOrd.eq_of_compare hnonce
    rfl

/-- A transaction of a supported type, with its id and what it can cost its sender. -/
structure PooledTransaction (Tx : Type) [TransactionSignedEcRecovered Tx] where
  tx : Tx
  txId : TransactionId
  cost : U256
  txId_eq : txId = { sender := signer tx, nonce := TransactionSignedEcRecovered.nonce tx }
  supported : transaction tx ≠ .other

namespace PooledTransaction

variable {Tx : Type} [TransactionSignedEcRecovered Tx]

/-- The gas cost of a supported type. -/
def gasCost : Transaction → Option U256
  | .legacy gasPrice gasLimit =>
    some ((U256.fromNat gasPrice.toNat).saturatingMul (U256.fromNat gasLimit.toNat))
  | .eip1559 maxFeePerGas gasLimit _ =>
    some ((U256.fromNat maxFeePerGas.toNat).saturatingMul (U256.fromNat gasLimit.toNat))
  | .other => none

/-- `From<TransactionSignedEcRecovered>`; panics for a type that is not supported. -/
def fromRecovered (tx : Tx) : Option (PooledTransaction Tx) :=
  match h : gasCost (transaction tx) with
  | none => none
  | some gasCost =>
    some {
      tx
      txId := { sender := signer tx, nonce := TransactionSignedEcRecovered.nonce tx }
      cost := (TransactionSignedEcRecovered.value tx).saturatingAdd gasCost
      txId_eq := rfl
      supported := by
        intro hother
        rw [hother] at h
        cases h }

variable (self replacement : PooledTransaction Tx)

def id : TransactionId := self.txId

/-! The accessors of the inner transaction, through `Deref`. -/

def nonce : UInt64 := TransactionSignedEcRecovered.nonce self.tx

def gasLimit : UInt64 := TransactionSignedEcRecovered.gasLimit self.tx

def maxFeePerGas : U128 := TransactionSignedEcRecovered.maxFeePerGas self.tx

def maxPriorityFeePerGas : Option U128 := TransactionSignedEcRecovered.maxPriorityFeePerGas self.tx

/-- `fee * (100 + price_bump_percentage) / 100`. -/
def bumpedFee (overflowChecks : Bool) (fee priceBumpPercentage : U128) : Option U128 := do
  let percentage ← U128.add overflowChecks 100 priceBumpPercentage
  let product ← U128.mul overflowChecks fee percentage
  some (product / 100)

def isUnderpriced (overflowChecks : Bool) (priceBumpPercentage : U128) : Option Bool := do
  let bumped ← bumpedFee overflowChecks self.maxFeePerGas priceBumpPercentage
  if replacement.maxFeePerGas < bumped then
    return true
  match self.maxPriorityFeePerGas, replacement.maxPriorityFeePerGas with
  | some selfPriority, some replacementPriority => do
    let bumpedPriority ← bumpedFee overflowChecks selfPriority priceBumpPercentage
    return decide (replacementPriority < bumpedPriority)
  | _, _ => return false

end PooledTransaction

/-! ## Transactions that compute -/

/-- A transaction given by what the pool reads of it. -/
structure ModelTransaction where
  signer : Address
  nonce : UInt64
  value : U256
  transaction : Transaction

/-- A legacy transaction pays its gas price and has no priority fee. -/
instance : TransactionSignedEcRecovered ModelTransaction where
  signer tx := tx.signer
  nonce tx := tx.nonce
  gasLimit tx :=
    match tx.transaction with
    | .legacy _ gasLimit => gasLimit
    | .eip1559 _ gasLimit _ => gasLimit
    | .other => 0
  value tx := tx.value
  maxFeePerGas tx :=
    match tx.transaction with
    | .legacy gasPrice _ => gasPrice
    | .eip1559 maxFeePerGas _ _ => maxFeePerGas
    | .other => 0
  maxPriorityFeePerGas tx :=
    match tx.transaction with
    | .eip1559 _ _ maxPriorityFeePerGas => some maxPriorityFeePerGas
    | _ => none
  transaction tx := tx.transaction

/-- A legacy transaction of the sender with the given byte. -/
def PooledTransaction.ofLegacy (sender : UInt8) (nonce : UInt64) (gasPrice : U128) :
    PooledTransaction ModelTransaction where
  tx := {
    signer := ⟨List.replicate 24 sender, List.length_replicate⟩
    nonce
    value := 0
    transaction := .legacy gasPrice 21000 }
  txId := { sender := ⟨List.replicate 24 sender, List.length_replicate⟩, nonce }
  cost := (0 : U256).saturatingAdd
    ((U256.fromNat gasPrice.toNat).saturatingMul (U256.fromNat 21000))
  txId_eq := rfl
  supported := by
    intro h
    cases h

end Tonic
