/-
# The transaction pool

`crates/txpool`: `PendingPool`, `AllTransactions` and the `TransactionPool` over them.  A call
that panics (an assertion, an unimplemented parked pool, an overflow where a build checks for
it) gives `none`; a rejected one gives its error and the pool as it leaves it.
-/
import Tonic.PooledTransaction

namespace Tonic

/-! ## Pending transactions -/

structure PendingTransaction (Tx : Type) [TransactionSignedEcRecovered Tx] where
  submissionId : UInt64
  tx : PooledTransaction Tx
  /-- The higher the better. -/
  priority : U128

section

variable {Tx : Type} [TransactionSignedEcRecovered Tx]

namespace PendingTransaction

def id (pending : PendingTransaction Tx) : TransactionId := pending.tx.id

/-- By priority; of the same priority, the older submission is the greater one. -/
def cmp (a b : PendingTransaction Tx) : Ordering :=
  (compare a.priority.toNat b.priority.toNat).then (compare b.submissionId a.submissionId)

instance : Std.TransCmp (cmp : PendingTransaction Tx → PendingTransaction Tx → Ordering) :=
  inferInstanceAs (Std.TransCmp (compareLex
    (compareOn fun pending : PendingTransaction Tx => pending.priority.toNat)
    (fun a b => compareOn (fun pending : PendingTransaction Tx => pending.submissionId) b a)))

end PendingTransaction

end

structure PendingPool (Tx : Type) [TransactionSignedEcRecovered Tx] where
  submissionId : UInt64
  byId : Std.ExtTreeMap TransactionId (PendingTransaction Tx) TransactionId.cmp
  all : Std.ExtTreeSet (PendingTransaction Tx) PendingTransaction.cmp

namespace PendingPool

variable {Tx : Type} [TransactionSignedEcRecovered Tx]

def new : PendingPool Tx where
  submissionId := 0
  byId := ∅
  all := ∅

/-- The tip that a transaction pays over the base fee; panics where it does not pay the base
fee. -/
def priorityByTip (overflowChecks : Bool) (tx : PooledTransaction Tx) (baseFee : U128) :
    Option U128 :=
  if tx.maxFeePerGas < baseFee then none
  else
    match transaction tx.tx with
    | .legacy gasPrice _ => U128.sub overflowChecks gasPrice baseFee
    | .eip1559 maxFeePerGas _ maxPriorityFeePerGas => do
      let tip ← U128.sub overflowChecks maxFeePerGas baseFee
      some (U128.min tip maxPriorityFeePerGas)
    | .other => none

def nextSubmissionId (pool : PendingPool Tx) : UInt64 × PendingPool Tx :=
  (pool.submissionId, { pool with submissionId := pool.submissionId + 1 })

def contains (pool : PendingPool Tx) (txId : TransactionId) : Bool := pool.byId.contains txId

/-- Panics where the pool has a transaction with the id. -/
def addTransaction (overflowChecks : Bool) (pool : PendingPool Tx) (tx : PooledTransaction Tx)
    (baseFee : U128) : Option (PendingPool Tx) :=
  if pool.contains tx.id then none
  else do
    let (submissionId, pool) := pool.nextSubmissionId
    let priority ← priorityByTip overflowChecks tx baseFee
    let pendingTx : PendingTransaction Tx := { submissionId, tx, priority }
    some { pool with
      byId := pool.byId.insert pendingTx.id pendingTx
      all := pool.all.insert pendingTx }

/-- Panics where the pool has no transaction with the id. -/
def removeTransaction (pool : PendingPool Tx) (txId : TransactionId) : Option (PendingPool Tx) := do
  let removedTx ← pool.byId[txId]?
  some { pool with
    byId := pool.byId.erase txId
    all := pool.all.erase removedTx }

end PendingPool

/-! ## All transactions -/

structure TxPoolConfig where
  minProtocolBasefee : U128
  blockGasLimit : UInt64
  priceBumpPercentage : U128

inductive Subpool where
  | pending
  | queued
  | basefee
  deriving DecidableEq

inductive AddTransactionError where
  | feeBelowMinimumProtocolFee
  | gasLimitExceedsBlockGasLimit
  | nonceTooLow
  | replacementTxUnderpriced
  deriving DecidableEq

inductive TransactionPoolError where
  | addTransactionError (error : AddTransactionError)
  deriving DecidableEq

structure AddTransactionOk (Tx : Type) [TransactionSignedEcRecovered Tx] where
  tx : PooledTransaction Tx
  subpool : Subpool
  replacedTx : Option (PooledTransaction Tx × Subpool)

structure AllTransactions (Tx : Type) [TransactionSignedEcRecovered Tx] where
  config : TxPoolConfig
  txs : Std.ExtTreeMap TransactionId (PooledTransaction Tx × Subpool) TransactionId.cmp
  basefee : U128

namespace AllTransactions

variable {Tx : Type} [TransactionSignedEcRecovered Tx]

def new (config : TxPoolConfig) : AllTransactions Tx where
  config
  txs := ∅
  basefee := 0

def validateTx (all : AllTransactions Tx) (tx : PooledTransaction Tx) :
    Except AddTransactionError Unit :=
  if tx.maxFeePerGas < all.config.minProtocolBasefee then .error .feeBelowMinimumProtocolFee
  else if all.config.blockGasLimit < tx.gasLimit then .error .gasLimitExceedsBlockGasLimit
  else .ok ()

/-- The subpool of a transaction, from its nonce, its cost and its fee. -/
def subpoolOf (all : AllTransactions Tx) (tx : PooledTransaction Tx) (onChainNonce : UInt64)
    (onChainBalance : U256) : Except AddTransactionError Subpool :=
  match compare tx.nonce onChainNonce with
  | .eq =>
    if tx.cost ≤ onChainBalance then
      if all.basefee ≤ tx.maxFeePerGas then .ok .pending else .ok .basefee
    else .ok .queued
  | .gt => .ok .queued
  | .lt => .error .nonceTooLow

def addTransaction (overflowChecks : Bool) (all : AllTransactions Tx) (tx : PooledTransaction Tx)
    (onChainNonce : UInt64) (onChainBalance : U256) :
    Option (Except AddTransactionError (AddTransactionOk Tx) × AllTransactions Tx) :=
  match all.validateTx tx with
  | .error error => some (.error error, all)
  | .ok () =>
    match all.subpoolOf tx onChainNonce onChainBalance with
    | .error error => some (.error error, all)
    | .ok subpool =>
      match all.txs[tx.id]? with
      | none =>
        some (.ok { tx, subpool, replacedTx := none },
          { all with txs := all.txs.insert tx.id (tx, subpool) })
      | some existingTx => do
        let underpriced ←
          existingTx.1.isUnderpriced tx overflowChecks all.config.priceBumpPercentage
        if underpriced then
          some (.error .replacementTxUnderpriced, all)
        else
          some (.ok { tx, subpool, replacedTx := some existingTx },
            { all with txs := all.txs.insert tx.id (tx, subpool) })

end AllTransactions

/-! ## The pool -/

structure AccountInfo where
  nonce : UInt64
  balance : U256

structure TransactionPool (Tx : Type) [TransactionSignedEcRecovered Tx] where
  pendingPool : PendingPool Tx
  allTxs : AllTransactions Tx
  accountInfo : Address → Option AccountInfo

namespace TransactionPool

variable {Tx : Type} [TransactionSignedEcRecovered Tx]

def new (config : TxPoolConfig) : TransactionPool Tx where
  pendingPool := .new
  allTxs := .new config
  accountInfo := fun _ => none

/-- The parked pools are not implemented. -/
def addTransactionToSubpool (overflowChecks : Bool) (pool : TransactionPool Tx)
    (tx : PooledTransaction Tx) : Subpool → Option (TransactionPool Tx)
  | .pending => do
    let pendingPool ← pool.pendingPool.addTransaction overflowChecks tx pool.allTxs.basefee
    some { pool with pendingPool }
  | .queued => none
  | .basefee => none

def removeTransactionFromSubpool (pool : TransactionPool Tx) (txId : TransactionId) :
    Subpool → Option (TransactionPool Tx)
  | .pending => do
    let pendingPool ← pool.pendingPool.removeTransaction txId
    some { pool with pendingPool }
  | .queued => none
  | .basefee => none

/-- What the pool does with the answer of `all_txs`. -/
def applyOk (overflowChecks : Bool) (pool : TransactionPool Tx) (ok : AddTransactionOk Tx) :
    Option (TransactionPool Tx) :=
  match ok.replacedTx with
  | some (replacedTx, replacedSubpool) => do
    let pool ← pool.removeTransactionFromSubpool replacedTx.id replacedSubpool
    pool.addTransactionToSubpool overflowChecks ok.tx ok.subpool
  | none => pool.addTransactionToSubpool overflowChecks ok.tx ok.subpool

def addTransaction (overflowChecks : Bool) (pool : TransactionPool Tx) (tx : PooledTransaction Tx)
    (onChainNonce : UInt64) (onChainBalance : U256) :
    Option (Except TransactionPoolError Unit × TransactionPool Tx) := do
  let info : AccountInfo := { nonce := onChainNonce, balance := onChainBalance }
  let accountInfo := Function.update pool.accountInfo (signer tx.tx) (some info)
  let pool := { pool with accountInfo }
  let (result, allTxs) ←
    pool.allTxs.addTransaction overflowChecks tx onChainNonce onChainBalance
  let pool := { pool with allTxs }
  match result with
  | .error error => some (.error (.addTransactionError error), pool)
  | .ok ok => do
    let pool ← pool.applyOk overflowChecks ok
    some (.ok (), pool)

end TransactionPool

end Tonic
