/-
# The pool as a ledger of accepted transactions

What `all_txs` has is determined by the accepted transactions alone: under every id the
last one with it.  Read per id, the accepted transactions form a chain in which each one
has passed the comparison with the one that it replaced, so where the bump of the least
fee is worth a unit, the fees of a chain rise and no transaction is accepted twice.
-/
import Tonic.PriceBump

namespace Tonic

open Transition

/-! ## Calls without overflow -/

section NoOverflow

variable {Tx : Type} [TransactionSignedEcRecovered Tx]

/-- An answer of the comparison with overflow checks is its answer without. -/
theorem PooledTransaction.isUnderpriced_of_checked {existing replacement : PooledTransaction Tx}
    {bump : U128} {underpriced : Bool} (overflowChecks : Bool)
    (h : existing.isUnderpriced replacement true bump = some underpriced) :
    existing.isUnderpriced replacement overflowChecks bump = some underpriced := by
  obtain ⟨answer, hanswer, hiff⟩ := (bumpFits_of_isUnderpriced h).isUnderpriced overflowChecks
  obtain ⟨answer', hanswer', hiff'⟩ := (bumpFits_of_isUnderpriced h).isUnderpriced true
  rw [h] at hanswer'
  obtain rfl := Option.some.inj hanswer'
  rw [hanswer]
  -- Both answers are `false` exactly for what passes.
  cases answer <;> cases underpriced <;> simp_all

/-- So is the answer of `all_txs`. -/
theorem AllTransactions.addTransaction_of_checked {all : AllTransactions Tx}
    {tx : PooledTransaction Tx} {onChainNonce : UInt64} {onChainBalance : U256}
    {answer : Except AddTransactionError (AddTransactionOk Tx) × AllTransactions Tx}
    (overflowChecks : Bool)
    (h : all.addTransaction true tx onChainNonce onChainBalance = some answer) :
    all.addTransaction overflowChecks tx onChainNonce onChainBalance = some answer := by
  unfold addTransaction at h ⊢
  split at h
  next herror => rw [← h]
  next =>
    split at h
    next => rw [← h]
    next =>
      split at h
      next => rw [← h]
      next existing _ =>
        obtain ⟨underpriced, hunderpriced, h⟩ := Option.bind_eq_some_iff.mp h
        rw [PooledTransaction.isUnderpriced_of_checked overflowChecks hunderpriced]
        exact h

end NoOverflow

variable {Tx : Type} [TransactionSignedEcRecovered Tx] {overflowChecks : Bool}

/-! ## What `all_txs` accepts -/

/-- A transaction that `all_txs` accepts has passed its checks. -/
theorem AllTransactions.checks_of_addTransaction {all all' : AllTransactions Tx}
    {tx : PooledTransaction Tx} {onChainNonce : UInt64} {onChainBalance : U256}
    {ok : AddTransactionOk Tx}
    (h : all.addTransaction overflowChecks tx onChainNonce onChainBalance = some (.ok ok, all')) :
    all.config.minProtocolBasefee ≤ tx.maxFeePerGas ∧
      tx.gasLimit ≤ all.config.blockGasLimit := by
  unfold addTransaction at h
  split at h
  · cases h
  next hvalid =>
    unfold validateTx at hvalid
    split at hvalid
    · cases hvalid
    next hfee =>
      split at hvalid
      · cases hvalid
      next hgas => exact ⟨BitVec.not_lt.mp hfee, UInt64.not_lt.mp hgas⟩

/-- The subpools leave `all_txs` alone. -/
theorem TransactionPool.allTxs_of_applyOk {pool pool' : TransactionPool Tx}
    {ok : AddTransactionOk Tx} (h : pool.applyOk overflowChecks ok = some pool') :
    pool'.allTxs = pool.allTxs := by
  have hadd : ∀ {pool pool' : TransactionPool Tx},
      pool.addTransactionToSubpool overflowChecks ok.tx ok.subpool = some pool' →
        pool'.allTxs = pool.allTxs := by
    intro pool pool' h
    unfold addTransactionToSubpool at h
    split at h
    · obtain ⟨pendingPool, -, h⟩ := Option.bind_eq_some_iff.mp h
      cases h
      rfl
    · cases h
    · cases h
  unfold applyOk at h
  split at h
  next replacedTx replacedSubpool _ =>
    obtain ⟨removed, hremove, h⟩ := Option.bind_eq_some_iff.mp h
    rw [hadd h]
    unfold removeTransactionFromSubpool at hremove
    split at hremove
    · obtain ⟨pendingPool, -, hremove⟩ := Option.bind_eq_some_iff.mp hremove
      cases hremove
      rfl
    · cases hremove
    · cases hremove
  next => exact hadd h

/-! ## The ledger -/

namespace PoolHistory

/-- The accepted transactions with the id, oldest first. -/
def acceptedWith (h : PoolHistory Tx) (id : TransactionId) : List (PooledTransaction Tx) :=
  h.accepted.filter fun tx => tx.id = id

/-- What the accepted transactions say of `all_txs`. -/
structure Ledger (config : TxPoolConfig) (h : PoolHistory Tx) : Prop where
  config_eq : h.pool.allTxs.config = config
  /-- Under an id is the last accepted transaction with it, and it is pending. -/
  last : ∀ id : TransactionId, h.pool.allTxs.txs[id]? =
    (h.acceptedWith id).getLast?.map fun tx => (tx, .pending)
  valid : ∀ tx ∈ h.accepted, config.minProtocolBasefee ≤ tx.maxFeePerGas ∧
    tx.gasLimit ≤ config.blockGasLimit
  /-- Each of them has at least the bumped fees, cut down, of the one before. -/
  passes : ∀ id : TransactionId, (h.acceptedWith id).IsChain fun existing replacement =>
    PooledTransaction.Passes existing replacement config.priceBumpPercentage

variable {config : TxPoolConfig} {h h' : PoolHistory Tx}

theorem ledger_new (config : TxPoolConfig) : (new config : PoolHistory Tx).Ledger config where
  config_eq := rfl
  last _ := Std.ExtTreeMap.getElem?_empty
  valid _ htx := absurd htx List.not_mem_nil
  passes _ := List.isChain_nil

/-- A step leaves the ledger alone, or enters an accepted transaction into it. -/
theorem cases_of_step {call : PoolCall Tx} (hcall : h.rejectedOrPending true call = true)
    (hstep : h.step overflowChecks call = some h') :
    (h'.pool.allTxs = h.pool.allTxs ∧ h'.accepted = h.accepted) ∨
      h'.accepted = h.accepted ++ [call.tx] ∧
        h'.pool.allTxs = { h.pool.allTxs with
          txs := h.pool.allTxs.txs.insert call.tx.id (call.tx, .pending) } ∧
        ∃ ok all', h.pool.allTxs.addTransaction true call.tx call.onChainNonce
          call.onChainBalance = some (.ok ok, all') := by
  unfold rejectedOrPending at hcall
  cases hanswer : h.pool.allTxs.addTransaction true call.tx call.onChainNonce
      call.onChainBalance with
  | none =>
    rw [hanswer] at hcall
    cases hcall
  | some answer =>
    obtain ⟨result, allTxs⟩ := answer
    obtain ⟨⟨outcome, pool⟩, hadd, hstep⟩ := Option.bind_eq_some_iff.mp hstep
    unfold TransactionPool.addTransaction at hadd
    simp only at hadd
    -- `all_txs` answers the same without overflow checks.
    rw [AllTransactions.addTransaction_of_checked overflowChecks hanswer, Option.bind_eq_bind,
      Option.bind_some] at hadd
    rcases AllTransactions.addTransaction_cases hanswer with
      ⟨error, rfl, rfl⟩ | ⟨subpool, rfl, rfl⟩
    · left
      cases hadd
      cases hstep
      exact ⟨rfl, rfl⟩
    · right
      rw [hanswer] at hcall
      obtain rfl : subpool = .pending := of_decide_eq_true hcall
      obtain ⟨applied, happly, hadd⟩ := Option.bind_eq_some_iff.mp hadd
      have hall := TransactionPool.allTxs_of_applyOk happly
      cases hadd
      cases hstep
      exact ⟨rfl, hall, _, _, rfl⟩

/-- Steps keep the ledger. -/
theorem Ledger.step {call : PoolCall Tx} (hledger : h.Ledger config)
    (hcall : h.rejectedOrPending true call = true)
    (hstep : h.step overflowChecks call = some h') : h'.Ledger config := by
  rcases cases_of_step hcall hstep with ⟨hall, haccepted⟩ | ⟨haccepted, hall, ok, all', hanswer⟩
  · obtain ⟨hconfig, hlast, hvalid, hpasses⟩ := hledger
    constructor
    · rw [hall, hconfig]
    · intro id
      rw [hall, acceptedWith, haccepted]
      exact hlast id
    · rw [haccepted]
      exact hvalid
    · intro id
      rw [acceptedWith, haccepted]
      exact hpasses id
  · have hwith : ∀ id : TransactionId, h'.acceptedWith id =
        h.acceptedWith id ++ if call.tx.id = id then [call.tx] else [] := by
      intro id
      rw [acceptedWith, haccepted, List.filter_append, acceptedWith]
      congr 1
      by_cases hid : call.tx.id = id <;> simp [hid]
    constructor
    · rw [hall]
      exact hledger.config_eq
    · intro id
      rw [hall, hwith id]
      simp only
      rw [Std.ExtTreeMap.getElem?_insert]
      by_cases hid : call.tx.id = id
      · rw [if_pos hid, if_pos (by rw [hid]; exact Std.ReflCmp.compare_self),
          List.getLast?_concat]
        rfl
      · rw [if_neg hid, if_neg (fun heq => hid (Std.LawfulEqCmp.eq_of_compare heq)),
          List.append_nil]
        exact hledger.last id
    · intro tx htx
      rw [haccepted] at htx
      rcases List.mem_append.mp htx with htx | htx
      · exact hledger.valid tx htx
      · rw [List.mem_singleton.mp htx, ← hledger.config_eq]
        exact AllTransactions.checks_of_addTransaction hanswer
    · intro id
      rw [hwith id]
      by_cases hid : call.tx.id = id
      · rw [if_pos hid, List.isChain_append]
        refine ⟨hledger.passes id, List.isChain_singleton _, ?_⟩
        intro existing hexisting replacement hreplacement
        obtain rfl : call.tx = replacement := Option.some.inj hreplacement
        -- The last one with the id is what the transaction is compared with.
        have htxs := hledger.last id
        rw [hexisting] at htxs
        have hreplaces : h.pool.allTxs.Replaces true existing call.tx :=
          ⟨⟨.pending, by rw [hid, htxs]; rfl⟩, _, _, ok, all', hanswer⟩
        have hfalse := hreplaces.not_underpriced
        rw [hledger.config_eq] at hfalse
        obtain ⟨answer, hcompare, hiff⟩ :=
          (PooledTransaction.bumpFits_of_isUnderpriced hfalse).isUnderpriced true
        rw [hfalse] at hcompare
        exact hiff.mp (Option.some.inj hcompare).symm
      · rw [if_neg hid, List.append_nil]
        exact hledger.passes id

theorem ledger_of_reachable
    (hreach : ReachableWithin (PoolHistory.step overflowChecks)
      (fun h call => h.rejectedOrPending true call = true) (new config) h) :
    h.Ledger config := by
  induction hreach with
  | refl => exact ledger_new config
  | tail _ hcall hstep ih => exact ih.step hcall hstep

/-! ## Rising fees -/

/-- Where the bump of the least fee is worth a unit, what passes has a greater fee. -/
theorem lt_of_passes {existing replacement : PooledTransaction Tx}
    (hbump : 100 ≤ config.minProtocolBasefee.toNat * config.priceBumpPercentage.toNat)
    (hvalid : config.minProtocolBasefee ≤ existing.maxFeePerGas)
    (h : PooledTransaction.Passes existing replacement config.priceBumpPercentage) :
    existing.maxFeePerGas < replacement.maxFeePerGas := by
  have hfee := h.maxFee
  have hunit : 100 ≤ existing.maxFeePerGas.toNat * config.priceBumpPercentage.toNat :=
    hbump.trans (Nat.mul_le_mul_right _ hvalid)
  rw [BitVec.lt_def]
  rw [bumpedHundredths, Nat.mul_add] at hfee
  omega

theorem Ledger.rising (hledger : h.Ledger config)
    (hbump : 100 ≤ config.minProtocolBasefee.toNat * config.priceBumpPercentage.toNat) :
    h.accepted.Pairwise fun earlier later =>
      earlier.id = later.id → earlier.maxFeePerGas < later.maxFeePerGas := by
  have hchain : ∀ id : TransactionId, (h.acceptedWith id).Pairwise fun earlier later =>
      earlier.maxFeePerGas < later.maxFeePerGas := by
    intro id
    have hlt : (h.acceptedWith id).IsChain fun earlier later =>
        earlier.maxFeePerGas < later.maxFeePerGas := by
      refine (hledger.passes id).imp_of_mem_imp ?_
      intro existing replacement hexisting _ hpasses
      have hmem := (List.mem_filter.mp hexisting).1
      exact lt_of_passes hbump (hledger.valid existing hmem).1 hpasses
    rw [← List.isChain_map PooledTransaction.maxFeePerGas] at hlt
    exact List.pairwise_map.mp hlt.pairwise
  rw [List.pairwise_iff_forall_sublist]
  intro earlier later hsub hid
  have hpair := List.pairwise_filter.mp (hchain later.id)
  exact List.pairwise_iff_forall_sublist.mp hpair hsub (by simpa using hid) (by simp)

end PoolHistory

/-- **The pool is the ledger of what it has accepted**: in every run of calls that `all_txs`
rejects or classifies as pending, in which no fee overflows, `all_txs` has under every id the last
accepted transaction with it, all accepted ones meet the configuration, and each one has passed
the comparison with the one before; so if the bump of the least fee is worth a unit, the fees of
one id rise. -/
theorem pool_ledger (overflowChecks : Bool) (config : TxPoolConfig) {h : PoolHistory Tx}
    (hreach : ReachableWithin (PoolHistory.step overflowChecks)
      (fun h call => h.rejectedOrPending true call = true) (.new config) h) :
    h.Ledger config ∧
      (100 ≤ config.minProtocolBasefee.toNat * config.priceBumpPercentage.toNat →
        h.accepted.Pairwise fun earlier later =>
          earlier.id = later.id → earlier.maxFeePerGas < later.maxFeePerGas) :=
  ⟨PoolHistory.ledger_of_reachable hreach,
    fun hbump => (PoolHistory.ledger_of_reachable hreach).rising hbump⟩

theorem pool_ledger_model :
    modelHistory.accepted.length = 3 ∧ modelHistory.Ledger modelTxPoolConfig ∧
      modelHistory.accepted.Pairwise fun earlier later =>
        earlier.id = later.id → earlier.maxFeePerGas < later.maxFeePerGas :=
  have hledger := pool_ledger true modelTxPoolConfig (h := modelHistory)
    (reachableWithin_get (by decide +kernel) _)
  ⟨by decide +kernel, hledger.1, hledger.2 (by decide)⟩

end Tonic
