/-
# The indexes of the pool stay consistent

The pool keeps a pending transaction three times: in `all_txs` and in `by_id` under its id,
and in `all` under its priority and submission number.  A history of the pool records the
accepted transactions, oldest first; the submission number of a pending transaction is its
place there, so two of them differ in the order of `all`, and insertions and removals reach
the same transaction in every index.
-/
import Tonic.OrderedIndex
import Tonic.Transition
import Tonic.TransactionPool

namespace Tonic

open OrderedIndex Transition

variable {Tx : Type} [TransactionSignedEcRecovered Tx] {overflowChecks : Bool}

/-! ## What the operations do -/

theorem U128.sub_zero (a : U128) : U128.sub overflowChecks a 0 = some a := by
  have hlt : ¬ (overflowChecks = true ∧ a.toNat < (0 : U128).toNat) := by simp
  rw [U128.sub, if_neg hlt]
  simp

theorem PendingTransaction.cmp_eq_lt_iff {a b : PendingTransaction Tx} :
    PendingTransaction.cmp a b = .lt ↔ a.priority < b.priority ∨
      (a.priority = b.priority ∧ b.submissionId < a.submissionId) := by
  rw [PendingTransaction.cmp, Ordering.then_eq_lt, UInt64.compare_eq_toNat_compare_toNat,
    compare_lt_iff_lt, compare_eq_iff_eq, compare_lt_iff_lt, BitVec.lt_def, BitVec.toNat_inj,
    UInt64.lt_iff_toNat_lt]

theorem PendingTransaction.submissionId_eq_of_cmp {a b : PendingTransaction Tx}
    (h : PendingTransaction.cmp a b = .eq) : a.submissionId = b.submissionId := by
  obtain ⟨-, hsubmission⟩ := Ordering.then_eq_eq.mp h
  exact (Std.LawfulEqOrd.eq_of_compare hsubmission).symm

/-- Without a base fee every supported transaction has a tip. -/
theorem PendingPool.exists_priorityByTip (overflowChecks : Bool) (tx : PooledTransaction Tx) :
    ∃ priority, priorityByTip overflowChecks tx 0 = some priority := by
  have hfee : ¬ tx.maxFeePerGas < (0 : U128) := by simp [BitVec.lt_def]
  have hsupported := tx.supported
  unfold priorityByTip
  rw [if_neg hfee]
  cases htx : transaction tx.tx with
  | legacy gasPrice gasLimit => exact ⟨_, U128.sub_zero gasPrice⟩
  | eip1559 maxFee gasLimit maxPriorityFee =>
    refine ⟨U128.min maxFee maxPriorityFee, ?_⟩
    show (U128.sub overflowChecks maxFee 0).bind _ = _
    rw [U128.sub_zero]
    rfl
  | other => exact absurd htx hsupported

/-- An answer of `all_txs`: an error that changes nothing, or the transaction with a subpool, put
in the place of what was there under its id. -/
theorem AllTransactions.addTransaction_cases {all all' : AllTransactions Tx}
    {tx : PooledTransaction Tx} {onChainNonce : UInt64} {onChainBalance : U256}
    {result : Except AddTransactionError (AddTransactionOk Tx)}
    (h : all.addTransaction overflowChecks tx onChainNonce onChainBalance = some (result, all')) :
    (∃ error, result = .error error ∧ all' = all) ∨
      ∃ subpool, result = .ok { tx, subpool, replacedTx := all.txs[tx.id]? } ∧
        all' = { all with txs := all.txs.insert tx.id (tx, subpool) } := by
  unfold addTransaction at h
  split at h
  next error _ =>
    cases h
    exact Or.inl ⟨error, rfl, rfl⟩
  next =>
    split at h
    next error _ =>
      cases h
      exact Or.inl ⟨error, rfl, rfl⟩
    next subpool _ =>
      split at h
      next hvacant =>
        cases h
        exact Or.inr ⟨subpool, by rw [hvacant], rfl⟩
      next existingTx hoccupied =>
        obtain ⟨underpriced, -, h⟩ := Option.bind_eq_some_iff.mp h
        split at h
        · cases h
          exact Or.inl ⟨_, rfl, rfl⟩
        · cases h
          exact Or.inr ⟨subpool, by rw [hoccupied], rfl⟩

/-! ## The pending pool -/

namespace PendingPool

/-- The two indexes agree, and each pending transaction has the place of its submission number
among the accepted ones. -/
structure Holds (overflowChecks : Bool) (pool : PendingPool Tx)
    (accepted : List (PooledTransaction Tx)) : Prop where
  indexes : Indexes PendingTransaction.id pool.byId pool.all
  counter : pool.submissionId = UInt64.ofNat accepted.length
  entry : ∀ (id : TransactionId) (p : PendingTransaction Tx), pool.byId[id]? = some p →
    accepted[p.submissionId.toNat]? = some p.tx ∧
      priorityByTip overflowChecks p.tx 0 = some p.priority

variable {pool : PendingPool Tx} {accepted : List (PooledTransaction Tx)}

theorem holds_new : (new : PendingPool Tx).Holds overflowChecks [] where
  indexes := .empty
  counter := rfl
  entry id p hp := by
    rw [show (new : PendingPool Tx).byId = ∅ from rfl, Std.ExtTreeMap.getElem?_empty] at hp
    cases hp

/-- Pending transactions with one submission number are one. -/
theorem Holds.eq_of_submissionId (h : pool.Holds overflowChecks accepted) {id id' : TransactionId}
    {p q : PendingTransaction Tx} (hp : pool.byId[id]? = some p) (hq : pool.byId[id']? = some q)
    (hsubmission : p.submissionId = q.submissionId) : q = p := by
  have hptx := (h.entry id p hp).1
  rw [hsubmission, (h.entry id' q hq).1] at hptx
  have htx : q.tx = p.tx := Option.some.inj hptx
  have hid : id' = id := by
    rw [← h.indexes.key_eq id' q hq, ← h.indexes.key_eq id p hp]
    exact congrArg PooledTransaction.id htx
  rw [hid, hp] at hq
  exact (Option.some.inj hq).symm

/-- A transaction whose id is not pending is added to both indexes, as the newest one. -/
theorem Holds.addTransaction (h : pool.Holds overflowChecks accepted)
    (hcount : accepted.length < 2 ^ 64) {tx : PooledTransaction Tx}
    (hvacant : pool.byId[tx.id]? = none) :
    ∃ p pool', pool.addTransaction overflowChecks tx 0 = some pool' ∧ p.tx = tx ∧
      pool'.byId = pool.byId.insert tx.id p ∧ pool'.Holds overflowChecks (accepted ++ [tx]) := by
  obtain ⟨priority, hpriority⟩ := exists_priorityByTip overflowChecks tx
  let p : PendingTransaction Tx := { submissionId := pool.submissionId, tx, priority }
  have hcontains : pool.contains tx.id = false := by
    rw [contains, Std.ExtTreeMap.contains_eq_isSome_getElem?, hvacant]
    rfl
  have hadd : pool.addTransaction overflowChecks tx 0 = some {
      submissionId := pool.submissionId + 1
      byId := pool.byId.insert p.id p
      all := pool.all.insert p } := by
    unfold PendingPool.addTransaction
    rw [hcontains, if_neg Bool.false_ne_true]
    show (priorityByTip overflowChecks tx 0).bind _ = _
    rw [hpriority]
    rfl
  have hnumber : p.submissionId.toNat = accepted.length := by
    show pool.submissionId.toNat = _
    rw [h.counter, UInt64.toNat_ofNat', Nat.mod_eq_of_lt hcount]
  refine ⟨p, _, hadd, rfl, rfl, ?_, ?_, ?_⟩
  · refine h.indexes.insert hvacant ?_
    -- the pending transactions have the numbers below
    intro id q hq hcmp
    have hsubmission := PendingTransaction.submissionId_eq_of_cmp hcmp
    have hq' := (h.entry id q hq).1
    rw [← hsubmission, hnumber, List.getElem?_eq_none le_rfl] at hq'
    cases hq'
  · rw [h.counter, List.length_append, List.length_singleton, UInt64.ofNat_add]
    rfl
  · intro id q hq
    rw [Std.ExtTreeMap.getElem?_insert] at hq
    split at hq
    next =>
      cases hq
      rw [hnumber]
      exact ⟨List.getElem?_concat_length, hpriority⟩
    next =>
      obtain ⟨htx, hq⟩ := h.entry id q hq
      have hlt := (List.getElem?_eq_some_iff.mp htx).1
      exact ⟨by rw [List.getElem?_append_left hlt, htx], hq⟩

/-- A pending transaction is removed from both indexes. -/
theorem Holds.removeTransaction (h : pool.Holds overflowChecks accepted) {id : TransactionId}
    {p : PendingTransaction Tx} (hp : pool.byId[id]? = some p) :
    ∃ pool', pool.removeTransaction id = some pool' ∧ pool'.byId = pool.byId.erase id ∧
      pool'.Holds overflowChecks accepted := by
  have hid : p.id = id := h.indexes.key_eq id p hp
  have hremove : pool.removeTransaction id = some { pool with
      byId := pool.byId.erase id
      all := pool.all.erase p } := by
    rw [PendingPool.removeTransaction, hp]
    rfl
  refine ⟨_, hremove, rfl, ?_, h.counter, ?_⟩
  · subst hid
    refine h.indexes.erase hp ?_
    intro id' q hq hcmp
    exact h.eq_of_submissionId hp hq (PendingTransaction.submissionId_eq_of_cmp hcmp)
  · intro id' q hq
    rw [Std.ExtTreeMap.getElem?_erase] at hq
    split at hq
    · cases hq
    · exact h.entry id' q hq

end PendingPool

/-! ## Histories -/

/-- A call of `add_transaction`. -/
structure PoolCall (Tx : Type) [TransactionSignedEcRecovered Tx] where
  tx : PooledTransaction Tx
  onChainNonce : UInt64
  onChainBalance : U256

/-- A pool with the transactions it has accepted, oldest first. -/
structure PoolHistory (Tx : Type) [TransactionSignedEcRecovered Tx] where
  pool : TransactionPool Tx
  accepted : List (PooledTransaction Tx)

namespace PoolHistory

def new (config : TxPoolConfig) : PoolHistory Tx := ⟨.new config, []⟩

/-- A call of the pool, refused where it panics. -/
def step (overflowChecks : Bool) (h : PoolHistory Tx) (call : PoolCall Tx) :
    Option (PoolHistory Tx) := do
  let (result, pool) ←
    h.pool.addTransaction overflowChecks call.tx call.onChainNonce call.onChainBalance
  match result with
  | .ok () => some { pool, accepted := h.accepted ++ [call.tx] }
  | .error _ => some { pool, accepted := h.accepted }

/-- No fee overflows, and `all_txs` rejects the transaction or classifies it as pending. -/
def rejectedOrPending (overflowChecks : Bool) (h : PoolHistory Tx) (call : PoolCall Tx) : Bool :=
  match h.pool.allTxs.addTransaction overflowChecks call.tx call.onChainNonce
    call.onChainBalance with
  | none => false
  | some (.error _, _) => true
  | some (.ok ok, _) => ok.subpool = .pending

variable {h h' : PoolHistory Tx}

/-- What holds between the indexes of the pool and the accepted transactions. -/
structure Inv (overflowChecks : Bool) (h : PoolHistory Tx) : Prop where
  basefee : h.pool.allTxs.basefee = 0
  pending : h.pool.pendingPool.Holds overflowChecks h.accepted
  allPending : ∀ (id : TransactionId) (tx : PooledTransaction Tx) (subpool : Subpool),
    h.pool.allTxs.txs[id]? = some (tx, subpool) → subpool = .pending
  tracked : ∀ (id : TransactionId) (tx : PooledTransaction Tx),
    h.pool.allTxs.txs[id]? = some (tx, .pending) ↔
      ∃ p : PendingTransaction Tx, h.pool.pendingPool.byId[id]? = some p ∧ p.tx = tx

theorem inv_new (config : TxPoolConfig) : (new config : PoolHistory Tx).Inv overflowChecks where
  basefee := rfl
  pending := PendingPool.holds_new
  allPending id tx subpool htx := by
    rw [show (new config : PoolHistory Tx).pool.allTxs.txs = ∅ from rfl,
      Std.ExtTreeMap.getElem?_empty] at htx
    cases htx
  tracked id tx := by
    rw [show (new config : PoolHistory Tx).pool.allTxs.txs = ∅ from rfl,
      show (new config : PoolHistory Tx).pool.pendingPool.byId = ∅ from rfl,
      Std.ExtTreeMap.getElem?_empty, Std.ExtTreeMap.getElem?_empty]
    simp

/-- What the subpools do with an accepted pending transaction: what was pending under its id is
removed, and it is added. -/
theorem Inv.applyOk (hinv : h.Inv overflowChecks) (hcount : h.accepted.length < 2 ^ 64)
    (pool : TransactionPool Tx) (hpending : pool.pendingPool = h.pool.pendingPool)
    (hbasefee : pool.allTxs.basefee = 0) (tx : PooledTransaction Tx) :
    ∃ p pool', pool.applyOk overflowChecks
        { tx, subpool := .pending, replacedTx := h.pool.allTxs.txs[tx.id]? } = some pool' ∧
      p.tx = tx ∧ pool'.allTxs = pool.allTxs ∧
      (∀ id : TransactionId, pool'.pendingPool.byId[id]? =
        if TransactionId.cmp tx.id id = .eq then some p else h.pool.pendingPool.byId[id]?) ∧
      pool'.pendingPool.Holds overflowChecks (h.accepted ++ [tx]) := by
  cases htxs : h.pool.allTxs.txs[tx.id]? with
  | none =>
    -- The subpool has only what `all_txs` has.
    have hvacant : h.pool.pendingPool.byId[tx.id]? = none := by
      rw [Option.eq_none_iff_forall_ne_some]
      intro p hp
      rw [(hinv.tracked tx.id p.tx).mpr ⟨p, hp, rfl⟩] at htxs
      cases htxs
    obtain ⟨p, pendingPool, hadd, hp, hbyId, hholds⟩ := hinv.pending.addTransaction hcount hvacant
    refine ⟨p, { pool with pendingPool }, ?_, hp, rfl, fun id => ?_, hholds⟩
    · show (pool.pendingPool.addTransaction overflowChecks tx pool.allTxs.basefee).bind _ = _
      rw [hpending, hbasefee, hadd]
      rfl
    · show pendingPool.byId[id]? = _
      rw [hbyId, Std.ExtTreeMap.getElem?_insert]
  | some existing =>
    obtain ⟨existingTx, subpool⟩ := existing
    obtain rfl := hinv.allPending tx.id existingTx subpool htxs
    obtain ⟨q, hq, rfl⟩ := (hinv.tracked tx.id existingTx).mp htxs
    have hid : q.tx.id = tx.id := hinv.pending.indexes.key_eq tx.id q hq
    -- The replaced transaction leaves the subpool before the new one enters it.
    obtain ⟨removed, hremove, herase, hremoved⟩ := hinv.pending.removeTransaction hq
    have hvacant : removed.byId[tx.id]? = none := by
      rw [herase, Std.ExtTreeMap.getElem?_erase_self]
    obtain ⟨p, pendingPool, hadd, hp, hbyId, hholds⟩ := hremoved.addTransaction hcount hvacant
    refine ⟨p, { pool with pendingPool }, ?_, hp, rfl, fun id => ?_, hholds⟩
    · show ((pool.pendingPool.removeTransaction q.tx.id).bind _).bind _ = _
      rw [hid, hpending, hremove, Option.bind_some, Option.bind_some]
      show (removed.addTransaction overflowChecks tx pool.allTxs.basefee).bind _ = _
      rw [hbasefee, hadd]
      rfl
    · show pendingPool.byId[id]? = _
      rw [hbyId, Std.ExtTreeMap.getElem?_insert, herase, Std.ExtTreeMap.getElem?_erase]
      split <;> rfl

/-- A call that `all_txs` rejects or classifies as pending: it changes no index, or it adds its
transaction to all of them. -/
theorem Inv.addTransaction (hinv : h.Inv overflowChecks) (hcount : h.accepted.length < 2 ^ 64)
    {call : PoolCall Tx} (hcall : h.rejectedOrPending overflowChecks call = true) :
    (∃ error pool, h.pool.addTransaction overflowChecks call.tx call.onChainNonce
        call.onChainBalance = some (.error error, pool) ∧
      pool.allTxs = h.pool.allTxs ∧ pool.pendingPool = h.pool.pendingPool) ∨
    ∃ pool, h.pool.addTransaction overflowChecks call.tx call.onChainNonce
        call.onChainBalance = some (.ok (), pool) ∧
      Inv overflowChecks { pool, accepted := h.accepted ++ [call.tx] } := by
  unfold rejectedOrPending at hcall
  unfold TransactionPool.addTransaction
  simp only
  cases hanswer : h.pool.allTxs.addTransaction overflowChecks call.tx call.onChainNonce
      call.onChainBalance with
  | none =>
    rw [hanswer] at hcall
    cases hcall
  | some answer =>
    obtain ⟨result, allTxs⟩ := answer
    -- A rejected call has updated the account only.
    rcases AllTransactions.addTransaction_cases hanswer with
      ⟨error, rfl, rfl⟩ | ⟨subpool, rfl, rfl⟩
    · exact Or.inl ⟨.addTransactionError error, _, rfl, rfl, rfl⟩
    · rw [hanswer] at hcall
      obtain rfl : subpool = .pending := of_decide_eq_true hcall
      obtain ⟨p, pool, happly, hp, hall, hbyId, hholds⟩ := hinv.applyOk hcount
        { h.pool with
          accountInfo := Function.update h.pool.accountInfo (signer call.tx.tx)
            (some { nonce := call.onChainNonce, balance := call.onChainBalance })
          allTxs := { h.pool.allTxs with
            txs := h.pool.allTxs.txs.insert call.tx.id (call.tx, .pending) } }
        rfl hinv.basefee call.tx
      refine Or.inr ⟨pool, ?_, ?_, hholds, ?_, ?_⟩
      · rw [Option.bind_eq_bind, Option.bind_some]
        simp only
        rw [happly]
        rfl
      · rw [hall]
        exact hinv.basefee
      · intro id tx subpool htx
        simp only [hall] at htx
        rw [Std.ExtTreeMap.getElem?_insert] at htx
        split at htx
        · cases htx
          rfl
        · exact hinv.allPending id tx subpool htx
      · intro id tx
        simp only [hall]
        rw [Std.ExtTreeMap.getElem?_insert, hbyId]
        split
        · simp [hp]
        · exact hinv.tracked id tx

/-- Steps with such calls keep the invariant. -/
theorem Inv.step (hinv : h.accepted.length < 2 ^ 64 → h.Inv overflowChecks) {call : PoolCall Tx}
    (hcall : h.rejectedOrPending overflowChecks call = true)
    (hstep : h.step overflowChecks call = some h') (hcount : h'.accepted.length < 2 ^ 64) :
    h'.Inv overflowChecks := by
  obtain ⟨⟨result, pool⟩, hadd, hstep⟩ := Option.bind_eq_some_iff.mp hstep
  have hless : h.accepted.length < 2 ^ 64 := by
    cases result with
    | ok _ =>
      cases hstep
      simp only [List.length_append] at hcount
      omega
    | error _ =>
      cases hstep
      exact hcount
  have hold := hinv hless
  rcases hold.addTransaction hless hcall with ⟨error, pool', hadd', hall, hpending⟩ |
    ⟨pool', hadd', hinv'⟩
  · rw [hadd] at hadd'
    cases hadd'
    cases hstep
    exact {
      basefee := by rw [hall]; exact hold.basefee
      pending := by rw [hpending]; exact hold.pending
      allPending := by rw [hall]; exact hold.allPending
      tracked := by rw [hall, hpending]; exact hold.tracked }
  · rw [hadd] at hadd'
    cases hadd'
    cases hstep
    exact hinv'

theorem Inv.of_reachable {config : TxPoolConfig}
    (hreach : ReachableWithin (PoolHistory.step overflowChecks)
      (fun h call => h.rejectedOrPending overflowChecks call = true) (new config) h)
    (hcount : h.accepted.length < 2 ^ 64) : h.Inv overflowChecks := by
  revert hcount
  induction hreach with
  | refl => exact fun _ => inv_new config
  | tail _ hcall hstep ih => exact fun hcount => Inv.step ih hcall hstep hcount

end PoolHistory

/-! ## Consistent indexes -/

/-- The indexes of the pool hold the same pending transactions, `all` in the order of their
priorities and, of the same priority, of their submission. -/
structure PoolHistory.Consistent (overflowChecks : Bool) (h : PoolHistory Tx) : Prop where
  pending_iff : ∀ id : TransactionId,
    (∃ tx : PooledTransaction Tx, h.pool.allTxs.txs[id]? = some (tx, .pending)) ↔
      id ∈ h.pool.pendingPool.byId
  same_tx : ∀ (id : TransactionId) (p : PendingTransaction Tx),
    h.pool.pendingPool.byId[id]? = some p →
      p.id = id ∧ h.pool.allTxs.txs[id]? = some (p.tx, .pending)
  mem_all_iff : ∀ p : PendingTransaction Tx,
    p ∈ h.pool.pendingPool.all.toList ↔ h.pool.pendingPool.byId[p.id]? = some p
  nodup_ids : (h.pool.pendingPool.all.toList.map PendingTransaction.id).Nodup
  ordered : h.pool.pendingPool.all.toList.Pairwise fun a b =>
    a.priority < b.priority ∨ (a.priority = b.priority ∧ b.submissionId < a.submissionId)
  submission : ∀ p ∈ h.pool.pendingPool.all.toList,
    h.accepted[p.submissionId.toNat]? = some p.tx ∧
      PendingPool.priorityByTip overflowChecks p.tx 0 = some p.priority

theorem PoolHistory.Inv.consistent {h : PoolHistory Tx} (hinv : h.Inv overflowChecks) :
    h.Consistent overflowChecks where
  pending_iff id := by
    rw [Std.ExtTreeMap.mem_iff_isSome_getElem?, Option.isSome_iff_exists]
    constructor
    · rintro ⟨tx, htx⟩
      obtain ⟨p, hp, -⟩ := (hinv.tracked id tx).mp htx
      exact ⟨p, hp⟩
    · rintro ⟨p, hp⟩
      exact ⟨p.tx, (hinv.tracked id p.tx).mpr ⟨p, hp, rfl⟩⟩
  same_tx id p hp :=
    ⟨hinv.pending.indexes.key_eq id p hp, (hinv.tracked id p.tx).mpr ⟨p, hp, rfl⟩⟩
  mem_all_iff := hinv.pending.indexes.mem_iff
  nodup_ids := hinv.pending.indexes.nodup_keys
  ordered := Std.ExtTreeSet.ordered_toList.imp PendingTransaction.cmp_eq_lt_iff.mp
  submission p hp := hinv.pending.entry _ p ((hinv.pending.indexes.mem_iff p).mp hp)

/-- **The indexes stay consistent**: in every run of calls that `all_txs` rejects or classifies as
pending, the indexes agree; the next such call does not panic, and changes no index if it is
rejected. -/
theorem poolIndexes_consistent (overflowChecks : Bool) (config : TxPoolConfig)
    {h : PoolHistory Tx}
    (hreach : ReachableWithin (PoolHistory.step overflowChecks)
      (fun h call => h.rejectedOrPending overflowChecks call = true) (.new config) h)
    (hcount : h.accepted.length < 2 ^ 64) :
    h.Consistent overflowChecks ∧
      ∀ call : PoolCall Tx, h.rejectedOrPending overflowChecks call = true →
        ∃ result pool, h.pool.addTransaction overflowChecks call.tx call.onChainNonce
            call.onChainBalance = some (result, pool) ∧
          ∀ error, result = .error error →
            pool.allTxs = h.pool.allTxs ∧ pool.pendingPool = h.pool.pendingPool := by
  have hinv := PoolHistory.Inv.of_reachable hreach hcount
  refine ⟨hinv.consistent, fun call hcall => ?_⟩
  rcases hinv.addTransaction hcount hcall with ⟨error, pool, hadd, hsame⟩ | ⟨pool, hadd, -⟩
  · exact ⟨.error error, pool, hadd, fun _ _ => hsame⟩
  · exact ⟨.ok (), pool, hadd, fun error herror => by cases herror⟩

/-- Two senders, a replacement, an underpriced replacement and a transaction of the past. -/
def modelCalls : List (PoolCall ModelTransaction) :=
  [{ tx := .ofLegacy 1 0 1000, onChainNonce := 0, onChainBalance := BitVec.allOnes 256 },
    { tx := .ofLegacy 2 5 1100, onChainNonce := 5, onChainBalance := BitVec.allOnes 256 },
    { tx := .ofLegacy 1 0 1100, onChainNonce := 0, onChainBalance := BitVec.allOnes 256 },
    { tx := .ofLegacy 2 5 1101, onChainNonce := 5, onChainBalance := BitVec.allOnes 256 },
    { tx := .ofLegacy 1 0 5000, onChainNonce := 1, onChainBalance := BitVec.allOnes 256 }]

def modelTxPoolConfig : TxPoolConfig where
  minProtocolBasefee := 10
  blockGasLimit := 30000000
  priceBumpPercentage := 10

def modelHistory : PoolHistory ModelTransaction :=
  (exec (PoolHistory.step true) (.new modelTxPoolConfig) modelCalls).get (by decide +kernel)

theorem poolIndexes_consistent_model :
    modelHistory.accepted.length = 3 ∧ modelHistory.Consistent true :=
  ⟨by decide +kernel, (poolIndexes_consistent true modelTxPoolConfig
    (reachableWithin_get (by decide +kernel) _) (by decide +kernel)).1⟩

end Tonic
