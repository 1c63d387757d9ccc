/-
# What a replacement pays

A replacement has to raise the fees of the transaction it replaces by a percentage.  The
pool compares with `fee * (100 + bump) / 100`, so the bump can be lost at both ends: the
product may not fit a `u128`, and a bumped fee that is no whole number is cut down, in the
extreme to the old fee.  In exact arithmetic the bump is paid exactly where neither happens.
-/
import Tonic.PoolIndexes

namespace Tonic

open Transition

/-! ## Exact and machine arithmetic -/

/-- The bumped fee in hundredths, in exact arithmetic. -/
def bumpedHundredths (fee bump : U128) : ℕ := fee.toNat * (100 + bump.toNat)

/-- The replacement has the fee that the bumped one, not a whole number, is cut down to. -/
def CutDown (fee replacementFee bump : U128) : Prop :=
  ¬ 100 ∣ bumpedHundredths fee bump ∧ replacementFee.toNat = bumpedHundredths fee bump / 100

instance (fee replacementFee bump : U128) : Decidable (CutDown fee replacementFee bump) :=
  inferInstanceAs (Decidable (_ ∧ _))

/-- A fee that is at least the cut down one pays the bump, unless it is the cut down one. -/
theorem bumpedHundredths_le_iff {fee replacementFee bump : U128}
    (h : bumpedHundredths fee bump / 100 ≤ replacementFee.toNat) :
    bumpedHundredths fee bump ≤ replacementFee.toNat * 100 ↔ ¬ CutDown fee replacementFee bump := by
  unfold CutDown
  omega

namespace PooledTransaction

section BumpedFee

variable {overflowChecks : Bool} {fee bump : U128}

theorem bumpedFee_of_fits (overflowChecks : Bool) (hpercentage : 100 + bump.toNat < 2 ^ 128)
    (hproduct : bumpedHundredths fee bump < 2 ^ 128) :
    ∃ bumped, bumpedFee overflowChecks fee bump = some bumped ∧
      bumped.toNat = bumpedHundredths fee bump / 100 := by
  have hsum : (100 + bump : U128).toNat = 100 + bump.toNat := by
    rw [BitVec.toNat_add, show (100 : U128).toNat = 100 from rfl, Nat.mod_eq_of_lt hpercentage]
  have hadd : U128.add overflowChecks 100 bump = some (100 + bump) := by
    rw [U128.add, show (100 : U128).toNat = 100 from rfl, if_neg]
    omega
  have hmul : U128.mul overflowChecks fee (100 + bump) = some (fee * (100 + bump)) := by
    rw [U128.mul, hsum, if_neg]
    intro h
    exact absurd hproduct (Nat.not_lt.mpr h.2)
  refine ⟨fee * (100 + bump) / 100, ?_, ?_⟩
  · rw [bumpedFee, hadd, Option.bind_eq_bind, Option.bind_some, hmul]
    rfl
  · rw [BitVec.toNat_udiv, BitVec.toNat_mul, hsum, ← bumpedHundredths,
      Nat.mod_eq_of_lt hproduct]
    rfl

/-- With overflow checks there is a bumped fee only if it is exact. -/
theorem fits_of_bumpedFee {bumped : U128} (h : bumpedFee true fee bump = some bumped) :
    100 + bump.toNat < 2 ^ 128 ∧ bumpedHundredths fee bump < 2 ^ 128 := by
  obtain ⟨percentage, hadd, h⟩ := Option.bind_eq_some_iff.mp h
  obtain ⟨product, hmul, -⟩ := Option.bind_eq_some_iff.mp h
  unfold U128.add at hadd
  split at hadd
  · cases hadd
  next hsum =>
    cases hadd
    have hpercentage : 100 + bump.toNat < 2 ^ 128 := by
      simp only [true_and, not_le] at hsum
      exact hsum
    refine ⟨hpercentage, ?_⟩
    unfold U128.mul at hmul
    split at hmul
    · cases hmul
    next hproduct =>
      rw [BitVec.toNat_add, show (100 : U128).toNat = 100 from rfl,
        Nat.mod_eq_of_lt hpercentage] at hproduct
      simp only [true_and, not_le] at hproduct
      exact hproduct

end BumpedFee

variable {Tx : Type} [TransactionSignedEcRecovered Tx]

/-! ## The comparison -/

/-- In exact arithmetic the replacement pays the bump on its fee and, where both transactions have
one, on its priority fee. -/
structure PaysBump (existing replacement : PooledTransaction Tx) (bump : U128) : Prop where
  maxFee : bumpedHundredths existing.maxFeePerGas bump ≤ replacement.maxFeePerGas.toNat * 100
  priorityFee : ∀ p q, existing.maxPriorityFeePerGas = some p →
    replacement.maxPriorityFeePerGas = some q → bumpedHundredths p bump ≤ q.toNat * 100

/-- The products that the comparison comes to fit a `u128`. -/
structure BumpFits (existing replacement : PooledTransaction Tx) (bump : U128) : Prop where
  percentage : 100 + bump.toNat < 2 ^ 128
  maxFee : bumpedHundredths existing.maxFeePerGas bump < 2 ^ 128
  priorityFee :
    bumpedHundredths existing.maxFeePerGas bump / 100 ≤ replacement.maxFeePerGas.toNat →
      ∀ p q, existing.maxPriorityFeePerGas = some p → replacement.maxPriorityFeePerGas = some q →
        bumpedHundredths p bump < 2 ^ 128

/-- The replacement has at least the fees that the bumped ones are cut down to. -/
structure Passes (existing replacement : PooledTransaction Tx) (bump : U128) : Prop where
  maxFee : bumpedHundredths existing.maxFeePerGas bump / 100 ≤ replacement.maxFeePerGas.toNat
  priorityFee : ∀ p q, existing.maxPriorityFeePerGas = some p →
    replacement.maxPriorityFeePerGas = some q → bumpedHundredths p bump / 100 ≤ q.toNat

/-- No fee of the replacement is a bumped one cut down. -/
structure NotCutDown (existing replacement : PooledTransaction Tx) (bump : U128) : Prop where
  maxFee : ¬ CutDown existing.maxFeePerGas replacement.maxFeePerGas bump
  priorityFee : ∀ p q, existing.maxPriorityFeePerGas = some p →
    replacement.maxPriorityFeePerGas = some q → ¬ CutDown p q bump

variable {existing replacement : PooledTransaction Tx} {bump : U128}

theorem Passes.paysBump_iff (h : Passes existing replacement bump) :
    PaysBump existing replacement bump ↔ NotCutDown existing replacement bump := by
  constructor
  · intro hpays
    exact ⟨(bumpedHundredths_le_iff h.maxFee).mp hpays.maxFee, fun p q hp hq =>
      (bumpedHundredths_le_iff (h.priorityFee p q hp hq)).mp (hpays.priorityFee p q hp hq)⟩
  · intro hwhole
    exact ⟨(bumpedHundredths_le_iff h.maxFee).mpr hwhole.maxFee, fun p q hp hq =>
      (bumpedHundredths_le_iff (h.priorityFee p q hp hq)).mpr (hwhole.priorityFee p q hp hq)⟩

/-- Where the products fit, the comparison lets pass what has at least the fees cut down. -/
theorem BumpFits.isUnderpriced (h : BumpFits existing replacement bump) (overflowChecks : Bool) :
    ∃ underpriced, existing.isUnderpriced replacement overflowChecks bump = some underpriced ∧
      (underpriced = false ↔ Passes existing replacement bump) := by
  obtain ⟨bumped, hbumped, hvalue⟩ :=
    bumpedFee_of_fits overflowChecks h.percentage h.maxFee
  unfold PooledTransaction.isUnderpriced
  rw [hbumped, Option.bind_eq_bind, Option.bind_some]
  by_cases hlt : replacement.maxFeePerGas < bumped
  · rw [if_pos hlt]
    refine ⟨true, rfl, ?_⟩
    rw [BitVec.lt_def, hvalue] at hlt
    exact iff_of_false (fun htrue => by cases htrue) fun hpasses =>
      absurd hlt (Nat.not_lt.mpr hpasses.maxFee)
  · rw [if_neg hlt]
    rw [BitVec.lt_def, hvalue, Nat.not_lt] at hlt
    -- The priority fees are compared only where both transactions have one.
    cases hp : existing.maxPriorityFeePerGas with
    | none =>
      refine ⟨false, by cases replacement.maxPriorityFeePerGas <;> rfl, iff_of_true rfl ⟨hlt, ?_⟩⟩
      intro p q hp'
      rw [hp] at hp'
      cases hp'
    | some p =>
      cases hq : replacement.maxPriorityFeePerGas with
      | none =>
        refine ⟨false, rfl, iff_of_true rfl ⟨hlt, ?_⟩⟩
        intro p q _ hq'
        rw [hq] at hq'
        cases hq'
      | some q =>
        obtain ⟨bumpedPriority, hpriority, hvalue'⟩ :=
          bumpedFee_of_fits overflowChecks h.percentage (h.priorityFee hlt p q hp hq)
        refine ⟨decide (q < bumpedPriority), ?_, ?_⟩
        · show (bumpedFee overflowChecks p bump).bind _ = _
          rw [hpriority]
          rfl
        · rw [decide_eq_false_iff_not, BitVec.lt_def, hvalue', Nat.not_lt]
          constructor
          · intro hle
            refine ⟨hlt, fun p' q' hp' hq' => ?_⟩
            rw [hp] at hp'
            rw [hq] at hq'
            cases hp'
            cases hq'
            exact hle
          · exact fun hpasses => hpasses.priorityFee p q hp hq

/-- With overflow checks the comparison answers only where the products fit. -/
theorem bumpFits_of_isUnderpriced {underpriced : Bool}
    (h : existing.isUnderpriced replacement true bump = some underpriced) :
    BumpFits existing replacement bump := by
  obtain ⟨bumped, hbumped, h⟩ := Option.bind_eq_some_iff.mp h
  obtain ⟨hpercentage, hproduct⟩ := fits_of_bumpedFee hbumped
  refine ⟨hpercentage, hproduct, fun hle p q hp hq => ?_⟩
  obtain ⟨bumped', hbumped', hvalue⟩ := bumpedFee_of_fits true hpercentage hproduct
  rw [hbumped] at hbumped'
  obtain rfl := Option.some.inj hbumped'
  have hlt : ¬ replacement.maxFeePerGas < bumped := by
    rw [BitVec.lt_def, hvalue]
    exact Nat.not_lt.mpr hle
  rw [if_neg hlt, hp, hq] at h
  obtain ⟨bumpedPriority, hpriority, -⟩ := Option.bind_eq_some_iff.mp h
  exact (fits_of_bumpedFee hpriority).2

end PooledTransaction

/-! ## Replacements in `all_txs` -/

/-- A configuration that every transaction meets. -/
def TxPoolConfig.permissive (bump : U128) : TxPoolConfig where
  minProtocolBasefee := 0
  blockGasLimit := UInt64.ofNat (2 ^ 64 - 1)
  priceBumpPercentage := bump

variable {Tx : Type} [TransactionSignedEcRecovered Tx]

namespace AllTransactions

/-- A call of `add_transaction`, refused where it panics. -/
def step (overflowChecks : Bool) (all : AllTransactions Tx) (call : PoolCall Tx) :
    Option (AllTransactions Tx) :=
  (all.addTransaction overflowChecks call.tx call.onChainNonce call.onChainBalance).map Prod.snd

/-- The pool has an existing transaction under the id of the replacement, and accepts the
replacement with some on-chain nonce and balance. -/
def Replaces (overflowChecks : Bool) (all : AllTransactions Tx)
    (existing replacement : PooledTransaction Tx) : Prop :=
  (∃ subpool, all.txs[replacement.id]? = some (existing, subpool)) ∧
    ∃ onChainNonce onChainBalance ok all',
      all.addTransaction overflowChecks replacement onChainNonce onChainBalance
        = some (.ok ok, all')

/-- `all_txs` accepts a replacement only if the comparison does. -/
theorem Replaces.not_underpriced {overflowChecks : Bool} {all : AllTransactions Tx}
    {existing replacement : PooledTransaction Tx}
    (h : all.Replaces overflowChecks existing replacement) :
    existing.isUnderpriced replacement overflowChecks all.config.priceBumpPercentage
      = some false := by
  obtain ⟨⟨subpool, hexisting⟩, onChainNonce, onChainBalance, ok, all', hadd⟩ := h
  unfold addTransaction at hadd
  split at hadd
  · cases hadd
  · split at hadd
    · cases hadd
    · rw [hexisting] at hadd
      obtain ⟨underpriced, hunderpriced, hadd⟩ := Option.bind_eq_some_iff.mp hadd
      split at hadd
      · cases hadd
      next hfalse =>
        rw [hunderpriced]
        simpa using hfalse

/-- Under that configuration, a transaction with the next nonce and enough balance meets no
obstacle but an existing one. -/
theorem accepts_of_permissive (all : AllTransactions Tx) {bump : U128}
    (hconfig : all.config = .permissive bump) (hbasefee : all.basefee = 0)
    (tx : PooledTransaction Tx) :
    all.validateTx tx = .ok () ∧ all.subpoolOf tx tx.nonce tx.cost = .ok .pending := by
  constructor
  · have hfee : ¬ tx.maxFeePerGas < all.config.minProtocolBasefee := by
      rw [hconfig]
      simp [TxPoolConfig.permissive, BitVec.lt_def]
    have hgas : ¬ all.config.blockGasLimit < tx.gasLimit := by
      rw [hconfig, UInt64.lt_iff_toNat_lt]
      have hlt := tx.gasLimit.toNat_lt
      simp only [TxPoolConfig.permissive, UInt64.toNat_ofNat']
      omega
    rw [validateTx, if_neg hfee, if_neg hgas]
  · have hcompare : compare tx.nonce tx.nonce = .eq := Std.ReflCmp.compare_self
    have hcost : tx.cost ≤ tx.cost := BitVec.le_refl _
    have hfee : all.basefee ≤ tx.maxFeePerGas := by
      rw [hbasefee]
      simp [BitVec.le_def]
    rw [subpoolOf, hcompare]
    simp only
    rw [if_pos hcost, if_pos hfee]

end AllTransactions

namespace PooledTransaction

/-- What the bump promises of a replacement: the comparison does not overflow, and where `all_txs`
accepts the replacement, in whatever state it has come to, the bump is paid; so the fee rises. -/
structure RealBump (overflowChecks : Bool) (existing replacement : PooledTransaction Tx)
    (bump : U128) : Prop where
  no_overflow : (existing.isUnderpriced replacement true bump).isSome = true
  paysBump : ∀ (config : TxPoolConfig) (all : AllTransactions Tx),
    Reachable (AllTransactions.step overflowChecks) (.new config) all →
    all.config.priceBumpPercentage = bump → all.Replaces overflowChecks existing replacement →
    PaysBump existing replacement bump ∧ (0 < bump → 0 < existing.maxFeePerGas →
      existing.maxFeePerGas < replacement.maxFeePerGas)

/-- A bump that is paid raises a fee. -/
theorem PaysBump.maxFee_lt {existing replacement : PooledTransaction Tx} {bump : U128}
    (h : PaysBump existing replacement bump) (hbump : 0 < bump)
    (hfee : 0 < existing.maxFeePerGas) :
    existing.maxFeePerGas < replacement.maxFeePerGas := by
  have hpays := h.maxFee
  rw [BitVec.lt_def] at hbump hfee ⊢
  rw [bumpedHundredths, Nat.mul_add] at hpays
  have hpos : 0 < existing.maxFeePerGas.toNat * bump.toNat := Nat.mul_pos hfee hbump
  omega

variable {existing replacement : PooledTransaction Tx} {bump : U128}

/-- What passes the comparison replaces an existing transaction in some run. -/
theorem exists_replaces (overflowChecks : Bool) (hid : existing.id = replacement.id)
    (hunderpriced : existing.isUnderpriced replacement overflowChecks bump = some false) :
    ∃ all, Reachable (AllTransactions.step overflowChecks)
        (.new (.permissive bump)) all ∧
      all.config.priceBumpPercentage = bump ∧
      all.Replaces overflowChecks existing replacement := by
  let start : AllTransactions Tx := .new (.permissive bump)
  -- A pool that turns nothing down has accepted the existing transaction.
  let all : AllTransactions Tx :=
    { start with txs := start.txs.insert existing.id (existing, .pending) }
  have hadd : start.addTransaction overflowChecks existing existing.nonce existing.cost
      = some (.ok { tx := existing, subpool := .pending, replacedTx := none }, all) := by
    obtain ⟨hvalid, hsubpool⟩ := start.accepts_of_permissive rfl rfl existing
    unfold AllTransactions.addTransaction
    rw [hvalid]
    simp only
    rw [hsubpool]
    simp only
    rw [show start.txs[existing.id]? = none from Std.ExtTreeMap.getElem?_empty]
  have hexisting : all.txs[replacement.id]? = some (existing, .pending) := by
    rw [← hid]
    exact Std.ExtTreeMap.getElem?_insert_self
  obtain ⟨hvalid, hsubpool⟩ := all.accepts_of_permissive rfl rfl replacement
  let call : PoolCall Tx :=
    { tx := existing, onChainNonce := existing.nonce, onChainBalance := existing.cost }
  refine ⟨all, ⟨[call], ?_⟩, rfl, ⟨.pending, hexisting⟩, replacement.nonce, replacement.cost, ?_⟩
  · rw [exec_cons]
    refine ⟨all, ?_, rfl⟩
    show (start.addTransaction _ _ _ _).map _ = _
    rw [hadd]
    rfl
  · unfold AllTransactions.addTransaction
    rw [hvalid]
    simp only
    rw [hsubpool]
    simp only
    rw [hexisting]
    simp only
    rw [show all.config.priceBumpPercentage = bump from rfl, hunderpriced]
    exact ⟨_, _, rfl⟩

/-- **When a replacement pays the bump**: exactly where the products fit and, if the replacement
has at least the fees cut down, none of its fees is one of them. -/
theorem realBump_iff (overflowChecks : Bool) (hid : existing.id = replacement.id) :
    RealBump overflowChecks existing replacement bump ↔
      BumpFits existing replacement bump ∧
        (Passes existing replacement bump → NotCutDown existing replacement bump) := by
  constructor
  · intro hreal
    obtain ⟨underpriced, hunderpriced⟩ := Option.isSome_iff_exists.mp hreal.no_overflow
    have hfits := bumpFits_of_isUnderpriced hunderpriced
    refine ⟨hfits, fun hpasses => ?_⟩
    obtain ⟨underpriced', hunderpriced', hiff⟩ := hfits.isUnderpriced overflowChecks
    rw [hiff.mpr hpasses] at hunderpriced'
    obtain ⟨all, hreach, hconfig, hreplaces⟩ := exists_replaces overflowChecks hid hunderpriced'
    exact hpasses.paysBump_iff.mp (hreal.paysBump _ all hreach hconfig hreplaces).1
  · rintro ⟨hfits, hwhole⟩
    refine ⟨?_, fun config all _ hconfig hreplaces => ?_⟩
    · obtain ⟨underpriced, hunderpriced, -⟩ := hfits.isUnderpriced true
      rw [hunderpriced]
      rfl
    · have hunderpriced := hreplaces.not_underpriced
      rw [hconfig] at hunderpriced
      obtain ⟨underpriced, hanswer, hiff⟩ := hfits.isUnderpriced overflowChecks
      rw [hunderpriced] at hanswer
      have hpasses := hiff.mp (Option.some.inj hanswer).symm
      have hpays := hpasses.paysBump_iff.mpr (hwhole hpasses)
      exact ⟨hpays, hpays.maxFee_lt⟩

end PooledTransaction

/-- A bump of ten per cent on a fee of 1000. -/
theorem PooledTransaction.realBump_iff_thousand :
    RealBump true (ofLegacy 1 0 1000) (ofLegacy 1 0 1100) 10 := by
  have hfits : BumpFits (ofLegacy 1 0 1000) (ofLegacy 1 0 1100) 10 := by
    refine ⟨by decide, by decide, fun _ p q hp => ?_⟩
    cases hp
  have hwhole : NotCutDown (ofLegacy 1 0 1000) (ofLegacy 1 0 1100) 10 := by
    refine ⟨by decide, fun p q hp => ?_⟩
    cases hp
  have hid : (ofLegacy 1 0 1000).id = (ofLegacy 1 0 1100).id := rfl
  exact (realBump_iff true hid).mpr ⟨hfits, fun _ => hwhole⟩

/-- A bump of ten per cent on a fee of 1 is cut down to nothing, and on the greatest fee it does
not fit. -/
theorem PooledTransaction.not_realBump_small_or_great :
    ¬ RealBump false (ofLegacy 1 0 1) (ofLegacy 1 0 1) 10 ∧
      ¬ RealBump true (ofLegacy 1 0 (BitVec.allOnes 128)) (ofLegacy 1 0 (BitVec.allOnes 128))
        10 := by
  constructor
  · intro hreal
    obtain ⟨all, hreach, hconfig, hreplaces⟩ := exists_replaces false
      (show (ofLegacy 1 0 1).id = (ofLegacy 1 0 1).id from rfl)
      (show isUnderpriced _ _ false 10 = some false by decide +kernel)
    have hpays := (hreal.paysBump _ all hreach hconfig hreplaces).1.maxFee
    revert hpays
    decide
  · intro hreal
    have hfits := hreal.no_overflow
    revert hfits
    decide +kernel

end Tonic
