/-
# Proposals of later rounds

The proposer of a later round collects round changes and proposes the block that they
have prepared; the others check that it did.  The proposer takes the block of the first
round change that carries one.  The check looks for the certificate of the highest round,
but its running maximum starts at round 0, so that certificates of round 0 are passed
over.

For each of these rules the condition is found under which it does what it is for.
-/
import Tonic.Network
import Tonic.ModelCrypto
import Tonic.RelatedLists

namespace Tonic

open RelatedLists

variable {cfg : Config} {p : ProposalMessageSigned}

/-! ## The certificate of the highest round -/

/-- The certificate is valid and for the block of the proposal, and no certificate of the proposal
has a higher round. -/
structure Locks (cfg : Config) (p : ProposalMessageSigned) (pc : PreparedCertificate) : Prop where
  mem : pc ∈ p.certificates
  valid : ValidCertificate cfg pc p.view.height p.view.round
  digest_eq : digestBlock cfg.crypto p.proposedBlock.rawBlock pc.proposalMeta.view.round =
    pc.proposalMeta.proposedBlockDigest
  le_round : ∀ pc' ∈ p.certificates, pc'.proposalMeta.view.round ≤ pc.proposalMeta.view.round

/-- The certificate is for the block of the proposal. -/
def PreparedCertificate.IsFor (c : Crypto) (pc : PreparedCertificate)
    (p : ProposalMessageSigned) : Prop :=
  digestBlock c p.proposedBlock.rawBlock pc.proposalMeta.view.round =
    pc.proposalMeta.proposedBlockDigest

/-- What the check of a proposal is for: a block that goes with prepared certificates is the one of
the highest, and a fresh block, for which there is no certificate, goes with none. -/
structure Justifies (cfg : Config) (p : ProposalMessageSigned) : Prop where
  takenOver : ∀ env,
    proposal1VerifyFn cfg env (cfg.validatorManager.quorum p.view.height) p = .ok () →
    p.certificates ≠ [] → ∃ pc, Locks cfg p pc
  fresh : ∀ env,
    proposal1VerifyFn cfg env (cfg.validatorManager.quorum p.view.height) p = .ok () →
    (∀ pc ∈ p.certificates, ¬ pc.IsFor cfg.crypto p) → p.certificates = []

variable (cfg) in
/-- The proposal goes with prepared certificates, all of them of round 0, and none of them is a
valid one for its block. -/
structure Replaces (p : ProposalMessageSigned) : Prop extends SignedRoundChanges cfg p where
  ne_nil : p.certificates ≠ []
  round_eq : ∀ pc ∈ p.certificates, pc.proposalMeta.view.round = 0
  none_for : ∀ pc ∈ p.certificates,
    verifyPreparedCertificate cfg pc p.view.height p.view.round = true → ¬ pc.IsFor cfg.crypto p

/-! ### The running maximum -/

/-- Certificates that are not above the maximum leave it as it is. -/
theorem HighestRound.foldl_update_of_le {certs : List (Option PreparedCertificate)}
    {highest : HighestRound}
    (hle : ∀ pc, some pc ∈ certs → pc.proposalMeta.view.round ≤ highest.round) :
    certs.foldl HighestRound.update highest = highest := by
  induction certs with
  | nil => rfl
  | cons cert certs ih =>
    have hsame : highest.update cert = highest := by
      cases cert with
      | none => rfl
      | some pc =>
        have := hle pc List.mem_cons_self
        exact if_neg (UInt8.not_lt.mpr this)
    rw [List.foldl_cons, hsame]
    exact ih fun pc hpc => hle pc (List.mem_cons_of_mem _ hpc)

/-- The certificates of the proposal are those of its round changes. -/
theorem mem_certificates {pc : PreparedCertificate} :
    pc ∈ p.certificates ↔
      some pc ∈ p.roundChanges.map RoundChangeMetadata.latestPreparedCertificate := by
  rw [ProposalMessageSigned.certificates, List.mem_filterMap, List.mem_map]

/-- What the verify function of later rounds accepts. -/
theorem proposal1VerifyFn_iff {env : Env} :
    proposal1VerifyFn cfg env (cfg.validatorManager.quorum p.view.height) p = .ok () ↔
      SignedRoundChanges cfg p ∧
        ((highestOf p).certificate = none → env.verifyBlock p.proposedBlock.rawBlock = .ok ()) ∧
        ∀ pc, (highestOf p).certificate = some pc →
          digestBlock cfg.crypto p.proposedBlock.rawBlock (highestOf p).round =
            pc.proposalMeta.proposedBlockDigest ∧
          verifyPreparedCertificate cfg pc p.view.height p.view.round = true := by
  unfold proposal1VerifyFn
  by_cases hsigned : SignedRoundChanges cfg p
  · rw [verifyRoundChangeCertificate_iff.mpr ⟨hsigned, rfl⟩]
    simp only
    cases (highestOf p).certificate with
    | none =>
      simp only
      cases hblock : env.verifyBlock p.proposedBlock.rawBlock with
      | error err => simp
      | ok => simp [hsigned]
    | some pc =>
      simp only
      split
      next hne => simp [hne]
      next heq =>
        split
        next hfalse => simp [hfalse]
        next htrue => simp [hsigned, not_not.mp heq, Bool.eq_true_of_not_eq_false htrue]
  · constructor
    · intro h
      split at h
      · cases h
      next highest hok => exact absurd (verifyRoundChangeCertificate_iff.mp hok).1 hsigned
    · rintro ⟨hsigned', -⟩
      exact absurd hsigned' hsigned

/-! ### Justified proposals -/

theorem proposalVerifyFn_of_round_ne {env : Env} {view : View} (hround : view.round ≠ 0) :
    proposalVerifyFn cfg env view p =
      proposal1VerifyFn cfg env (cfg.validatorManager.quorum view.height) p :=
  if_neg hround

/-- **Justified proposals.**  The check of a proposal does what it is for exactly on the proposals
that do not replace the block of certificates of round 0. -/
theorem justifies_iff (hround : p.view.round ≠ 0) : Justifies cfg p ↔ ¬ Replaces cfg p := by
  constructor
  · intro hjustifies hreplaces
    -- With no certificate above round 0 the block is verified as a new one.
    have hfold : highestOf p = HighestRound.init := by
      refine HighestRound.foldl_update_of_le fun pc hpc => ?_
      exact UInt8.le_of_eq (hreplaces.round_eq pc (mem_certificates.mpr hpc))
    let env : Env :=
      { buildBlock := fun _ => .ok [], verifyBlock := fun _ => .ok (), hashRank := fun _ => 0 }
    have hverify :
        proposal1VerifyFn cfg env (cfg.validatorManager.quorum p.view.height) p = .ok () := by
      refine proposal1VerifyFn_iff.mpr ⟨hreplaces.toSignedRoundChanges, fun _ => rfl, ?_⟩
      intro pc hpc
      rw [hfold] at hpc
      cases hpc
    obtain ⟨pc, hlocks⟩ := hjustifies.takenOver env hverify hreplaces.ne_nil
    exact hreplaces.none_for pc hlocks.mem (verifyPreparedCertificate_iff.mpr hlocks.valid)
      hlocks.digest_eq
  · intro hreplaces
    have htakenOver : ∀ env,
        proposal1VerifyFn cfg env (cfg.validatorManager.quorum p.view.height) p = .ok () →
        p.certificates ≠ [] → ∃ pc, Locks cfg p pc := by
      intro env hverify hne
      have hsigned := (proposal1VerifyFn_iff.mp hverify).1
      rw [← proposalVerifyFn_of_round_ne hround] at hverify
      rcases proposalVerifyFn_ok hverify with ⟨hzero, -⟩ | ⟨-, validators, highest, hfor, hcases⟩
      · exact absurd hzero hround
      rcases hcases with ⟨hnone, -⟩ | ⟨pc, hpc, hdigest, hvalid⟩
      · -- All certificates are of round 0, and one of them is valid and for the block.
        have hzero : ∀ pc ∈ p.certificates, pc.proposalMeta.view.round = 0 := by
          intro pc hpc
          have hle := hfor.highest_of.le_round pc hpc
          rw [hfor.highest_of.of_none hnone] at hle
          exact UInt8.le_antisymm hle UInt8.zero_le
        obtain ⟨pc, hpc, hvalid, hblock⟩ : ∃ pc ∈ p.certificates,
            verifyPreparedCertificate cfg pc p.view.height p.view.round = true ∧
              pc.IsFor cfg.crypto p := by
          by_contra hnot
          refine hreplaces ⟨hsigned, hne, hzero, fun pc hpc hvalid hblock => ?_⟩
          exact hnot ⟨pc, hpc, hvalid, hblock⟩
        refine ⟨pc, hpc, verifyPreparedCertificate_iff.mp hvalid, hblock, fun pc' hpc' => ?_⟩
        rw [hzero pc' hpc', hzero pc hpc]
        exact UInt8.le_refl 0
      · obtain ⟨hmem, hhighest⟩ := hfor.highest_of.of_some pc hpc
        refine ⟨pc, hmem, hvalid, hdigest, fun pc' hpc' => ?_⟩
        rw [← hhighest]
        exact hfor.highest_of.le_round pc' hpc'
    refine ⟨htakenOver, fun env hverify hfresh => ?_⟩
    by_contra hne
    obtain ⟨pc, hlocks⟩ := htakenOver env hverify hne
    exact hfresh pc hlocks.mem hlocks.digest_eq

/-! ### Blocks that are kept and replaced -/

/-- The certificate of a round with one prepare, by the validators with the given keys. -/
def pairPrepared (round : UInt8) (proposer preparer : UInt8) (b : RawBlock) : PreparedProposed :=
  let proposal := (ProposalMessage.new modelCrypto { height := 1, round } b none).intoSigned
    modelCrypto (modelKey proposer)
  PreparedProposed.new proposal
    [(PrepareMessage.new { height := 1, round } proposal.proposedBlockDigest).intoSigned modelCrypto
      (modelKey preparer)]

/-- A round change to a round. -/
def pairRoundChange (round signer : UInt8) (pp : PreparedProposed) : RoundChangeMessageSigned :=
  (RoundChangeMessage.new { height := 1, round } (some pp)).intoSigned modelCrypto
    (modelKey signer)

/-- The first of two validators. -/
def pairConfig : Config where
  crypto := modelCrypto
  validatorManager := mockManager [modelAddress 0, modelAddress 1]
  key := modelKey 0

/-- Both validators have prepared the block of round 0; in round 1 the first proposes a block. -/
def pairProposal (b : RawBlock) : ProposalMessageSigned :=
  pairConfig.ownProposal { height := 1, round := 1 } b
    (some { roundChangeMessages := [0, 1].map fun signer =>
      (pairRoundChange 1 signer (pairPrepared 0 1 0 [7])).intoMetadata.2 })

/-- If it is the prepared block, the proposal is accepted and justified. -/
theorem justifies_kept : (pairProposal [7]).certificates ≠ [] ∧
    (∀ pc ∈ (pairProposal [7]).certificates, pc.proposalMeta.view.round = 0) ∧
    proposal1VerifyFn pairConfig (modelEnv []) 2 (pairProposal [7]) = .ok () ∧
      Justifies pairConfig (pairProposal [7]) := by
  have hround : (pairProposal [7]).view.round ≠ 0 := by decide +kernel
  refine ⟨by decide +kernel, by decide +kernel, by decide +kernel,
    (justifies_iff hround).mpr fun hreplaces => ?_⟩
  have hsome : ∃ pc ∈ (pairProposal [7]).certificates,
      verifyPreparedCertificate pairConfig pc 1 1 = true ∧
        digestBlock modelCrypto [7] pc.proposalMeta.view.round =
          pc.proposalMeta.proposedBlockDigest := by
    decide +kernel
  obtain ⟨pc, hpc, hvalid, hblock⟩ := hsome
  exact hreplaces.none_for pc hpc hvalid hblock

/-- Another block is accepted too, though the certificates are for the prepared one. -/
theorem not_justifies_replacing : (pairProposal [8]).view.round ≠ 0 ∧
    proposal1VerifyFn pairConfig (modelEnv []) 2 (pairProposal [8]) = .ok () ∧
      (∀ pc ∈ (pairProposal [8]).certificates,
        verifyPreparedCertificate pairConfig pc 1 1 = true ∧ ¬ pc.IsFor modelCrypto
          (pairProposal [8])) ∧
      ¬ Justifies pairConfig (pairProposal [8]) := by
  have hok : proposal1VerifyFn pairConfig (modelEnv []) 2 (pairProposal [8]) = .ok () := by
    decide +kernel
  have hother : ∀ pc ∈ (pairProposal [8]).certificates,
      verifyPreparedCertificate pairConfig pc 1 1 = true ∧
        ¬ digestBlock modelCrypto [8] pc.proposalMeta.view.round =
          pc.proposalMeta.proposedBlockDigest := by
    decide +kernel
  refine ⟨by decide +kernel, hok, hother, fun h => ?_⟩
  have hnil := h.fresh (modelEnv []) hok fun pc hpc => (hother pc hpc).2
  exact absurd hnil (by decide +kernel)

/-! ## The block that the proposer takes over -/

/-- The prepared blocks of a list of round changes, in its order. -/
def preparedBlocks (rcs : List RoundChangeMessageSigned) : List PreparedProposed :=
  rcs.filterMap RoundChangeMessageSigned.latestPreparedProposed

/-- The round of the certificate that goes with a prepared block. -/
def PreparedProposed.certificateRound (pp : PreparedProposed) : UInt8 :=
  pp.preparedCertificate.proposalMeta.view.round

variable (cfg) in
/-- A quorum of round changes for the view, of different validators, that their verify function
accepts. -/
structure TakenRoundChanges (view : View) (rcs : List RoundChangeMessageSigned) : Prop where
  quorum_le : cfg.validatorManager.quorum view.height ≤ rcs.length
  signed : ∃ validators : List Address, validators.Nodup ∧
    List.Forall₂ (fun rc a => rc.view = view ∧ rc.recoverSigner cfg.crypto = .ok a ∧
      cfg.validatorManager.isValidator a view.height = true) rcs validators
  verified : ∀ rc ∈ rcs, roundChangeVerifyFn cfg view.height rc = true

/-- The order in which the certificate lists the round changes: the first with a prepared block is
moved to the end. -/
def certificateOrder (rcs : List RoundChangeMessageSigned) : List RoundChangeMessageSigned :=
  match rcs.findIdx? (fun rc => rc.latestPreparedProposed.isSome) with
  | some pos => swapRemove rcs pos ++ rcs[pos]?.toList
  | none => rcs

/-- The first of the prepared blocks whose certificates have the highest round. -/
def IsLatest (pps : List PreparedProposed) (pp : PreparedProposed) : Prop :=
  ∃ before after, pps = before ++ pp :: after ∧
    (∀ q ∈ before, q.certificateRound < pp.certificateRound) ∧
    ∀ q ∈ after, q.certificateRound ≤ pp.certificateRound

variable (cfg) in
/-- What the proposer promises: its certificate lists the round changes once each with their
signers, its block is one of the highest certificate, and every validator that accepts the block
accepts the proposal. -/
structure ProposerAgrees (view : View) (rcs : List RoundChangeMessageSigned)
    (rcc : RoundChangeCertificate) (rawBlock : Option RawBlock) : Prop where
  perm : rcc.roundChangeMessages.Perm (rcs.map fun rc => rc.intoMetadata.2)
  signers : ∀ rc ∈ rcs, rc.intoMetadata.2.recoverSigner cfg.crypto = rc.recoverSigner cfg.crypto
  none_iff : rawBlock = none ↔ preparedBlocks rcs = []
  highest : ∀ b, rawBlock = some b → ∃ pp ∈ preparedBlocks rcs, pp.proposedBlock.rawBlock = b ∧
    ∀ q ∈ preparedBlocks rcs, q.certificateRound ≤ pp.certificateRound
  accepted : ∀ (key : SecretKey) (env : Env) (built : RawBlock), env.verifyBlock built = .ok () →
    (∀ pp ∈ preparedBlocks rcs, env.verifyBlock pp.proposedBlock.rawBlock = .ok ()) →
    proposalVerifyFn { cfg with key } env view
      (cfg.ownProposal view (rawBlock.getD built) (some rcc)) = .ok ()

/-- The first prepared block is, unless all certificates are of round 0, the one that the check
looks for, and it is for the round of its certificate. -/
def FirstIsLatest (rcs : List RoundChangeMessageSigned) : Prop :=
  ∀ first, (preparedBlocks rcs).head? = some first →
    ∃ latest, IsLatest (preparedBlocks (certificateOrder rcs)) latest ∧
      (latest.certificateRound = 0 ∨
        latest.proposedBlock = { rawBlock := first.proposedBlock.rawBlock
                                 round := latest.certificateRound })

/-- What is hashed to compare the blocks of the round changes. -/
def comparedBlocks (rcs : List RoundChangeMessageSigned) : List SignedContent :=
  (preparedBlocks rcs).flatMap fun pp =>
    .block pp.proposedBlock.rawBlock pp.proposedBlock.round ::
      (preparedBlocks rcs).map fun q => .block pp.proposedBlock.rawBlock q.certificateRound

/-- Moving an element to the end of a list by `swap_remove` keeps all elements. -/
theorem swapRemove_append_perm {α : Type} {xs : List α} {pos : ℕ} (h : pos < xs.length) :
    (swapRemove xs pos ++ [xs[pos]]).Perm xs := by
  obtain ⟨before, after, hxs, hlen⟩ : ∃ before after, xs = before ++ xs[pos] :: after ∧
      before.length = pos := by
    refine ⟨xs.take pos, xs.drop (pos + 1), ?_, by simp; omega⟩
    rw [List.getElem_cons_drop, List.take_append_drop]
  generalize xs[pos] = x at hxs ⊢
  subst hxs hlen
  rcases List.eq_nil_or_concat after with rfl | ⟨after, last, rfl⟩
  · simp [swapRemove]
  · have hlist : before ++ x :: after.concat last = (before ++ x :: after) ++ [last] := by
      rw [List.concat_eq_append, List.append_assoc, List.cons_append]
    have hlt : before.length < (before ++ x :: after).length := by simp
    have hswap : swapRemove (before ++ x :: after.concat last) before.length =
        before ++ last :: after := by
      unfold swapRemove
      rw [hlist, List.getLast?_concat]
      simp only
      rw [List.set_append_left _ _ hlt, List.dropLast_concat, List.set_append_right _ _ le_rfl,
        Nat.sub_self, List.set_cons_zero]
    rw [hswap, List.append_assoc, List.concat_eq_append]
    refine List.Perm.append_left before ?_
    calc (last :: after) ++ [x]
        _ |>.Perm (x :: last :: after) := List.perm_append_singleton x _
        _ |>.Perm (x :: (after ++ [last])) := (List.perm_append_singleton last after).symm.cons x

/-- What the proposer puts together. -/
theorem composeRoundChangeCertificate_eq (rcs : List RoundChangeMessageSigned) :
    composeRoundChangeCertificate rcs =
      .ok ({ roundChangeMessages := (certificateOrder rcs).map fun rc => rc.intoMetadata.2 },
        (preparedBlocks rcs).head?.map fun pp => pp.proposedBlock.rawBlock) := by
  unfold composeRoundChangeCertificate certificateOrder
  cases hpos : rcs.findIdx? (fun rc => rc.latestPreparedProposed.isSome) with
  | none =>
    have hnone : preparedBlocks rcs = [] := by
      rw [preparedBlocks, List.filterMap_eq_nil_iff]
      intro rc hrc
      simpa using List.findIdx?_eq_none_iff.mp hpos rc hrc
    rw [hnone]
    rfl
  | some pos =>
    obtain ⟨hlt, hsome, hbefore⟩ := List.findIdx?_eq_some_iff_getElem.mp hpos
    obtain ⟨pp, hpp⟩ := Option.isSome_iff_exists.mp hsome
    have hhead : (preparedBlocks rcs).head? = some pp := by
      rw [preparedBlocks, List.head?_filterMap, List.findSome?_eq_some_iff]
      refine ⟨rcs.take pos, rcs[pos], rcs.drop (pos + 1), ?_, hpp, fun rc hrc => ?_⟩
      · rw [List.getElem_cons_drop, List.take_append_drop]
      · obtain ⟨j, hj, rfl⟩ := List.getElem_of_mem hrc
        rw [List.getElem_take]
        have hjpos : j < pos := by
          rw [List.length_take] at hj
          omega
        simpa using hbefore j hjpos
    have hmeta : rcs[pos].intoMetadata =
        (some pp.proposedBlock, rcs[pos].intoMetadata.2) :=
      Prod.ext (congrArg (Option.map PreparedProposed.proposedBlock) hpp) rfl
    simp only
    rw [hhead, List.getElem?_eq_getElem hlt, Option.map_some, hmeta]
    simp only
    rw [List.map_append]
    rfl

theorem certificateOrder_perm (rcs : List RoundChangeMessageSigned) :
    (certificateOrder rcs).Perm rcs := by
  unfold certificateOrder
  cases hpos : rcs.findIdx? (fun rc => rc.latestPreparedProposed.isSome) with
  | none => exact List.Perm.refl _
  | some pos =>
    obtain ⟨hlt, -⟩ := List.findIdx?_eq_some_iff_getElem.mp hpos
    simp only
    rw [List.getElem?_eq_getElem hlt]
    exact swapRemove_append_perm hlt

/-! ### The latest prepared block -/

theorem IsLatest.mem {pps : List PreparedProposed} {pp : PreparedProposed} (h : IsLatest pps pp) :
    pp ∈ pps := by
  obtain ⟨before, after, rfl, -⟩ := h
  exact List.mem_append_right _ List.mem_cons_self

theorem IsLatest.le {pps : List PreparedProposed} {pp q : PreparedProposed} (h : IsLatest pps pp)
    (hq : q ∈ pps) : q.certificateRound ≤ pp.certificateRound := by
  obtain ⟨before, after, rfl, hbefore, hafter⟩ := h
  rcases List.mem_append.mp hq with hq | hq
  · exact UInt8.le_of_lt (hbefore q hq)
  · rcases List.mem_cons.mp hq with rfl | hq
    · exact UInt8.le_refl _
    · exact hafter q hq

theorem exists_isLatest {pps : List PreparedProposed} (h : pps ≠ []) : ∃ pp, IsLatest pps pp := by
  induction pps with
  | nil => exact absurd rfl h
  | cons pp pps ih =>
    rcases eq_or_ne pps [] with rfl | hne
    · exact ⟨pp, [], [], rfl, by simp, by simp⟩
    obtain ⟨latest, hlatest⟩ := ih hne
    by_cases hlt : pp.certificateRound < latest.certificateRound
    · obtain ⟨before, after, rfl, hbefore, hafter⟩ := hlatest
      refine ⟨latest, pp :: before, after, rfl, fun q hq => ?_, hafter⟩
      rcases List.mem_cons.mp hq with rfl | hq
      · exact hlt
      · exact hbefore q hq
    · refine ⟨pp, [], pps, rfl, by simp, fun q hq => ?_⟩
      exact UInt8.le_trans (hlatest.le hq) (UInt8.not_lt.mp hlt)

/-- The loop over round changes sees their prepared certificates only. -/
theorem foldl_update_preparedBlocks (rcs : List RoundChangeMessageSigned) (highest : HighestRound) :
    (rcs.map fun rc => rc.intoMetadata.2.latestPreparedCertificate).foldl HighestRound.update
        highest =
      ((preparedBlocks rcs).map fun pp => some pp.preparedCertificate).foldl HighestRound.update
        highest := by
  induction rcs generalizing highest with
  | nil => rfl
  | cons rc rcs ih =>
    rw [List.map_cons, List.foldl_cons, ih]
    cases hpp : rc.latestPreparedProposed with
    | none =>
      have hnone : rc.intoMetadata.2.latestPreparedCertificate = none :=
        congrArg (Option.map PreparedProposed.preparedCertificate) hpp
      rw [hnone, preparedBlocks, preparedBlocks, List.filterMap_cons_none hpp]
      rfl
    | some pp =>
      have hsome : rc.intoMetadata.2.latestPreparedCertificate = some pp.preparedCertificate :=
        congrArg (Option.map PreparedProposed.preparedCertificate) hpp
      rw [hsome, preparedBlocks, preparedBlocks, List.filterMap_cons_some hpp]
      rfl

/-- Certificates below a round keep the maximum below it. -/
theorem HighestRound.foldl_update_lt {certs : List (Option PreparedCertificate)} {round : UInt8}
    (hcerts : ∀ pc, some pc ∈ certs → pc.proposalMeta.view.round < round)
    {highest : HighestRound} (hlt : highest.round < round) :
    (certs.foldl HighestRound.update highest).round < round := by
  induction certs generalizing highest with
  | nil => exact hlt
  | cons cert certs ih =>
    refine ih (fun pc hpc => hcerts pc (List.mem_cons_of_mem _ hpc)) ?_
    cases cert with
    | none => exact hlt
    | some pc =>
      unfold HighestRound.update
      simp only
      split
      · exact hcerts pc List.mem_cons_self
      · exact hlt

/-- The running maximum ends at the latest prepared block, unless its certificate is of round 0. -/
theorem foldl_update_of_isLatest {pps : List PreparedProposed} {latest : PreparedProposed}
    (h : IsLatest pps latest) :
    (pps.map fun pp => some pp.preparedCertificate).foldl HighestRound.update HighestRound.init =
      if latest.certificateRound = 0 then HighestRound.init
      else { round := latest.certificateRound, certificate := some latest.preparedCertificate } := by
  split
  next hzero =>
    refine HighestRound.foldl_update_of_le fun pc hpc => ?_
    obtain ⟨pp, hpp, heq⟩ := List.mem_map.mp hpc
    cases heq
    have hle := h.le hpp
    rw [hzero] at hle
    exact hle
  next hne =>
    -- Before the latest certificate all are of lower rounds, and after it of no higher one.
    obtain ⟨before, after, rfl, hbefore, hafter⟩ := h
    rw [List.map_append, List.map_cons, List.foldl_append, List.foldl_cons]
    have hpos : HighestRound.init.round < latest.certificateRound := by
      show (0 : UInt8) < latest.certificateRound
      exact UInt8.pos_iff_ne_zero.mpr hne
    have hearlier : ∀ pc, some pc ∈ before.map (fun pp => some pp.preparedCertificate) →
        pc.proposalMeta.view.round < latest.certificateRound := by
      intro pc hpc
      obtain ⟨pp, hpp, heq⟩ := List.mem_map.mp hpc
      cases heq
      exact hbefore pp hpp
    have hlt := HighestRound.foldl_update_lt hearlier hpos
    have hupdate : ∀ highest : HighestRound, highest.round < latest.certificateRound →
        highest.update (some latest.preparedCertificate) =
          { round := latest.certificateRound
            certificate := some latest.preparedCertificate } := fun _ hlt => if_pos hlt
    rw [hupdate _ hlt]
    refine HighestRound.foldl_update_of_le fun pc hpc => ?_
    obtain ⟨pp, hpp, heq⟩ := List.mem_map.mp hpc
    cases heq
    exact hafter pp hpp

/-! ### Proposer and verifier -/

section Agree

variable {view : View} {rcs : List RoundChangeMessageSigned}

/-- The proposal of a later round as its proposer signs it. -/
def Config.reproposal (cfg : Config) (view : View) (rcs : List RoundChangeMessageSigned)
    (rawBlock : RawBlock) : ProposalMessageSigned :=
  cfg.ownProposal view rawBlock
    (some { roundChangeMessages := (certificateOrder rcs).map fun rc => rc.intoMetadata.2 })

theorem highestOf_reproposal (b : RawBlock) :
    highestOf (cfg.reproposal view rcs b) =
      ((preparedBlocks (certificateOrder rcs)).map fun pp => some pp.preparedCertificate).foldl
        HighestRound.update HighestRound.init := by
  rw [← foldl_update_preparedBlocks]
  unfold highestOf
  congr 1
  exact List.map_map

theorem TakenRoundChanges.signer (h : TakenRoundChanges cfg view rcs)
    {rc : RoundChangeMessageSigned} (hrc : rc ∈ rcs) : rc.view = view := by
  obtain ⟨validators, -, hall⟩ := h.signed
  obtain ⟨a, -, hview, -⟩ := exists_mem_right_of_forall₂ hall hrc
  exact hview

/-- The prepared blocks of accepted round changes. -/
theorem TakenRoundChanges.prepared (h : TakenRoundChanges cfg view rcs) {pp : PreparedProposed}
    (hpp : pp ∈ preparedBlocks rcs) :
    pp.preparedCertificate.proposalMeta.proposedBlockDigest =
        digestBlock cfg.crypto pp.proposedBlock.rawBlock pp.proposedBlock.round ∧
      verifyPreparedCertificate cfg pp.preparedCertificate view.height view.round = true := by
  obtain ⟨rc, hrc, hsome⟩ := List.mem_filterMap.mp hpp
  have hverified := h.verified rc hrc
  unfold roundChangeVerifyFn at hverified
  rw [hsome] at hverified
  simp only at hverified
  split at hverified
  · cases hverified
  next hdigest =>
    rw [h.signer hrc] at hverified
    exact ⟨not_not.mp hdigest, hverified⟩

/-- The round changes behind the proposal are those of a quorum of validators. -/
theorem TakenRoundChanges.signedRoundChanges (h : TakenRoundChanges cfg view rcs)
    (key : SecretKey) (b : RawBlock) :
    SignedRoundChanges { cfg with key } (cfg.reproposal view rcs b) := by
  obtain ⟨validators, hnodup, hall⟩ := h.signed
  have hperm := certificateOrder_perm rcs
  obtain ⟨validators', hall', hperm'⟩ := List.perm_comp_forall₂ hperm hall
  refine ⟨ProposalMessage.verifyBlockDigest_new _ _ _ _ _, rfl, ?_, validators',
    hperm'.nodup_iff.mpr hnodup, ?_⟩
  · change _ ≤ ((certificateOrder rcs).map fun rc => rc.intoMetadata.2).length
    rw [List.length_map, hperm.length_eq]
    exact h.quorum_le
  · change List.Forall₂ _ ((certificateOrder rcs).map fun rc => rc.intoMetadata.2) _
    rw [List.forall₂_map_left_iff]
    exact hall'.imp fun rc a hrc => ⟨hrc.1, hrc.2.1, hrc.2.2⟩

theorem preparedBlocks_perm (rcs : List RoundChangeMessageSigned) :
    (preparedBlocks (certificateOrder rcs)).Perm (preparedBlocks rcs) :=
  (certificateOrder_perm rcs).filterMap _

/-- What a verifier accepts of the proposer. -/
theorem TakenRoundChanges.accepts_iff (h : TakenRoundChanges cfg view rcs)
    (hround : view.round ≠ 0) {latest : PreparedProposed}
    (hlatest : IsLatest (preparedBlocks (certificateOrder rcs)) latest) (key : SecretKey)
    (env : Env) (b : RawBlock) :
    proposalVerifyFn { cfg with key } env view (cfg.reproposal view rcs b) = .ok () ↔
      if latest.certificateRound = 0 then env.verifyBlock b = .ok ()
      else digestBlock cfg.crypto b latest.certificateRound =
        digestBlock cfg.crypto latest.proposedBlock.rawBlock latest.proposedBlock.round := by
  have hview : (cfg.reproposal view rcs b).view = view := rfl
  have hblock : (cfg.reproposal view rcs b).proposedBlock.rawBlock = b := rfl
  obtain ⟨hdigest, hvalid⟩ := h.prepared ((preparedBlocks_perm rcs).mem_iff.mp hlatest.mem)
  rw [proposalVerifyFn_of_round_ne hround]
  let ownCfg : Config := { cfg with key }
  let p : ProposalMessageSigned := cfg.reproposal view rcs b
  -- The verifier goes by the highest certificate, which is that of the latest block.
  have hiff :
      proposal1VerifyFn ownCfg env (ownCfg.validatorManager.quorum p.view.height) p = .ok () ↔ _ :=
    proposal1VerifyFn_iff
  rw [hview, hblock, highestOf_reproposal, foldl_update_of_isLatest hlatest] at hiff
  refine hiff.trans ?_
  have hsigned := h.signedRoundChanges key b
  split
  next =>
    constructor
    · rintro ⟨-, hnone, -⟩
      exact hnone rfl
    · intro hverify
      exact ⟨hsigned, fun _ => hverify, fun pc hpc => by cases hpc⟩
  next =>
    have hvalid' : verifyPreparedCertificate { cfg with key } latest.preparedCertificate
        view.height view.round = true :=
      verifyPreparedCertificate_iff.mpr ((verifyPreparedCertificate_iff.mp hvalid).congr rfl rfl)
    constructor
    · rintro ⟨-, -, hsome⟩
      exact (hsome _ rfl).1.trans hdigest
    · intro heq
      refine ⟨hsigned, (fun hnone => by cases hnone), fun pc hpc => ?_⟩
      cases hpc
      exact ⟨heq.trans hdigest.symm, hvalid'⟩

/-- With no prepared block a verifier accepts the block that it verifies. -/
theorem TakenRoundChanges.accepts_of_nil (h : TakenRoundChanges cfg view rcs)
    (hround : view.round ≠ 0) (hnil : preparedBlocks rcs = []) (key : SecretKey) {env : Env}
    {b : RawBlock} (hverify : env.verifyBlock b = .ok ()) :
    proposalVerifyFn { cfg with key } env view (cfg.reproposal view rcs b) = .ok () := by
  have hnil' : preparedBlocks (certificateOrder rcs) = [] :=
    List.perm_nil.mp (hnil ▸ preparedBlocks_perm rcs)
  have hhighest : highestOf (cfg.reproposal view rcs b) = HighestRound.init := by
    rw [highestOf_reproposal, hnil']
    rfl
  rw [proposalVerifyFn_of_round_ne hround]
  refine (proposal1VerifyFn_iff (p := cfg.reproposal view rcs b)).mpr
    ⟨h.signedRoundChanges key b, fun _ => hverify, fun pc hpc => ?_⟩
  rw [hhighest] at hpc
  cases hpc

theorem mem_comparedBlocks {pp q : PreparedProposed} (hpp : pp ∈ preparedBlocks rcs)
    (hq : q ∈ preparedBlocks rcs) :
    .block pp.proposedBlock.rawBlock pp.proposedBlock.round ∈ comparedBlocks rcs ∧
      .block pp.proposedBlock.rawBlock q.certificateRound ∈ comparedBlocks rcs :=
  ⟨List.mem_flatMap.mpr ⟨pp, hpp, List.mem_cons_self⟩,
    List.mem_flatMap.mpr ⟨pp, hpp, List.mem_cons_of_mem _ (List.mem_map.mpr ⟨q, hq, rfl⟩)⟩⟩

/-- **Proposer and verifiers agree** exactly when the first prepared block is the one of the
highest certificate, and for the round of it, or all certificates are of round 0. -/
theorem proposerAgrees_iff (hround : view.round ≠ 0) (htaken : TakenRoundChanges cfg view rcs)
    (hfree : cfg.crypto.CollisionFree {x | x ∈ comparedBlocks rcs}) :
    (∃ rcc rawBlock, composeRoundChangeCertificate rcs = .ok (rcc, rawBlock) ∧
      ProposerAgrees cfg view rcs rcc rawBlock) ↔ FirstIsLatest rcs := by
  have hperm := preparedBlocks_perm rcs
  constructor
  · rintro ⟨rcc, rawBlock, hcompose, hagrees⟩ first hfirst
    rw [composeRoundChangeCertificate_eq, hfirst] at hcompose
    cases hcompose
    have hne : preparedBlocks (certificateOrder rcs) ≠ [] := by
      intro hnil
      rw [hnil] at hperm
      rw [List.nil_perm.mp hperm] at hfirst
      cases hfirst
    obtain ⟨latest, hlatest⟩ := exists_isLatest hne
    refine ⟨latest, hlatest, or_iff_not_imp_left.mpr fun hpos => ?_⟩
    have haccepted := hagrees.accepted cfg.key
      { buildBlock := fun _ => .ok [], verifyBlock := fun _ => .ok (), hashRank := fun _ => 0 } []
      rfl (fun _ _ => rfl)
    have hdigest := (htaken.accepts_iff hround hlatest _ _ _).mp haccepted
    rw [if_neg hpos] at hdigest
    have hlatestMem := hperm.mem_iff.mp hlatest.mem
    have hfirstMem := List.mem_of_mem_head? hfirst
    have heq := hfree.eq_of_digest_eq (mem_comparedBlocks hfirstMem hlatestMem).2
      (mem_comparedBlocks hlatestMem hlatestMem).1 hdigest
    obtain ⟨hraw, hroundEq⟩ := SignedContent.block.inj heq
    rw [hraw, hroundEq]
  · intro hlatest
    refine ⟨_, _, composeRoundChangeCertificate_eq rcs, ?_⟩
    refine ⟨(certificateOrder_perm rcs).map _, fun rc _ => rfl, ?_, fun b hb => ?_,
      fun key env built hbuilt hverify => ?_⟩
    · rw [Option.map_eq_none_iff, List.head?_eq_none_iff]
    · obtain ⟨first, hfirst, rfl⟩ := Option.map_eq_some_iff.mp hb
      obtain ⟨latest, hislatest, hcases⟩ := hlatest first hfirst
      have hle : ∀ q ∈ preparedBlocks rcs, q.certificateRound ≤ latest.certificateRound :=
        fun q hq => hislatest.le (hperm.mem_iff.mpr hq)
      rcases hcases with hzero | hblock
      · rw [hzero] at hle
        exact ⟨first, List.mem_of_mem_head? hfirst, rfl,
          fun q hq => UInt8.le_trans (hle q hq) UInt8.zero_le⟩
      · exact ⟨latest, hperm.mem_iff.mp hislatest.mem, by rw [hblock], hle⟩
    · cases hfirst : (preparedBlocks rcs).head? with
      | none =>
        exact htaken.accepts_of_nil hround (List.head?_eq_none_iff.mp hfirst) key hbuilt
      | some first =>
        obtain ⟨latest, hislatest, hcases⟩ := hlatest first hfirst
        refine (htaken.accepts_iff hround hislatest key env _).mpr ?_
        split
        · exact hverify first (List.mem_of_mem_head? hfirst)
        next hpos =>
          rw [hcases.resolve_left hpos]
          rfl

end Agree

/-! ### Two validators with different blocks -/

/-- One validator has prepared a block in round 1, the other another block in round 2. -/
def pairRoundChanges : List RoundChangeMessageSigned :=
  [pairRoundChange 3 0 (pairPrepared 1 0 1 [7]), pairRoundChange 3 1 (pairPrepared 2 1 0 [8])]

/-- Both round changes are accepted, but the proposer takes the older block, and no verifier accepts
its proposal. -/
theorem not_proposerAgrees_pair : ({ height := 1, round := 3 } : View).round ≠ 0 ∧
    TakenRoundChanges pairConfig { height := 1, round := 3 } pairRoundChanges ∧
    ¬ ∃ rcc rawBlock, composeRoundChangeCertificate pairRoundChanges = .ok (rcc, rawBlock) ∧
      ProposerAgrees pairConfig { height := 1, round := 3 } pairRoundChanges rcc rawBlock := by
  refine ⟨by decide, ⟨by decide +kernel, ⟨[modelAddress 0, modelAddress 1], by decide +kernel,
    .cons (by decide +kernel) (.cons (by decide +kernel) .nil)⟩, by decide +kernel⟩, ?_⟩
  rintro ⟨rcc, rawBlock, hcompose, hagrees⟩
  rw [composeRoundChangeCertificate_eq] at hcompose
  cases hcompose
  have haccepted := hagrees.accepted (modelKey 1) (modelEnv []) [] rfl (fun _ _ => rfl)
  exact absurd haccepted (by decide +kernel)

/-- In the other order they agree. -/
theorem proposerAgrees_pair : ∃ rcc rawBlock,
    composeRoundChangeCertificate pairRoundChanges.reverse = .ok (rcc, rawBlock) ∧
      ProposerAgrees pairConfig { height := 1, round := 3 } pairRoundChanges.reverse rcc
        rawBlock := by
  have htaken : TakenRoundChanges pairConfig { height := 1, round := 3 }
      pairRoundChanges.reverse :=
    ⟨by decide +kernel, ⟨[modelAddress 1, modelAddress 0], by decide +kernel,
      .cons (by decide +kernel) (.cons (by decide +kernel) .nil)⟩, by decide +kernel⟩
  have hdistinct : ((comparedBlocks pairRoundChanges.reverse).dedup.map
      (SignedContent.digest modelCrypto)).Nodup := by
    decide +kernel
  have hfree : modelCrypto.CollisionFree {x | x ∈ comparedBlocks pairRoundChanges.reverse} :=
    Crypto.collisionFree_of_nodup (fun x hx => List.mem_dedup.mpr hx) hdistinct
  have hlatest : FirstIsLatest pairRoundChanges.reverse := by
    rintro first hfirst
    cases hfirst
    exact ⟨pairPrepared 2 1 0 [8], ⟨[pairPrepared 1 0 1 [7]], [], by decide +kernel,
      by decide +kernel, by simp⟩, Or.inr rfl⟩
  exact (proposerAgrees_iff (by decide) htaken hfree).mpr hlatest

end Tonic
