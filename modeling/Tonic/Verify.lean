/-
# The verify functions

`ibft.rs`: `verify_prepared_certificate`, `round_change_verify_fn`,
`proposal_1_verify_fn` and the closure `proposal_verify_fn` of `run_proposal_0`.
The loops that collect the signers seen so far are recursions over the message
list; for each of the two there is a lemma that says what a list passing it is.
-/
import Tonic.Backend

namespace Tonic

variable (cfg : Config)

/-! ## Prepared certificates -/

/-- The loop over the prepares of a certificate, with the validators seen so far. -/
def verifyPrepares (proposer : Address) (proposalView : View) (proposedBlockDigest : Digest) :
    List PrepareMessageSigned → List Address → Bool
  | [], _ => true
  | prepare :: prepares, seenValidators =>
    if proposalView ≠ prepare.view then false
    else if prepare.proposedBlockDigest ≠ proposedBlockDigest then false
    else
      match prepare.recoverSigner cfg.crypto with
      | .error _ => false
      | .ok validator =>
        if validator = proposer ∨
            cfg.validatorManager.isValidator validator proposalView.height = false then false
        else if validator ∈ seenValidators then false
        else verifyPrepares proposer proposalView proposedBlockDigest prepares
          (validator :: seenValidators)

def verifyPreparedCertificate (preparedCertificate : PreparedCertificate) (height : UInt64)
    (roundLimit : UInt8) : Bool :=
  let proposal := preparedCertificate.proposalMeta
  let proposalView := proposal.view
  if proposalView.height ≠ height ∨ roundLimit ≤ proposalView.round then false
  else
    match proposal.recoverSigner cfg.crypto with
    | .error _ => false
    | .ok proposer =>
      if cfg.validatorManager.isProposer proposer proposalView = false then false
      else
        let prepares := preparedCertificate.prepareMessages
        if prepares.length < cfg.validatorManager.quorum height - 1 then false
        else verifyPrepares cfg proposer proposalView proposal.proposedBlockDigest prepares []

/-- A prepare that counts towards a certificate of the given proposal, with its signer. -/
structure CountsFor (proposer : Address) (view : View) (digest : Digest)
    (prepare : PrepareMessageSigned) (validator : Address) : Prop where
  view_eq : prepare.view = view
  digest_eq : prepare.proposedBlockDigest = digest
  recover : prepare.recoverSigner cfg.crypto = .ok validator
  ne_proposer : validator ≠ proposer
  isValidator : cfg.validatorManager.isValidator validator view.height = true

variable {cfg}

/-- The loop accepts exactly the lists whose prepares all count and whose signers differ from
each other and from those seen before. -/
theorem verifyPrepares_iff {proposer : Address} {view : View} {digest : Digest}
    {prepares : List PrepareMessageSigned} {seen : List Address} :
    verifyPrepares cfg proposer view digest prepares seen = true ↔
      ∃ validators : List Address, validators.Nodup ∧ (∀ a ∈ validators, a ∉ seen) ∧
        List.Forall₂ (CountsFor cfg proposer view digest) prepares validators := by
  induction prepares generalizing seen with
  | nil =>
    constructor
    · intro _
      exact ⟨[], List.nodup_nil, by simp, List.Forall₂.nil⟩
    · intro _
      rfl
  | cons prepare prepares ih =>
    constructor
    · intro h
      rw [verifyPrepares] at h
      split at h
      · cases h
      split at h
      · cases h
      split at h
      · cases h
      next hview hdigest _ validator hrec =>
        split at h
        · cases h
        split at h
        · cases h
        next hval hseen =>
          obtain ⟨validators, hnodup, hfresh, hall⟩ := ih.mp h
          push Not at hval
          refine ⟨validator :: validators, List.nodup_cons.mpr ⟨fun hmem => ?_, hnodup⟩, ?_,
            List.Forall₂.cons
              ⟨(not_not.mp hview).symm, not_not.mp hdigest, hrec, hval.1, by simpa using hval.2⟩
              hall⟩
          · exact hfresh validator hmem List.mem_cons_self
          · intro a ha
            rcases List.mem_cons.mp ha with rfl | ha
            · exact hseen
            · exact fun hs => hfresh a ha (List.mem_cons_of_mem _ hs)
    · rintro ⟨_, hnodup, hfresh, hall⟩
      cases hall with
      | @cons _ validator _ validators hcount hall =>
        rw [List.nodup_cons] at hnodup
        rw [verifyPrepares, if_neg (by simp [hcount.view_eq]), if_neg (by simp [hcount.digest_eq]),
          hcount.recover]
        simp only
        rw [if_neg (by simp [hcount.ne_proposer, hcount.isValidator]),
          if_neg (hfresh validator List.mem_cons_self)]
        refine ih.mpr ⟨validators, hnodup.2, fun a ha hs => ?_, hall⟩
        rcases List.mem_cons.mp hs with rfl | hs
        · exact hnodup.1 ha
        · exact hfresh a (List.mem_cons_of_mem _ ha) hs

variable (cfg)

/-- What an accepted prepared certificate is. -/
structure ValidCertificate (pc : PreparedCertificate) (height : UInt64) (roundLimit : UInt8) :
    Prop where
  height_eq : pc.proposalMeta.view.height = height
  round_lt : pc.proposalMeta.view.round < roundLimit
  proposed : ∃ proposer validators, pc.proposalMeta.recoverSigner cfg.crypto = .ok proposer ∧
    cfg.validatorManager.isProposer proposer pc.proposalMeta.view = true ∧
    cfg.validatorManager.quorum height - 1 ≤ pc.prepareMessages.length ∧
    validators.Nodup ∧
    List.Forall₂ (CountsFor cfg proposer pc.proposalMeta.view pc.proposalMeta.proposedBlockDigest)
      pc.prepareMessages validators

variable {cfg}

theorem verifyPreparedCertificate_iff {pc : PreparedCertificate} {height : UInt64}
    {roundLimit : UInt8} :
    verifyPreparedCertificate cfg pc height roundLimit = true ↔
      ValidCertificate cfg pc height roundLimit := by
  constructor
  · intro h
    rw [verifyPreparedCertificate] at h
    simp only at h
    split at h
    · cases h
    next hview =>
      rw [not_or, not_not, UInt8.not_le] at hview
      split at h
      · cases h
      next proposer hrec =>
        split at h
        · cases h
        next hprop =>
          split at h
          · cases h
          next hlen =>
            obtain ⟨validators, hnodup, -, hall⟩ := verifyPrepares_iff.mp h
            exact ⟨hview.1, hview.2, proposer, validators, hrec, by simpa using hprop,
              not_lt.mp hlen, hnodup, hall⟩
  · rintro ⟨hheight, hround, proposer, validators, hrec, hprop, hlen, hnodup, hall⟩
    rw [verifyPreparedCertificate]
    simp only
    rw [if_neg (by rw [not_or, not_not, UInt8.not_le]; exact ⟨hheight, hround⟩), hrec]
    simp only
    rw [if_neg (by simp [hprop]), if_neg (not_lt.mpr hlen)]
    exact verifyPrepares_iff.mpr ⟨validators, hnodup, by simp, hall⟩

/-- A certificate that holds under one round limit holds under every higher one. -/
theorem ValidCertificate.mono {pc : PreparedCertificate} {height : UInt64} {r r' : UInt8}
    (h : ValidCertificate cfg pc height r) (hle : r ≤ r') : ValidCertificate cfg pc height r' :=
  ⟨h.height_eq, UInt8.lt_of_lt_of_le h.round_lt hle, h.proposed⟩

/-- A certificate is valid to everyone with the same hash, signatures and validators. -/
theorem ValidCertificate.congr {cfg' : Config} {pc : PreparedCertificate} {height : UInt64}
    {roundLimit : UInt8} (h : ValidCertificate cfg pc height roundLimit)
    (hcrypto : cfg'.crypto = cfg.crypto)
    (hmanager : cfg'.validatorManager = cfg.validatorManager) :
    ValidCertificate cfg' pc height roundLimit := by
  obtain ⟨proposer, validators, hrec, hprop, hlen, hnodup, hall⟩ := h.proposed
  refine ⟨h.height_eq, h.round_lt, proposer, validators, ?_, ?_, ?_, hnodup, ?_⟩
  · rw [hcrypto]
    exact hrec
  · rw [hmanager]
    exact hprop
  · rw [hmanager]
    exact hlen
  · refine hall.imp fun _ _ hcount => ⟨hcount.view_eq, hcount.digest_eq, ?_, hcount.ne_proposer, ?_⟩
    · rw [hcrypto]
      exact hcount.recover
    · rw [hmanager]
      exact hcount.isValidator

/-! ## Round changes -/

variable (cfg)

def roundChangeVerifyFn (height : UInt64) (roundChange : RoundChangeMessageSigned) : Bool :=
  match roundChange.latestPreparedProposed with
  | none => true
  | some preparedProposed =>
    let preparedCertificate := preparedProposed.preparedCertificate
    let proposedBlockDigest := preparedProposed.proposedBlock.digest cfg.crypto
    if preparedCertificate.proposalMeta.proposedBlockDigest ≠ proposedBlockDigest then false
    else verifyPreparedCertificate cfg preparedCertificate height roundChange.view.round

/-! ## Proposals -/

/-- The verify function of `run_proposal_0`. -/
def proposal0VerifyFn (env : Env) (proposal : ProposalMessageSigned) : Except IBFTError Unit :=
  if proposal.verifyBlockDigest cfg.crypto = false then .error .incorrectProposalDigest
  else
    match env.verifyBlock proposal.proposedBlock.rawBlock with
    | .error err => .error (.invalidProposalBlock err)
    | .ok () => .ok ()

/-- The running maximum of the certificate loop: `highest_round` and `highest_round_pc`. -/
structure HighestRound where
  round : UInt8
  certificate : Option PreparedCertificate
  deriving DecidableEq

def HighestRound.init : HighestRound := { round := 0, certificate := none }

/-- A certificate replaces the running maximum only when its round is strictly greater. -/
def HighestRound.update (highest : HighestRound) : Option PreparedCertificate → HighestRound
  | none => highest
  | some pc =>
    if highest.round < pc.proposalMeta.view.round then
      { round := pc.proposalMeta.view.round, certificate := some pc }
    else highest

/-- The loop of `proposal_1_verify_fn` over the round changes of the certificate. -/
def verifyRoundChanges (proposalView : View) :
    List RoundChangeMetadata → List Address → HighestRound → Except IBFTError HighestRound
  | [], _, highest => .ok highest
  | roundChange :: roundChanges, seenValidators, highest =>
    if roundChange.view ≠ proposalView then .error .invalidRoundChangeInCertificate
    else
      match roundChange.recoverSigner cfg.crypto with
      | .error _ => .error .invalidRoundChangeInCertificate
      | .ok validator =>
        if cfg.validatorManager.isValidator validator proposalView.height = false then
          .error .invalidRoundChangeInCertificate
        else if validator ∈ seenValidators then .error .duplicateRoundChangeInCertificate
        else verifyRoundChanges proposalView roundChanges (validator :: seenValidators)
          (highest.update roundChange.latestPreparedCertificate)

/-- The certificate part of `proposal_1_verify_fn`: everything before the block check. -/
def verifyRoundChangeCertificate (quorum : ℕ) (proposal : ProposalMessageSigned) :
    Except IBFTError HighestRound :=
  if proposal.verifyBlockDigest cfg.crypto = false then .error .incorrectProposalDigest
  else
    match proposal.roundChangeCertificate with
    | none => .error .missingRoundChangeCertificate
    | some rcc =>
      let roundChanges := rcc.roundChangeMessages
      if roundChanges.length < quorum then .error .roundChangeCertificateQuorumNotReached
      else verifyRoundChanges cfg proposal.view roundChanges [] HighestRound.init

def proposal1VerifyFn (env : Env) (quorum : ℕ) (proposal : ProposalMessageSigned) :
    Except IBFTError Unit :=
  match verifyRoundChangeCertificate cfg quorum proposal with
  | .error err => .error err
  | .ok highest =>
    let proposalView := proposal.view
    let proposedBlock := proposal.proposedBlock
    match highest.certificate with
    | some pc =>
      -- The proposed block must correspond to the highest round prepared certificate.
      if digestBlock cfg.crypto proposedBlock.rawBlock highest.round
          ≠ pc.proposalMeta.proposedBlockDigest then
        .error .invalidRoundChangeInCertificate
      else if verifyPreparedCertificate cfg pc proposalView.height proposalView.round = false then
        .error .invalidRoundChangeInCertificate
      else .ok ()
    | none =>
      -- No certificate was kept: the newly proposed block is verified.
      match env.verifyBlock proposedBlock.rawBlock with
      | .error err => .error (.invalidProposalBlock err)
      | .ok () => .ok ()

/-- The verify function of a view: `run_proposal_0` and `run_proposal_1` each have their own. -/
def proposalVerifyFn (env : Env) (view : View) (proposal : ProposalMessageSigned) :
    Except IBFTError Unit :=
  if view.round = 0 then proposal0VerifyFn cfg env proposal
  else proposal1VerifyFn cfg env (cfg.validatorManager.quorum view.height) proposal

/-- Whether the verify function of the view gets as far as calling `verify_block`. -/
def callsVerifyBlock (view : View) (proposal : ProposalMessageSigned) : Bool :=
  if view.round = 0 then proposal.verifyBlockDigest cfg.crypto
  else
    match verifyRoundChangeCertificate cfg (cfg.validatorManager.quorum view.height) proposal with
    | .error _ => false
    | .ok highest => highest.certificate.isNone

/-! ## What an accepted certificate of round changes is -/

/-- The round changes in the certificate of a proposal. -/
def ProposalMessageSigned.roundChanges (p : ProposalMessageSigned) : List RoundChangeMetadata :=
  p.roundChangeCertificate.elim [] RoundChangeCertificate.roundChangeMessages

/-- The prepared certificates in the certificate of a proposal. -/
def ProposalMessageSigned.certificates (p : ProposalMessageSigned) : List PreparedCertificate :=
  p.roundChanges.filterMap RoundChangeMetadata.latestPreparedCertificate

/-- A round change in the certificate of a proposal, with its signer. -/
structure SignsRoundChange (view : View) (rc : RoundChangeMetadata) (validator : Address) :
    Prop where
  view_eq : rc.view = view
  recover : rc.recoverSigner cfg.crypto = .ok validator
  isValidator : cfg.validatorManager.isValidator validator view.height = true

/-- The certificate with the highest round, if there is one above round 0. -/
structure HighestRound.Of (highest : HighestRound) (pcs : List PreparedCertificate) : Prop where
  of_some : ∀ pc, highest.certificate = some pc →
    pc ∈ pcs ∧ highest.round = pc.proposalMeta.view.round
  of_none : highest.certificate = none → highest.round = 0
  le_round : ∀ pc ∈ pcs, pc.proposalMeta.view.round ≤ highest.round

variable {cfg}

theorem HighestRound.Of.update {highest : HighestRound} {pcs : List PreparedCertificate}
    (h : highest.Of pcs) (certificate : Option PreparedCertificate) :
    (highest.update certificate).Of (pcs ++ certificate.toList) := by
  cases certificate with
  | none =>
    rw [Option.toList_none, List.append_nil]
    exact h
  | some pc =>
    unfold HighestRound.update
    simp only [Option.toList_some]
    split
    next hlt =>
      refine ⟨fun pc' hpc => ?_, (fun hnone => by cases hnone), fun pc' hmem => ?_⟩
      · cases hpc
        exact ⟨List.mem_append_right _ List.mem_cons_self, rfl⟩
      · rcases List.mem_append.mp hmem with hmem | hmem
        · exact UInt8.le_of_lt (UInt8.lt_of_le_of_lt (h.le_round pc' hmem) hlt)
        · rw [List.mem_singleton.mp hmem]
          exact UInt8.le_refl _
    next hle =>
      refine ⟨fun pc' hpc => ?_, h.of_none, fun pc' hmem => ?_⟩
      · exact ⟨List.mem_append_left _ (h.of_some pc' hpc).1, (h.of_some pc' hpc).2⟩
      · rcases List.mem_append.mp hmem with hmem | hmem
        · exact h.le_round pc' hmem
        · rw [List.mem_singleton.mp hmem]
          exact UInt8.not_lt.mp hle

/-- The running maximum after further certificates. -/
theorem HighestRound.Of.foldl_update {highest : HighestRound} {pcs : List PreparedCertificate}
    (h : highest.Of pcs) (certs : List (Option PreparedCertificate)) :
    (certs.foldl HighestRound.update highest).Of (pcs ++ certs.filterMap id) := by
  induction certs generalizing highest pcs with
  | nil =>
    rw [List.filterMap_nil, List.append_nil]
    exact h
  | cons cert certs ih =>
    have hcons : (cert :: certs).filterMap id = cert.toList ++ certs.filterMap id := by
      cases cert <;> rfl
    rw [List.foldl_cons, hcons, ← List.append_assoc]
    exact ih (h.update cert)

/-- The loop over the round changes succeeds for round changes of different validators. -/
theorem verifyRoundChanges_iff {view : View} {rcs : List RoundChangeMetadata} {seen : List Address}
    {highest final : HighestRound} :
    verifyRoundChanges cfg view rcs seen highest = .ok final ↔
      (∃ validators : List Address, validators.Nodup ∧ (∀ a ∈ validators, a ∉ seen) ∧
        List.Forall₂ (SignsRoundChange cfg view) rcs validators) ∧
      final = (rcs.map RoundChangeMetadata.latestPreparedCertificate).foldl
        HighestRound.update highest := by
  induction rcs generalizing seen highest with
  | nil =>
    constructor
    · intro h
      cases h
      exact ⟨⟨[], List.nodup_nil, by simp, List.Forall₂.nil⟩, rfl⟩
    · rintro ⟨-, rfl⟩
      rfl
  | cons rc rcs ih =>
    constructor
    · intro h
      rw [verifyRoundChanges] at h
      split at h
      · cases h
      split at h
      · cases h
      next hview _ validator hrec =>
        split at h
        · cases h
        split at h
        · cases h
        next hval hseen =>
          obtain ⟨⟨validators, hnodup, hfresh, hall⟩, hfinal⟩ := ih.mp h
          refine ⟨⟨validator :: validators, List.nodup_cons.mpr ⟨fun hmem => ?_, hnodup⟩,
            fun a ha => ?_, .cons ⟨not_not.mp hview, hrec, by simpa using hval⟩ hall⟩, hfinal⟩
          · exact hfresh validator hmem List.mem_cons_self
          · rcases List.mem_cons.mp ha with rfl | ha
            · exact hseen
            · exact fun hs => hfresh a ha (List.mem_cons_of_mem _ hs)
    · rintro ⟨⟨_, hnodup, hfresh, hall⟩, hfinal⟩
      cases hall with
      | @cons _ validator _ validators hsigned hall =>
        obtain ⟨hnew, hnodup⟩ := List.nodup_cons.mp hnodup
        have hseen : validator ∉ seen := hfresh validator List.mem_cons_self
        have hfresh' : ∀ a ∈ validators, a ∉ validator :: seen := by
          intro a ha hs
          rcases List.mem_cons.mp hs with rfl | hs
          · exact hnew ha
          · exact hfresh a (List.mem_cons_of_mem _ ha) hs
        rw [verifyRoundChanges, if_neg (not_not.mpr hsigned.view_eq), hsigned.recover]
        simp only
        rw [if_neg (by simp [hsigned.isValidator]), if_neg hseen]
        exact ih.mpr ⟨⟨validators, hnodup, hfresh', hall⟩, hfinal⟩

variable (cfg) in
/-- The round changes of the proposal are those of enough different validators. -/
structure SignedRoundChanges (p : ProposalMessageSigned) : Prop where
  digest : p.verifyBlockDigest cfg.crypto = true
  isSome : p.roundChangeCertificate.isSome = true
  quorum_le : cfg.validatorManager.quorum p.view.height ≤ p.roundChanges.length
  signed : ∃ validators : List Address, validators.Nodup ∧
    List.Forall₂ (SignsRoundChange cfg p.view) p.roundChanges validators

/-- The running maximum after all round changes of the proposal. -/
def highestOf (p : ProposalMessageSigned) : HighestRound :=
  (p.roundChanges.map RoundChangeMetadata.latestPreparedCertificate).foldl HighestRound.update
    HighestRound.init

theorem highestOf_of (p : ProposalMessageSigned) : (highestOf p).Of p.certificates := by
  have hinit : HighestRound.init.Of [] :=
    ⟨(fun pc hpc => by cases hpc), (fun _ => rfl), (fun pc hpc => by cases hpc)⟩
  have hmax := hinit.foldl_update
    (p.roundChanges.map RoundChangeMetadata.latestPreparedCertificate)
  rw [List.filterMap_map, List.nil_append] at hmax
  exact hmax

/-- The checks before the block are passed exactly by round changes of enough validators. -/
theorem verifyRoundChangeCertificate_iff {p : ProposalMessageSigned} {highest : HighestRound} :
    verifyRoundChangeCertificate cfg (cfg.validatorManager.quorum p.view.height) p = .ok highest ↔
      SignedRoundChanges cfg p ∧ highest = highestOf p := by
  unfold verifyRoundChangeCertificate highestOf
  cases hrcc : p.roundChangeCertificate with
  | none =>
    constructor
    · intro h
      simp only at h
      split at h <;> cases h
    · rintro ⟨hsigned, -⟩
      have hsome := hsigned.isSome
      rw [hrcc] at hsome
      cases hsome
  | some rcc =>
    have hrcs : p.roundChanges = rcc.roundChangeMessages := by
      rw [ProposalMessageSigned.roundChanges, hrcc]
      rfl
    rw [hrcs]
    constructor
    · intro h
      split at h
      · cases h
      next hdigest =>
        simp only at h
        split at h
        · cases h
        next hlen =>
          obtain ⟨⟨validators, hnodup, -, hall⟩, hfinal⟩ := verifyRoundChanges_iff.mp h
          refine ⟨⟨by simpa using hdigest, by rw [hrcc]; rfl, ?_, validators, hnodup, ?_⟩, hfinal⟩
          · rw [hrcs]
            exact not_lt.mp hlen
          · rw [hrcs]
            exact hall
    · rintro ⟨hsigned, hfinal⟩
      obtain ⟨validators, hnodup, hall⟩ := hsigned.signed
      have hlen := hsigned.quorum_le
      rw [hrcs] at hall hlen
      rw [if_neg (by simp [hsigned.digest])]
      simp only
      rw [if_neg (not_lt.mpr hlen)]
      exact verifyRoundChanges_iff.mpr ⟨⟨validators, hnodup, by simp, hall⟩, hfinal⟩

variable (cfg) in
/-- The certificate of an accepted proposal: round changes of a quorum of validators, and the
highest of the prepared certificates among them. -/
structure RoundChangesFor (p : ProposalMessageSigned) (validators : List Address)
    (highest : HighestRound) : Prop where
  quorum_le : cfg.validatorManager.quorum p.view.height ≤ p.roundChanges.length
  nodup : validators.Nodup
  signed : List.Forall₂ (SignsRoundChange cfg p.view) p.roundChanges validators
  highest_of : highest.Of p.certificates

theorem verifyRoundChangeCertificate_ok {p : ProposalMessageSigned} {highest : HighestRound}
    (h : verifyRoundChangeCertificate cfg (cfg.validatorManager.quorum p.view.height) p =
      .ok highest) : ∃ validators, RoundChangesFor cfg p validators highest := by
  obtain ⟨hsigned, rfl⟩ := verifyRoundChangeCertificate_iff.mp h
  obtain ⟨validators, hnodup, hall⟩ := hsigned.signed
  exact ⟨validators, hsigned.quorum_le, hnodup, hall, highestOf_of p⟩

/-- A proposal that the verify function of its view accepts: its block was checked, or it is the
block of the highest certificate it carries, which is a valid one. -/
theorem proposalVerifyFn_ok {env : Env} {p : ProposalMessageSigned}
    (h : proposalVerifyFn cfg env p.view p = .ok ()) :
    (p.view.round = 0 ∧ callsVerifyBlock cfg p.view p = true) ∨
      (p.view.round ≠ 0 ∧ ∃ validators highest, RoundChangesFor cfg p validators highest ∧
        ((highest.certificate = none ∧ callsVerifyBlock cfg p.view p = true) ∨
          ∃ pc, highest.certificate = some pc ∧
            digestBlock cfg.crypto p.proposedBlock.rawBlock pc.proposalMeta.view.round =
              pc.proposalMeta.proposedBlockDigest ∧
            ValidCertificate cfg pc p.view.height p.view.round)) := by
  unfold proposalVerifyFn at h
  split at h
  next hround =>
    refine Or.inl ⟨hround, ?_⟩
    unfold proposal0VerifyFn at h
    split at h
    · cases h
    next hdigest =>
      rw [callsVerifyBlock, if_pos hround]
      simpa using hdigest
  next hround =>
    refine Or.inr ⟨hround, ?_⟩
    unfold proposal1VerifyFn at h
    split at h
    · cases h
    next highest hok =>
      obtain ⟨validators, hfor⟩ := verifyRoundChangeCertificate_ok hok
      refine ⟨validators, highest, hfor, ?_⟩
      simp only at h
      split at h
      next pc hpc =>
        split at h
        · cases h
        split at h
        · cases h
        next hdigest hvalid =>
          refine Or.inr ⟨pc, hpc, ?_, verifyPreparedCertificate_iff.mp (by simpa using hvalid)⟩
          rw [← (hfor.highest_of.of_some pc hpc).2]
          exact not_not.mp hdigest
      next hnone =>
        refine Or.inl ⟨hnone, ?_⟩
        rw [callsVerifyBlock, if_neg hround, hok]
        simp [hnone]

end Tonic
