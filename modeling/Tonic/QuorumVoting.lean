/-
# Quorums, votes and locks

A small library about voting in rounds with quorums.  It names nothing of any
program: participants, values and blocks are arbitrary types.

A `QuorumSystem` is a set of members, some of them Byzantine, and a quorum size such
that two quorums share a member that is not.  `Votes` is what the honest
participants did: who proposed, prepared and committed which value in which round,
and which certificate each of them announced when it asked for a later round.  A
certificate of a round is a quorum whose honest members voted for the value.

Three results are built on rules about the honest participants only: a round has one
certified value, a certified value is valid when the certificates behind it are older,
and a committed value stays locked through later rounds, so that two decisions agree.
-/
import Mathlib

/-! ## Quorums -/

/-- Members, the Byzantine ones among them, and a quorum size. -/
structure QuorumSystem (P : Type*) where
  members : Finset P
  byzantine : Finset P
  quorum : ℕ
  /-- Two quorums have more than the Byzantine members in common. -/
  intersect : members.card + byzantine.card < 2 * quorum

namespace QuorumSystem

variable {P : Type*} [DecidableEq P] (Q : QuorumSystem P)

/-- A set of members that reaches the quorum size. -/
def IsQuorum (S : Finset P) : Prop := S ⊆ Q.members ∧ Q.quorum ≤ S.card

variable {Q}

/-- More members than there are Byzantine ones include an honest one. -/
theorem exists_honest_mem {S : Finset P} (hcard : Q.byzantine.card < S.card) :
    ∃ p ∈ S, p ∉ Q.byzantine := by
  obtain ⟨p, hp⟩ := Finset.card_pos.mp (lt_of_lt_of_le (Nat.sub_pos_of_lt hcard)
    (Finset.le_card_sdiff Q.byzantine S))
  exact ⟨p, (Finset.mem_sdiff.mp hp).1, (Finset.mem_sdiff.mp hp).2⟩

/-- **Quorum intersection**: two quorums share an honest member. -/
theorem IsQuorum.exists_honest_mem_inter {S T : Finset P} (hS : Q.IsQuorum S)
    (hT : Q.IsQuorum T) : ∃ p ∈ S, p ∈ T ∧ p ∉ Q.byzantine := by
  have hunion : (S ∪ T).card ≤ Q.members.card :=
    Finset.card_le_card (Finset.union_subset hS.1 hT.1)
  have hcards := Finset.card_union_add_card_inter S T
  have hbig : Q.byzantine.card < (S ∩ T).card := by
    have := Q.intersect
    have := hS.2
    have := hT.2
    omega
  obtain ⟨p, hp, hhonest⟩ := exists_honest_mem hbig
  exact ⟨p, (Finset.mem_inter.mp hp).1, (Finset.mem_inter.mp hp).2, hhonest⟩

theorem IsQuorum.exists_honest {S : Finset P} (hS : Q.IsQuorum S) : ∃ p ∈ S, p ∉ Q.byzantine := by
  obtain ⟨p, hp, -, hhonest⟩ := hS.exists_honest_mem_inter hS
  exact ⟨p, hp, hhonest⟩

variable (P) in
/-- More than two thirds of the members, with less than a third of them Byzantine. -/
def ofTwoThirds (members byzantine : Finset P) (hpos : 0 < members.card)
    (hbyz : byzantine.card ≤ (members.card - 1) / 3) : QuorumSystem P where
  members
  byzantine
  quorum := 2 * members.card / 3 + 1
  intersect := by omega

/-- From two members on, one vote less than two thirds is still more than all Byzantine votes. -/
theorem byzantine_lt_quorum_sub_one {n b : ℕ} (hn : 2 ≤ n) (hb : b ≤ (n - 1) / 3) :
    b < 2 * n / 3 + 1 - 1 := by
  omega

end QuorumSystem

/-! ## Votes of the honest participants -/

/-- What the honest participants did in each round. -/
structure Votes (P D : Type*) where
  proposed : ℕ → P → D → Prop
  prepared : ℕ → P → D → Prop
  committed : ℕ → P → D → Prop
  /-- Asking for a round, with the round and the value of the latest certificate, if any. -/
  announced : ℕ → P → Option (ℕ × D) → Prop

namespace Votes

variable {P D B : Type*} [DecidableEq P] (Q : QuorumSystem P) (votes : Votes P D)

/-- A vote for a value is its proposal or its preparation. -/
def Voted (r : ℕ) (p : P) (d : D) : Prop := votes.proposed r p d ∨ votes.prepared r p d

/-- A quorum whose honest members voted for the value. -/
def Certified (r : ℕ) (d : D) : Prop :=
  ∃ S, Q.IsQuorum S ∧ ∀ p ∈ S, p ∉ Q.byzantine → votes.Voted r p d

/-- A quorum whose honest members committed the value. -/
def Decided (r : ℕ) (d : D) : Prop :=
  ∃ S, Q.IsQuorum S ∧ ∀ p ∈ S, p ∉ Q.byzantine → votes.committed r p d

/-- The rules of voting within a round: an honest participant votes for one value, and commits
only a certified one. -/
structure RoundRules : Prop where
  vote_unique : ∀ r p d d', p ∉ Q.byzantine → votes.Voted r p d → votes.Voted r p d' → d = d'
  certified_of_committed : ∀ r p d, p ∉ Q.byzantine → votes.committed r p d →
    votes.Certified Q r d

section Rounds

variable {Q votes}

/-- **Uniqueness**: a round has one certified value. -/
theorem Certified.unique (rules : votes.RoundRules Q) {r : ℕ} {d d' : D}
    (h : votes.Certified Q r d) (h' : votes.Certified Q r d') : d = d' := by
  obtain ⟨S, hS, hvoted⟩ := h
  obtain ⟨T, hT, hvoted'⟩ := h'
  obtain ⟨p, hpS, hpT, hhonest⟩ := hS.exists_honest_mem_inter hT
  exact rules.vote_unique r p d d' hhonest (hvoted p hpS hhonest) (hvoted' p hpT hhonest)

theorem Decided.certified (rules : votes.RoundRules Q) {r : ℕ} {d : D}
    (h : votes.Decided Q r d) : votes.Certified Q r d := by
  obtain ⟨S, hS, hcommitted⟩ := h
  obtain ⟨p, hp, hhonest⟩ := hS.exists_honest
  exact rules.certified_of_committed r p d hhonest (hcommitted p hp hhonest)

end Rounds

/-! ## Validity -/

/-- What a preparation rests on: a check of the block itself, or an older certificate for the
same block. -/
structure ValidityRules (block : D → B) (Valid : B → Prop) : Prop where
  /-- The honest votes of a certificate include a preparation. -/
  exists_prepared : ∀ r d, votes.Certified Q r d → ∃ p, p ∉ Q.byzantine ∧ votes.prepared r p d
  prepared_valid : ∀ r p d, p ∉ Q.byzantine → votes.prepared r p d →
    Valid (block d) ∨ ∃ r' d', r' < r ∧ votes.Certified Q r' d' ∧ block d' = block d

section Validity

variable {Q votes} {block : D → B} {Valid : B → Prop}

omit [DecidableEq P] in
/-- **Validity**: the block of a certified value was found valid.  Certificates are traced back to
older ones, down to a round in which the block itself was checked. -/
theorem Certified.valid (rules : votes.ValidityRules Q block Valid) {r : ℕ} {d : D}
    (h : votes.Certified Q r d) : Valid (block d) := by
  induction r using Nat.strong_induction_on generalizing d with
  | _ r ih =>
    obtain ⟨p, hhonest, hprepared⟩ := rules.exists_prepared r d h
    rcases rules.prepared_valid r p d hhonest hprepared with hvalid | ⟨r', d', hlt, hcert, hblock⟩
    · exact hvalid
    · rw [← hblock]
      exact ih r' hlt hcert

end Validity

/-! ## Locks -/

/-- A preparation in a round is justified by a quorum of announcements: the latest certificate
among them, if there is one, is for the same block. -/
def Justified (block : D → B) (r : ℕ) (d : D) : Prop :=
  ∃ (T : Finset P) (latest : P → Option (ℕ × D)), Q.IsQuorum T ∧
    (∀ p ∈ T, p ∉ Q.byzantine → votes.announced r p (latest p)) ∧
    ((∀ p ∈ T, latest p = none) ∨
      ∃ p ∈ T, ∃ r' d', latest p = some (r', d') ∧ r' < r ∧ votes.Certified Q r' d' ∧
        block d' = block d ∧ ∀ p' ∈ T, ∀ r'' d'', latest p' = some (r'', d'') → r'' ≤ r')

/-- The rules of locking: preparations in later rounds are justified, and who has committed
announces a certificate at least as recent. -/
structure LockRules (block : D → B) : Prop extends votes.RoundRules Q where
  exists_prepared : ∀ r d, votes.Certified Q r d → ∃ p, p ∉ Q.byzantine ∧ votes.prepared r p d
  prepared_justified : ∀ r p d, p ∉ Q.byzantine → r ≠ 0 → votes.prepared r p d →
    votes.Justified Q block r d
  announced_locked : ∀ r r' p d latest, p ∉ Q.byzantine → votes.committed r p d → r < r' →
    votes.announced r' p latest → ∃ r'' d'', latest = some (r'', d'') ∧ r ≤ r''

section Locks

variable {Q votes} {block : D → B}

/-- **Locking**: after a decision, honest participants prepare only its block. -/
theorem Decided.locks (rules : votes.LockRules Q block) {r₁ : ℕ} {d₁ : D}
    (h : votes.Decided Q r₁ d₁) {r : ℕ} (hlt : r₁ < r) {p : P} {d : D}
    (hhonest : p ∉ Q.byzantine) (hprepared : votes.prepared r p d) : block d = block d₁ := by
  induction r using Nat.strong_induction_on generalizing p d with
  | _ r ih =>
    obtain ⟨T, latest, hT, hannounced, hcases⟩ :=
      rules.prepared_justified r p d hhonest (Nat.ne_zero_of_lt hlt) hprepared
    -- Someone honest both committed in the decided round and announced for this one.
    obtain ⟨S, hS, hcommitted⟩ := h
    obtain ⟨p₀, hpS, hpT, hp₀⟩ := hS.exists_honest_mem_inter hT
    obtain ⟨r₂, d₂, hlatest, hle⟩ := rules.announced_locked r₁ r p₀ d₁ (latest p₀) hp₀
      (hcommitted p₀ hpS hp₀) hlt (hannounced p₀ hpT hp₀)
    rcases hcases with hnone | ⟨p', -, r', d', -, hr', hcert, hblock, hmax⟩
    · rw [hnone p₀ hpT] at hlatest
      cases hlatest
    · rw [← hblock]
      rcases Nat.lt_or_eq_of_le (hle.trans (hmax p₀ hpT r₂ d₂ hlatest)) with hlt' | rfl
      · obtain ⟨p'', hhonest'', hprepared''⟩ := rules.exists_prepared r' d' hcert
        exact ih r' hr' hlt' hhonest'' hprepared''
      · have hcert₁ := Decided.certified rules.toRoundRules ⟨S, hS, hcommitted⟩
        rw [hcert.unique rules.toRoundRules hcert₁]

/-- **Agreement**: two decisions are about the same block. -/
theorem Decided.agree (rules : votes.LockRules Q block) {r₁ r₂ : ℕ} {d₁ d₂ : D}
    (h₁ : votes.Decided Q r₁ d₁) (h₂ : votes.Decided Q r₂ d₂) : block d₁ = block d₂ := by
  have hlater : ∀ {r r' : ℕ} {d d' : D}, votes.Decided Q r d → votes.Decided Q r' d' → r < r' →
      block d' = block d := by
    intro r r' d d' h h' hlt
    obtain ⟨p, hhonest, hprepared⟩ := rules.exists_prepared r' d' (h'.certified rules.toRoundRules)
    exact h.locks rules hlt hhonest hprepared
  rcases Nat.lt_trichotomy r₁ r₂ with hlt | rfl | hlt
  · exact (hlater h₁ h₂ hlt).symm
  · have hcert₁ := h₁.certified rules.toRoundRules
    have hcert₂ := h₂.certified rules.toRoundRules
    rw [hcert₁.unique rules.toRoundRules hcert₂]
  · exact hlater h₂ h₁ hlt

end Locks

end Votes
