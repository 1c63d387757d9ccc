/-
# What the operations of the message store do

One group of lemmas for each operation of `ConsensusMessages`: what is stored
afterwards, and what the returned value says about what was stored.  Later modules
cite these and never unfold an operation.

Most operations only take entries away.  `SubStore` is that relation; the two
caches (the verification result of a proposal, the flag of a round change) may
change meanwhile, and the lemmas that speak of them are separate.
-/
import Tonic.MessageHandler

namespace Tonic

/-- Every message stored in `msgs'` is stored in `msgs`. -/
structure SubStore (msgs msgs' : ConsensusMessages) : Prop where
  selfAddress : msgs'.selfAddress = msgs.selfAddress
  proposal : ∀ v p, msgs'.storedProposal v = some p → msgs.storedProposal v = some p
  prepare : ∀ k p, msgs'.prepareMessages.Stores k p → msgs.prepareMessages.Stores k p
  commit : ∀ k p, msgs'.commitMessages.Stores k p → msgs.commitMessages.Stores k p
  roundChange : ∀ k p f, msgs'.roundChangeMessages.Stores k (p, f) →
    ∃ f', msgs.roundChangeMessages.Stores k (p, f')

theorem SubStore.refl (msgs : ConsensusMessages) : SubStore msgs msgs :=
  ⟨rfl, fun _ _ h => h, fun _ _ h => h, fun _ _ h => h, fun _ _ f h => ⟨f, h⟩⟩

namespace ConsensusMessages

variable {msgs : ConsensusMessages}

/-! ## The entries of a view -/

section Views

variable {T : Type} {m : FirstWinsMap (View × Address) T} {v w : View} {a : Address} {t : T}

theorem mem_viewEntries : (a, t) ∈ viewEntries m v ↔ m.Stores (v, a) t := by
  rw [viewEntries, FirstWinsMap.mem_select]
  constructor
  · rintro ⟨⟨w, b⟩, s, hst, heq⟩
    split at heq
    next hw =>
      cases heq
      cases hw
      exact hst
    next => cases heq
  · intro h
    exact ⟨(v, a), t, h, if_pos rfl⟩

/-- A view lists every sender once. -/
theorem nodup_viewEntries : ((viewEntries m v).map Prod.fst).Nodup := by
  have hmap : (viewEntries m v).map Prod.fst =
      m.select (fun key _ => if key.1 = v then some key.2 else none) := by
    rw [viewEntries, FirstWinsMap.select, FirstWinsMap.select, List.map_filterMap]
    congr 1
    funext e
    by_cases h : e.1.1 = v <;> simp [h]
  rw [hmap]
  apply FirstWinsMap.nodup_select
  rintro ⟨w, b⟩ s ⟨w', b'⟩ s' c h h'
  by_cases hw : w = v <;> by_cases hw' : w' = v <;> simp_all

theorem stores_retainView {p : T → Bool} :
    (retainView m v p).Stores (w, a) t ↔ m.Stores (w, a) t ∧ (w = v → p t = true) := by
  rw [retainView, FirstWinsMap.stores_retain]
  by_cases hw : w = v <;> simp [hw]

/-- Entries of a view that pass a test, each of another sender. -/
structure SenderEntries (m : FirstWinsMap (View × Address) T) (v : View) (p : T → Bool)
    (entries : List (Address × T)) : Prop where
  nodup : (entries.map Prod.fst).Nodup
  stored : ∀ e ∈ entries, m.Stores (v, e.1) e.2 ∧ p e.2 = true

theorem senderEntries_retainView (p : T → Bool) :
    SenderEntries m v p (viewEntries (retainView m v p) v) where
  nodup := nodup_viewEntries
  stored e he := by
    obtain ⟨hst, hp⟩ := stores_retainView.mp (mem_viewEntries.mp he)
    exact ⟨hst, hp rfl⟩

theorem SenderEntries.perm {p : T → Bool} {entries entries' : List (Address × T)}
    (h : SenderEntries m v p entries) (hperm : entries'.Perm entries) :
    SenderEntries m v p entries' where
  nodup := ((hperm.map Prod.fst).nodup_iff).mpr h.nodup
  stored e he := h.stored e (hperm.mem_iff.mp he)

end Views

/-! ## Proposals -/

theorem storedProposal_addProposalMessage (msgs : ConsensusMessages) (p : ProposalMessageSigned)
    (a : Address) (v : View) :
    (msgs.addProposalMessage p a).storedProposal v =
      if msgs.storedProposal p.view = none ∧ v = p.view then some p
      else msgs.storedProposal v := by
  obtain ⟨h, r⟩ := v
  have hview : (⟨h, r⟩ : View) = p.view ↔ h = p.view.height ∧ r = p.view.round := by
    cases p.view
    simp
  unfold addProposalMessage storedProposal
  simp only [hview]
  by_cases hr : p.view.round = 0
  · by_cases hvac : msgs.proposal0Messages.get? p.view.height = none
    · simp [hr, hvac, FirstWinsMap.get?_insertVacant]
      grind
    · simp [hr, hvac]
  · by_cases hvac : msgs.proposal1Messages.get? p.view = none
    · simp [hr, hvac, FirstWinsMap.get?_insertVacant]
      grind
    · simp [hr, hvac]

/-- A cached result after an addition was cached before, or belongs to an own proposal just
added. -/
theorem verdict_addProposalMessage {p q : ProposalMessageSigned} {a : Address} {v : View}
    {r : Except IBFTError Unit}
    (h : (msgs.addProposalMessage p a).proposal1Messages.Stores v (q, some r)) :
    msgs.proposal1Messages.Stores v (q, some r) ∨ (msgs.selfAddress = a ∧ q = p) := by
  unfold addProposalMessage at h
  simp only at h
  split at h
  · split at h
    · exact Or.inl h
    · rcases FirstWinsMap.stores_insertVacant.mp h with hold | ⟨-, -, hnew⟩
      · exact Or.inl hold
      · obtain ⟨hq, hr⟩ := Prod.mk.inj hnew
        split at hr
        next hself => exact Or.inr ⟨hself, hq⟩
        next => cases hr
  · exact Or.inl h

@[simp] theorem storedProposal_getValidProposalDigest (v w : View)
    (f : ProposalMessageSigned → Except IBFTError Unit) :
    (msgs.getValidProposalDigest v f).2.storedProposal w = msgs.storedProposal w := by
  unfold getValidProposalDigest
  split
  · split <;> rfl
  · split
    · rfl
    · rfl
    · unfold storedProposal
      simp only [FirstWinsMap.get?_filterMapVal]
      split
      · rfl
      · cases msgs.proposal1Messages.get? w with
        | none => rfl
        | some e => by_cases hw : w = v <;> simp [hw]

/-- A query caches nothing but the result of the verify function on the unverified proposal. -/
theorem verdict_getValidProposalDigest {v w : View}
    {f : ProposalMessageSigned → Except IBFTError Unit} {q : ProposalMessageSigned}
    {r : Except IBFTError Unit}
    (h : (msgs.getValidProposalDigest v f).2.proposal1Messages.Stores w (q, some r)) :
    msgs.proposal1Messages.Stores w (q, some r) ∨
      (w = v ∧ msgs.unverifiedProposal v = some q ∧ f q = r) := by
  unfold getValidProposalDigest at h
  split at h
  · split at h <;> exact Or.inl h
  next hr =>
    split at h
    · exact Or.inl h
    · exact Or.inl h
    next p hget =>
      obtain ⟨e, he, hf⟩ := FirstWinsMap.stores_filterMapVal.mp h
      split at hf
      next hw =>
        subst hw
        have hep := (FirstWinsMap.get?_eq_some_iff.mp hget).unique he
        subst hep
        obtain ⟨hq, hr'⟩ := Prod.mk.inj (Option.some.inj hf)
        refine Or.inr ⟨rfl, ?_, ?_⟩
        · simp only [unverifiedProposal, if_neg hr, hget]
          exact congrArg some hq
        · exact hq ▸ Option.some.inj hr'
      next =>
        cases hf
        exact Or.inl he

/-- A query keeps the proposals for rounds above 0. -/
theorem stores_getValidProposalDigest {v w : View}
    {f : ProposalMessageSigned → Except IBFTError Unit} {q : ProposalMessageSigned}
    {r : Option (Except IBFTError Unit)}
    (h : (msgs.getValidProposalDigest v f).2.proposal1Messages.Stores w (q, r)) :
    ∃ r', msgs.proposal1Messages.Stores w (q, r') := by
  unfold getValidProposalDigest at h
  split at h
  · split at h <;> exact ⟨r, h⟩
  · split at h
    · exact ⟨r, h⟩
    · exact ⟨r, h⟩
    · obtain ⟨⟨q', r'⟩, he, hf⟩ := FirstWinsMap.stores_filterMapVal.mp h
      split at hf
      · obtain ⟨rfl, -⟩ := Prod.mk.inj (Option.some.inj hf)
        exact ⟨r', he⟩
      · cases hf
        exact ⟨r, he⟩

/-- A query that returns a digest found a stored proposal with that digest, and the verify
function accepted it now or its result was cached. -/
theorem getValidProposalDigest_ok {v : View} {f : ProposalMessageSigned → Except IBFTError Unit}
    {d : Digest} (h : (msgs.getValidProposalDigest v f).1 = some (.ok d)) :
    ∃ p, msgs.storedProposal v = some p ∧ p.proposedBlockDigest = d ∧
      ((msgs.unverifiedProposal v = some p ∧ f p = .ok ()) ∨
        (v.round ≠ 0 ∧ msgs.proposal1Messages.Stores v (p, some (.ok ())))) := by
  unfold getValidProposalDigest at h
  unfold storedProposal unverifiedProposal
  split at h
  next hr =>
    simp only [hr, if_true]
    split at h
    · cases h
    next p hget =>
      cases hf : f p with
      | error e => simp [hf, Except.map] at h
      | ok u => exact ⟨p, hget, by simpa [hf, Except.map] using h, Or.inl ⟨hget, hf⟩⟩
  next hr =>
    simp only [hr, if_false]
    split at h
    · cases h
    next p r hget =>
      cases r with
      | error e => simp [Except.map] at h
      | ok u =>
        exact ⟨p, by simp [hget], by simpa [Except.map] using h,
          Or.inr ⟨hr, FirstWinsMap.get?_eq_some_iff.mp hget⟩⟩
    next p hget =>
      cases hf : f p with
      | error e => simp [hf, Except.map] at h
      | ok u =>
        exact ⟨p, by simp [hget], by simpa [hf, Except.map] using h,
          Or.inl ⟨by simp [hget], hf⟩⟩

theorem subStore_getValidProposalDigest (v : View)
    (f : ProposalMessageSigned → Except IBFTError Unit) :
    SubStore msgs (msgs.getValidProposalDigest v f).2 := by
  refine ⟨?_, fun w p h => by simpa using h, ?_, ?_, ?_⟩ <;>
    · unfold getValidProposalDigest
      repeat' split
      all_goals first | rfl | exact fun _ _ h => h | exact fun _ _ f h => ⟨f, h⟩

theorem takeProposalMessage_fst (v : View) :
    (msgs.takeProposalMessage v).1 = msgs.storedProposal v := by
  unfold takeProposalMessage storedProposal
  split <;> rfl

theorem storedProposal_takeProposalMessage {v w : View} {p : ProposalMessageSigned}
    (h : (msgs.takeProposalMessage v).2.storedProposal w = some p) :
    msgs.storedProposal w = some p := by
  unfold takeProposalMessage storedProposal at h
  unfold storedProposal
  by_cases hw : w.round = 0 <;> by_cases hv : v.round = 0 <;>
    simp only [hw, hv, if_true, if_false] at h ⊢
  · rw [FirstWinsMap.get?_retain, Option.filter_eq_some_iff] at h
    exact h.1
  · exact h
  · exact h
  · simp only [FirstWinsMap.get?_retain, Option.map_eq_some_iff, Option.filter_eq_some_iff] at h
    obtain ⟨e, ⟨he, -⟩, hp⟩ := h
    rw [he, ← hp]
    rfl

theorem verdict_takeProposalMessage {v w : View} {e : ProposalMessageSigned × _}
    (h : (msgs.takeProposalMessage v).2.proposal1Messages.Stores w e) :
    msgs.proposal1Messages.Stores w e := by
  unfold takeProposalMessage at h
  split at h
  · exact h
  · exact (FirstWinsMap.stores_retain.mp h).1

theorem subStore_takeProposalMessage (v : View) :
    SubStore msgs (msgs.takeProposalMessage v).2 := by
  refine ⟨?_, fun w p h => storedProposal_takeProposalMessage h, ?_, ?_, ?_⟩ <;>
    · unfold takeProposalMessage
      split
      all_goals first | rfl | exact fun _ _ h => h | exact fun _ _ f h => ⟨f, h⟩

/-! ## Prepares -/

theorem stores_addPrepareMessage {p q : PrepareMessageSigned} {a : Address} {k : View × Address} :
    (msgs.addPrepareMessage p a).prepareMessages.Stores k q ↔
      msgs.prepareMessages.Stores k q ∨
        (msgs.prepareMessages.get? (p.view, a) = none ∧ k = (p.view, a) ∧ q = p) := by
  unfold addPrepareMessage
  simp only
  split
  · exact FirstWinsMap.stores_insertVacant
  next h => simp [h]

theorem stores_getValidPrepareCount {v w : View} {f : PrepareMessageSigned → Bool}
    {a : Address} {p : PrepareMessageSigned} :
    (msgs.getValidPrepareCount v f).2.prepareMessages.Stores (w, a) p ↔
      msgs.prepareMessages.Stores (w, a) p ∧ (w = v → f p = true) :=
  stores_retainView

theorem subStore_getValidPrepareCount (v : View) (f : PrepareMessageSigned → Bool) :
    SubStore msgs (msgs.getValidPrepareCount v f).2 :=
  ⟨rfl, fun _ _ h => h, fun _ _ h => (stores_retainView.mp h).1, fun _ _ h => h,
    fun _ _ f h => ⟨f, h⟩⟩

/-- Taken prepares are stored prepares that pass the test, one for each sender. -/
theorem takeValidPrepareMessages_fst (msgs : ConsensusMessages) (env : Env) (v : View)
    (f : PrepareMessageSigned → Bool) :
    ∃ entries, SenderEntries msgs.prepareMessages v f entries ∧
      (msgs.takeValidPrepareMessages env v f).1 = entries.map Prod.snd :=
  ⟨_, (senderEntries_retainView f).perm (List.perm_insertionSort _ _), rfl⟩

theorem subStore_takeValidPrepareMessages (env : Env) (v : View)
    (f : PrepareMessageSigned → Bool) :
    SubStore msgs (msgs.takeValidPrepareMessages env v f).2 :=
  ⟨rfl, fun _ _ h => h, fun _ _ h => (stores_retainView.mp h).1, fun _ _ h => h,
    fun _ _ f h => ⟨f, h⟩⟩

/-! ## Commits -/

theorem stores_addCommitMessage {p q : CommitMessageSigned} {a : Address} {k : View × Address} :
    (msgs.addCommitMessage p a).commitMessages.Stores k q ↔
      msgs.commitMessages.Stores k q ∨
        (msgs.commitMessages.get? (p.view, a) = none ∧ k = (p.view, a) ∧ q = p) := by
  unfold addCommitMessage
  simp only
  split
  · exact FirstWinsMap.stores_insertVacant
  next h => simp [h]

/-- Taken seals are the seals of stored commits that pass the test, one for each sender, and at
least quorum many. -/
theorem takeValidCommitSeals_some {env : Env} {v : View} {f : CommitMessageSigned → Bool}
    {quorum count : ℕ} {seals : CommitSeals}
    (h : (msgs.takeValidCommitSeals env v f quorum).1 = (some seals, count)) :
    ∃ entries, SenderEntries msgs.commitMessages v f entries ∧ quorum ≤ entries.length ∧
      seals = entries.map (fun e => e.2.commitSeal) := by
  unfold takeValidCommitSeals at h
  simp only at h
  split at h
  next hq =>
    obtain ⟨hs, -⟩ := Prod.mk.inj h
    let entries := viewEntries (retainView msgs.commitMessages v f) v
    have hperm := List.perm_insertionSort (fun a b => env.hashRank a.1 ≤ env.hashRank b.1) entries
    refine ⟨_, (senderEntries_retainView f).perm hperm, ?_, ?_⟩
    · rw [List.length_insertionSort]
      exact hq
    · rw [← Option.some.inj hs, Env.intoValues, List.map_map]
      rfl
  next => cases h

theorem stores_takeValidCommitSeals {env : Env} {v : View} {f : CommitMessageSigned → Bool}
    {quorum : ℕ} {k : View × Address} {c : CommitMessageSigned}
    (h : (msgs.takeValidCommitSeals env v f quorum).2.commitMessages.Stores k c) :
    msgs.commitMessages.Stores k c := by
  unfold takeValidCommitSeals at h
  simp only at h
  split at h
  · exact (stores_retainView.mp (stores_retainView.mp h).1).1
  · exact (stores_retainView.mp h).1

theorem subStore_takeValidCommitSeals (env : Env) (v : View) (f : CommitMessageSigned → Bool)
    (quorum : ℕ) : SubStore msgs (msgs.takeValidCommitSeals env v f quorum).2 := by
  refine ⟨?_, ?_, ?_, fun k p h => stores_takeValidCommitSeals h, ?_⟩ <;>
    · unfold takeValidCommitSeals
      simp only
      split
      all_goals first | rfl | exact fun _ _ h => h | exact fun _ _ f h => ⟨f, h⟩

/-! ## Round changes -/

theorem stores_addRoundChangeMessage {p q : RoundChangeMessageSigned} {a : Address}
    {k : View × Address} {flag : Bool} :
    (msgs.addRoundChangeMessage p a).roundChangeMessages.Stores k (q, flag) ↔
      msgs.roundChangeMessages.Stores k (q, flag) ∨
        (msgs.roundChangeMessages.get? (p.view, a) = none ∧ k = (p.view, a) ∧ q = p ∧
          flag = decide (a = msgs.selfAddress)) := by
  unfold addRoundChangeMessage
  simp only
  split
  · rw [FirstWinsMap.stores_insertVacant]
    constructor
    · rintro (hold | ⟨hvac, hk, hnew⟩)
      · exact Or.inl hold
      · obtain ⟨hq, hflag⟩ := Prod.mk.inj hnew
        exact Or.inr ⟨hvac, hk, hq, hflag⟩
    · rintro (hold | ⟨hvac, hk, rfl, rfl⟩)
      · exact Or.inl hold
      · exact Or.inr ⟨hvac, hk, rfl⟩
  next h => simp [h]

/-- Counting round changes keeps messages and marks the ones the verify function accepts. -/
theorem stores_retainVerified {v : View} {f : RoundChangeMessageSigned → Bool}
    {k : View × Address} {p : RoundChangeMessageSigned} {flag : Bool}
    (h : (msgs.retainVerified v f).Stores k (p, flag)) :
    msgs.roundChangeMessages.Stores k (p, flag) ∨
      (k.1 = v ∧ f p = true ∧ flag = true ∧ msgs.roundChangeMessages.Stores k (p, false)) := by
  obtain ⟨⟨q, flag'⟩, hst, hf⟩ := FirstWinsMap.stores_filterMapVal.mp h
  split at hf
  next hk =>
    split at hf
    next hflag =>
      cases hf
      exact Or.inl hst
    next hflag =>
      split at hf
      next hver =>
        cases hf
        have hfalse : flag' = false := by simpa using hflag
        subst hfalse
        exact Or.inr ⟨hk, hver, rfl, hst⟩
      next => cases hf
  next =>
    cases hf
    exact Or.inl hst

theorem stores_getValidRoundChangeCount {v : View} {f : RoundChangeMessageSigned → Bool}
    {k : View × Address} {p : RoundChangeMessageSigned} {flag : Bool}
    (h : (msgs.getValidRoundChangeCount v f).2.roundChangeMessages.Stores k (p, flag)) :
    msgs.roundChangeMessages.Stores k (p, flag) ∨
      (k.1 = v ∧ f p = true ∧ flag = true ∧ msgs.roundChangeMessages.Stores k (p, false)) :=
  stores_retainVerified h

theorem stores_takeValidRoundChangeMessages {env : Env} {v : View}
    {f : RoundChangeMessageSigned → Bool} {quorum : ℕ} {k : View × Address}
    {p : RoundChangeMessageSigned} {flag : Bool}
    (h : (msgs.takeValidRoundChangeMessages env v f quorum).2.roundChangeMessages.Stores k
      (p, flag)) :
    msgs.roundChangeMessages.Stores k (p, flag) ∨
      (k.1 = v ∧ f p = true ∧ flag = true ∧ msgs.roundChangeMessages.Stores k (p, false)) := by
  unfold takeValidRoundChangeMessages at h
  simp only at h
  split at h
  · exact stores_retainVerified (stores_retainView.mp h).1
  · exact stores_retainVerified h

theorem takeValidRoundChangeMessages_count (msgs : ConsensusMessages) (env : Env) (v : View)
    (f : RoundChangeMessageSigned → Bool) (quorum : ℕ) :
    (msgs.takeValidRoundChangeMessages env v f quorum).1.2 =
      (viewEntries (msgs.retainVerified v f) v).length := by
  unfold takeValidRoundChangeMessages
  simp only
  split <;> rfl

/-- The counted round changes are stored ones. -/
theorem stores_of_mem_retainVerified {v : View} {f : RoundChangeMessageSigned → Bool}
    {e : Address × (RoundChangeMessageSigned × Bool)}
    (he : e ∈ viewEntries (msgs.retainVerified v f) v) :
    ∃ flag, msgs.roundChangeMessages.Stores (v, e.1) (e.2.1, flag) := by
  rcases stores_retainVerified (mem_viewEntries.mp he) with hst | ⟨-, -, -, hst⟩
  · exact ⟨_, hst⟩
  · exact ⟨_, hst⟩

theorem subStore_getValidRoundChangeCount (v : View) (f : RoundChangeMessageSigned → Bool) :
    SubStore msgs (msgs.getValidRoundChangeCount v f).2 := by
  refine ⟨rfl, fun _ _ h => h, fun _ _ h => h, fun _ _ h => h, fun k p flag h => ?_⟩
  rcases stores_getValidRoundChangeCount h with h | ⟨-, -, -, h⟩
  · exact ⟨flag, h⟩
  · exact ⟨false, h⟩

theorem subStore_takeValidRoundChangeMessages (env : Env) (v : View)
    (f : RoundChangeMessageSigned → Bool) (quorum : ℕ) :
    SubStore msgs (msgs.takeValidRoundChangeMessages env v f quorum).2 := by
  refine ⟨?_, ?_, ?_, ?_, fun k p flag h => ?_⟩
  · unfold takeValidRoundChangeMessages
    simp only
    split <;> rfl
  · unfold takeValidRoundChangeMessages
    simp only
    split <;> exact fun _ _ h => h
  · unfold takeValidRoundChangeMessages
    simp only
    split <;> exact fun _ _ h => h
  · unfold takeValidRoundChangeMessages
    simp only
    split <;> exact fun _ _ h => h
  · rcases stores_takeValidRoundChangeMessages h with h | ⟨-, -, -, h⟩
    · exact ⟨flag, h⟩
    · exact ⟨false, h⟩

/-! ## What leaves the proposals alone -/

theorem proposal1Messages_addPrepareMessage (m : PrepareMessageSigned) (a : Address) :
    (msgs.addPrepareMessage m a).proposal1Messages = msgs.proposal1Messages := by
  unfold addPrepareMessage
  simp only
  split <;> rfl

theorem proposal1Messages_addCommitMessage (m : CommitMessageSigned) (a : Address) :
    (msgs.addCommitMessage m a).proposal1Messages = msgs.proposal1Messages := by
  unfold addCommitMessage
  simp only
  split <;> rfl

theorem proposal1Messages_addRoundChangeMessage (m : RoundChangeMessageSigned) (a : Address) :
    (msgs.addRoundChangeMessage m a).proposal1Messages = msgs.proposal1Messages := by
  unfold addRoundChangeMessage
  simp only
  split <;> rfl

theorem proposal1Messages_takeValidCommitSeals (env : Env) (v : View)
    (f : CommitMessageSigned → Bool) (quorum : ℕ) :
    (msgs.takeValidCommitSeals env v f quorum).2.proposal1Messages = msgs.proposal1Messages := by
  unfold takeValidCommitSeals
  simp only
  split <;> rfl

theorem proposal1Messages_takeValidRoundChangeMessages (env : Env) (v : View)
    (f : RoundChangeMessageSigned → Bool) (quorum : ℕ) :
    (msgs.takeValidRoundChangeMessages env v f quorum).2.proposal1Messages =
      msgs.proposal1Messages := by
  unfold takeValidRoundChangeMessages
  simp only
  split <;> rfl

@[simp] theorem storedProposal_addPrepareMessage (m : PrepareMessageSigned) (a : Address)
    (v : View) : (msgs.addPrepareMessage m a).storedProposal v = msgs.storedProposal v := by
  unfold addPrepareMessage
  simp only
  split <;> rfl

@[simp] theorem storedProposal_addCommitMessage (m : CommitMessageSigned) (a : Address)
    (v : View) : (msgs.addCommitMessage m a).storedProposal v = msgs.storedProposal v := by
  unfold addCommitMessage
  simp only
  split <;> rfl

@[simp] theorem storedProposal_addRoundChangeMessage (m : RoundChangeMessageSigned) (a : Address)
    (v : View) : (msgs.addRoundChangeMessage m a).storedProposal v = msgs.storedProposal v := by
  unfold addRoundChangeMessage
  simp only
  split <;> rfl

@[simp] theorem storedProposal_getValidPrepareCount (v w : View)
    (f : PrepareMessageSigned → Bool) :
    (msgs.getValidPrepareCount v f).2.storedProposal w = msgs.storedProposal w := rfl

@[simp] theorem storedProposal_takeValidPrepareMessages (env : Env) (v w : View)
    (f : PrepareMessageSigned → Bool) :
    (msgs.takeValidPrepareMessages env v f).2.storedProposal w = msgs.storedProposal w := rfl

@[simp] theorem storedProposal_takeValidCommitSeals (env : Env) (v w : View)
    (f : CommitMessageSigned → Bool) (quorum : ℕ) :
    (msgs.takeValidCommitSeals env v f quorum).2.storedProposal w = msgs.storedProposal w := by
  unfold takeValidCommitSeals
  simp only
  split <;> rfl

@[simp] theorem storedProposal_takeValidRoundChangeMessages (env : Env) (v w : View)
    (f : RoundChangeMessageSigned → Bool) (quorum : ℕ) :
    (msgs.takeValidRoundChangeMessages env v f quorum).2.storedProposal w =
      msgs.storedProposal w := by
  unfold takeValidRoundChangeMessages
  simp only
  split <;> rfl

@[simp] theorem storedProposal_getValidRoundChangeCount (v w : View)
    (f : RoundChangeMessageSigned → Bool) :
    (msgs.getValidRoundChangeCount v f).2.storedProposal w = msgs.storedProposal w := rfl

/-- A new proposal after an addition is the added one. -/
theorem storedProposal_addMessage {m : IBFTMessage} {a : Address} {v : View}
    {p : ProposalMessageSigned} (h : (msgs.addMessage a m).storedProposal v = some p) :
    msgs.storedProposal v = some p ∨ (m = .proposal p ∧ v = p.view) := by
  cases m with
  | proposal q =>
    change (msgs.addProposalMessage q a).storedProposal v = some p at h
    rw [storedProposal_addProposalMessage] at h
    split at h
    next hnew =>
      cases h
      exact Or.inr ⟨rfl, hnew.2⟩
    next => exact Or.inl h
  | prepare m => exact Or.inl ((storedProposal_addPrepareMessage m a v).symm.trans h)
  | commit m => exact Or.inl ((storedProposal_addCommitMessage m a v).symm.trans h)
  | roundChange m => exact Or.inl ((storedProposal_addRoundChangeMessage m a v).symm.trans h)

/-- Additions never replace a proposal. -/
theorem storedProposal_addMessage_of_some {m : IBFTMessage} {a : Address} {v : View}
    {p : ProposalMessageSigned} (h : msgs.storedProposal v = some p) :
    (msgs.addMessage a m).storedProposal v = some p := by
  cases m with
  | proposal q =>
    change (msgs.addProposalMessage q a).storedProposal v = some p
    rw [storedProposal_addProposalMessage, if_neg, h]
    rintro ⟨hnone, rfl⟩
    rw [hnone] at h
    cases h
  | prepare m => exact (storedProposal_addPrepareMessage m a v).trans h
  | commit m => exact (storedProposal_addCommitMessage m a v).trans h
  | roundChange m => exact (storedProposal_addRoundChangeMessage m a v).trans h

/-! ## Pruning -/

theorem storedProposal_prune {height : UInt64} {v : View} {p : ProposalMessageSigned}
    (h : (msgs.prune height).storedProposal v = some p) : msgs.storedProposal v = some p := by
  unfold storedProposal prune at h
  unfold storedProposal
  split at h
  next hr =>
    simp only [FirstWinsMap.get?_retain, Option.filter_eq_some_iff] at h
    rw [if_pos hr]
    exact h.1
  next hr =>
    simp only [FirstWinsMap.get?_retain, Option.map_eq_some_iff, Option.filter_eq_some_iff] at h
    obtain ⟨e, ⟨he, -⟩, hp⟩ := h
    rw [if_neg hr, he, ← hp]
    rfl

theorem subStore_prune (height : UInt64) : SubStore msgs (msgs.prune height) :=
  ⟨rfl, fun _ _ h => storedProposal_prune h, fun _ _ h => (FirstWinsMap.stores_retain.mp h).1,
    fun _ _ h => (FirstWinsMap.stores_retain.mp h).1,
    fun _ _ f h => ⟨f, (FirstWinsMap.stores_retain.mp h).1⟩⟩

end ConsensusMessages

end Tonic
