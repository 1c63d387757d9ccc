/-
# The counting loops

`run_prepare`, `run_commit`, `wait_rcc` and `wait_future_rcc` wait for enough valid
messages of a view.  Each keeps a counter of its own: it adds one for every notification
of the view, also for messages it has counted already and for invalid ones, and asks the
store again when the counter reaches the threshold.

The counter is never behind: the valid messages in the store are at most the counter plus
the notifications that are still unread, since whatever is added to the store is announced
on its channel.  So a loop that has read everything and still waits has a reason to, and a
loop that ends does so on the answer of the store.
-/
import Tonic.NotificationLag
import Tonic.StoreStep

namespace Tonic

open Transition

/-! ## Unread notifications -/

namespace Channel

variable {ch ch' : Channel} {rx : Receiver} {v w : View}

/-- The number of notifications of a view that a receiver has not read. -/
def pendingAt (ch : Channel) (rx : Receiver) (view : View) : ℕ := (ch.sent.drop rx).count view

theorem pendingAt_append {added : List View} (h : ch'.sent = ch.sent ++ added)
    (hrx : rx ≤ ch.sent.length) :
    ch'.pendingAt rx v = ch.pendingAt rx v + added.count v := by
  rw [pendingAt, pendingAt, h, List.drop_append_of_le_length hrx, List.count_append]

theorem pendingAt_eq_zero (h : ch.recv rx = .pending) : ch.pendingAt rx v = 0 := by
  unfold recv at h
  split at h
  · cases h
  · split at h
    next hnone => rw [pendingAt, List.drop_eq_nil_of_le (List.getElem?_eq_none_iff.mp hnone),
        List.count_nil]
    next => cases h

/-- Reading a notification takes it off the unread ones. -/
theorem pendingAt_notified (h : ch.recv rx = .notified w) :
    rx + 1 ≤ ch.sent.length ∧
      ch.pendingAt rx v = ch.pendingAt (rx + 1) v + if w = v then 1 else 0 := by
  unfold recv at h
  split at h
  · cases h
  · split at h
    · cases h
    next hget =>
      cases h
      obtain ⟨hlt, hw⟩ := List.getElem?_eq_some_iff.mp hget
      refine ⟨hlt, ?_⟩
      rw [pendingAt, pendingAt, List.drop_eq_getElem_cons hlt, hw, List.count_cons]
      simp

end Channel

/-! ## Valid messages of a view -/

section Valid

variable {T : Type} {m m' : FirstWinsMap (View × Address) T} {v : View} {p : T → Bool} {k : ℕ}

/-- At least `k` different senders have a message for the view that passes the test. -/
def Holds (m : FirstWinsMap (View × Address) T) (view : View) (p : T → Bool) (k : ℕ) : Prop :=
  ∃ senders : List Address, senders.Nodup ∧ k ≤ senders.length ∧
    ∀ a ∈ senders, ∃ t, m.Stores (view, a) t ∧ p t = true

/-- The senders of the messages that a query of the view keeps. -/
def validSenders (m : FirstWinsMap (View × Address) T) (view : View) (p : T → Bool) :
    List Address :=
  (ConsensusMessages.viewEntries (ConsensusMessages.retainView m view p) view).map Prod.fst

theorem nodup_validSenders : (validSenders m v p).Nodup := ConsensusMessages.nodup_viewEntries

theorem mem_validSenders {a : Address} :
    a ∈ validSenders m v p ↔ ∃ t, m.Stores (v, a) t ∧ p t = true := by
  rw [validSenders, List.mem_map]
  constructor
  · rintro ⟨⟨b, t⟩, he, rfl⟩
    obtain ⟨hst, hp⟩ := ConsensusMessages.stores_retainView.mp
      (ConsensusMessages.mem_viewEntries.mp he)
    exact ⟨t, hst, hp rfl⟩
  · rintro ⟨t, hst, hp⟩
    exact ⟨(a, t), ConsensusMessages.mem_viewEntries.mpr
      (ConsensusMessages.stores_retainView.mpr ⟨hst, fun _ => hp⟩), rfl⟩

theorem length_validSenders : (validSenders m v p).length =
    (ConsensusMessages.viewEntries (ConsensusMessages.retainView m v p) v).length :=
  List.length_map _

/-- A quorum of valid messages is there exactly where the query counts one. -/
theorem holds_iff : Holds m v p k ↔ k ≤ (validSenders m v p).length := by
  constructor
  · rintro ⟨senders, hnodup, hk, hall⟩
    refine hk.trans ?_
    exact (List.subperm_of_subset hnodup fun a ha => mem_validSenders.mpr (hall a ha)).length_le
  · intro hk
    exact ⟨validSenders m v p, nodup_validSenders, hk, fun a ha => mem_validSenders.mp ha⟩

/-- Whoever is valid now was valid before, or is the given sender. -/
theorem length_validSenders_le (new : List Address)
    (h : ∀ a t, m'.Stores (v, a) t → p t = true →
      a ∈ new ∨ ∃ t, m.Stores (v, a) t ∧ p t = true) :
    (validSenders m' v p).length ≤ (validSenders m v p).length + new.length := by
  rw [← List.length_append]
  refine (List.subperm_of_subset nodup_validSenders fun a ha => ?_).length_le
  obtain ⟨t, hst, hp⟩ := mem_validSenders.mp ha
  rcases h a t hst hp with hnew | hold
  · exact List.mem_append_right _ hnew
  · exact List.mem_append_left _ (mem_validSenders.mpr hold)

/-! ## What is added is announced -/

/-- The messages that became valid in a view were announced on the channel. -/
def Announced (valid : View → T → Bool) (m m' : FirstWinsMap (View × Address) T)
    (ch ch' : Channel) : Prop :=
  ∃ added, ch'.sent = ch.sent ++ added ∧ ∀ v,
    (validSenders m' v (valid v)).length ≤ (validSenders m v (valid v)).length + added.count v

variable {valid : View → T → Bool} {ch : Channel}

theorem Announced.of_subset
    (h : ∀ v a t, m'.Stores (v, a) t → valid v t = true →
      ∃ t, m.Stores (v, a) t ∧ valid v t = true) : Announced valid m m' ch ch :=
  ⟨[], (List.append_nil _).symm, fun v =>
    length_validSenders_le [] fun a t hst hp => Or.inr (h v a t hst hp)⟩

theorem Announced.refl : Announced valid m m ch ch :=
  .of_subset fun _ _ t hst hp => ⟨t, hst, hp⟩

theorem Announced.insertVacant (w : View) (a : Address) (t : T) :
    Announced valid m (m.insertVacant (w, a) t) ch (ch.send w) := by
  refine ⟨[w], rfl, fun v => ?_⟩
  let new : List Address := if w = v then [a] else []
  have hle : (validSenders (m.insertVacant (w, a) t) v (valid v)).length ≤
      (validSenders m v (valid v)).length + new.length := by
    refine length_validSenders_le new fun b t' hst hp => ?_
    rcases FirstWinsMap.stores_insertVacant.mp hst with hold | ⟨-, hk, -⟩
    · exact Or.inr ⟨t', hold, hp⟩
    · obtain ⟨rfl, rfl⟩ := Prod.mk.inj hk
      exact Or.inl (by simp [new])
  refine hle.trans (Nat.add_le_add_left ?_ _)
  rw [List.count_singleton]
  split <;> simp_all [new]

end Valid

/-! ## A round change is valid or known to be -/

variable {cfg : Config} {msgs msgs' : ConsensusMessages} {view : View}

/-- The round changes that a query keeps: those marked before, and those it would mark now. -/
def roundChangeValid (cfg : Config) (height : UInt64) (e : RoundChangeMessageSigned × Bool) :
    Bool :=
  e.2 || roundChangeVerifyFn cfg height e.1

theorem length_viewEntries_retainVerified (msgs : ConsensusMessages) (height : UInt64) (v : View) :
    (ConsensusMessages.viewEntries
        (msgs.retainVerified v (roundChangeVerifyFn cfg height)) v).length =
      (validSenders msgs.roundChangeMessages v (roundChangeValid cfg height)).length := by
  rw [← List.length_map Prod.fst]
  refine ((List.perm_ext_iff_of_nodup ConsensusMessages.nodup_viewEntries
    nodup_validSenders).mpr fun a => ?_).length_eq
  rw [mem_validSenders, List.mem_map]
  constructor
  · rintro ⟨⟨b, rc, flag⟩, he, rfl⟩
    rcases ConsensusMessages.stores_retainVerified (ConsensusMessages.mem_viewEntries.mp he)
      with hst | ⟨-, hver, -, hst⟩
    · obtain ⟨⟨rc', flag'⟩, hst', hf⟩ :=
        FirstWinsMap.stores_filterMapVal.mp (ConsensusMessages.mem_viewEntries.mp he)
      refine ⟨(rc', flag'), hst', ?_⟩
      cases flag' with
      | true => rfl
      | false =>
        simp only [if_true, Bool.false_eq_true, if_false] at hf
        split at hf
        next hver => simpa [roundChangeValid] using hver
        next => cases hf
    · exact ⟨(rc, false), hst, by simpa [roundChangeValid] using hver⟩
  · rintro ⟨⟨rc, flag⟩, hst, hvalid⟩
    refine ⟨(a, (rc, true)), ConsensusMessages.mem_viewEntries.mpr
      (FirstWinsMap.stores_filterMapVal.mpr ⟨(rc, flag), hst, ?_⟩), rfl⟩
    cases flag with
    | true => simp
    | false =>
      have hver : roundChangeVerifyFn cfg height rc = true := by
        simpa [roundChangeValid] using hvalid
      simp [hver]

/-! ## The store and its channels -/

/-- A step of the store announces every message it adds. -/
structure StoreGrowth (cfg : Config) (msgs msgs' : ConsensusMessages) : Prop where
  prepare : ∀ p, Announced (fun _ => p) msgs.prepareMessages msgs'.prepareMessages
    msgs.prepareTx msgs'.prepareTx
  commit : ∀ p, Announced (fun _ => p) msgs.commitMessages msgs'.commitMessages
    msgs.commitTx msgs'.commitTx
  roundChange : Announced (fun v => roundChangeValid cfg v.height) msgs.roundChangeMessages
    msgs'.roundChangeMessages msgs.roundChangeTx msgs'.roundChangeTx
  /-- Only rounds within the limit are announced. -/
  round_le : ∀ v ∈ msgs'.roundChangeTx.sent, v ∈ msgs.roundChangeTx.sent ∨ v.round ≤ maxRound

theorem StoreGrowth.refl (msgs : ConsensusMessages) : StoreGrowth cfg msgs msgs :=
  ⟨fun _ => .refl, fun _ => .refl, .refl, fun _ h => Or.inl h⟩

/-- An operation that only takes messages away, and marks none that is not valid. -/
theorem StoreGrowth.of_subStore (h : SubStore msgs msgs')
    (hprepare : msgs'.prepareTx = msgs.prepareTx) (hcommit : msgs'.commitTx = msgs.commitTx)
    (hroundChange : msgs'.roundChangeTx = msgs.roundChangeTx)
    (hmarked : ∀ v a rc, msgs'.roundChangeMessages.Stores (v, a) (rc, true) →
      msgs.roundChangeMessages.Stores (v, a) (rc, true) ∨
        roundChangeVerifyFn cfg v.height rc = true) : StoreGrowth cfg msgs msgs' where
  prepare p := by
    rw [hprepare]
    exact .of_subset fun v a t hst hp => ⟨t, h.prepare _ _ hst, hp⟩
  commit p := by
    rw [hcommit]
    exact .of_subset fun v a t hst hp => ⟨t, h.commit _ _ hst, hp⟩
  roundChange := by
    rw [hroundChange]
    refine .of_subset fun v a t hst hp => ?_
    obtain ⟨rc, flag⟩ := t
    obtain ⟨flag', hold⟩ := h.roundChange _ _ _ hst
    by_cases hver : roundChangeVerifyFn cfg v.height rc = true
    · exact ⟨(rc, flag'), hold, by simp [roundChangeValid, hver]⟩
    · -- Only the mark makes it valid, so it was marked before.
      have hflag : flag = true := by simpa [roundChangeValid, hver] using hp
      subst hflag
      rcases hmarked v a rc hst with hold | hver'
      · exact ⟨(rc, true), hold, rfl⟩
      · exact absurd hver' hver
  round_le v hv := Or.inl (hroundChange ▸ hv)

theorem StoreGrowth.addMessage {m : IBFTMessage} {a : Address} (hround : m.view.round ≤ maxRound) :
    StoreGrowth cfg msgs (msgs.addMessage a m) := by
  cases m with
  | proposal p =>
    show StoreGrowth cfg msgs (msgs.addProposalMessage p a)
    unfold ConsensusMessages.addProposalMessage
    simp only
    split
    · split <;> exact ⟨fun _ => .refl, fun _ => .refl, .refl, fun _ h => Or.inl h⟩
    · exact .refl msgs
  | prepare m =>
    show StoreGrowth cfg msgs (msgs.addPrepareMessage m a)
    unfold ConsensusMessages.addPrepareMessage
    simp only
    split
    · exact ⟨fun _ => .insertVacant _ _ _, fun _ => .refl, .refl, fun _ h => Or.inl h⟩
    · exact .refl msgs
  | commit m =>
    show StoreGrowth cfg msgs (msgs.addCommitMessage m a)
    unfold ConsensusMessages.addCommitMessage
    simp only
    split
    · exact ⟨fun _ => .refl, fun _ => .insertVacant _ _ _, .refl, fun _ h => Or.inl h⟩
    · exact .refl msgs
  | roundChange m =>
    show StoreGrowth cfg msgs (msgs.addRoundChangeMessage m a)
    unfold ConsensusMessages.addRoundChangeMessage
    simp only
    split
    · -- Round changes are counted by round, so the new one must be within the limit.
      refine ⟨fun _ => .refl, fun _ => .refl, .insertVacant _ _ _, fun v hv => ?_⟩
      rcases List.mem_append.mp hv with hv | hv
      · exact Or.inl hv
      · rw [List.mem_singleton.mp hv]
        exact Or.inr hround
    · exact .refl msgs

variable {run : Run} {ev : Event} {K : Knowledge}

/-- Marks are put on messages that pass the verification of their height. -/
theorem ConsensusMessages.marked_retainVerified {v w : View} {a : Address}
    {rc : RoundChangeMessageSigned} {height : UInt64} (hheight : v.height = height)
    (h : (msgs.retainVerified v (roundChangeVerifyFn cfg height)).Stores (w, a) (rc, true)) :
    msgs.roundChangeMessages.Stores (w, a) (rc, true) ∨
      roundChangeVerifyFn cfg w.height rc = true := by
  rcases stores_retainVerified h with hold | ⟨rfl, hver, -, -⟩
  · exact Or.inl hold
  · exact Or.inr (hheight ▸ hver)

theorem StoreStep.growth (h : StoreStep cfg run msgs ev msgs') (hinv : run.Inv cfg K) :
    StoreGrowth cfg msgs msgs' := by
  cases h with
  | same => exact .refl msgs
  | addProposal htask =>
    -- What the run adds is of its own view.
    obtain ⟨-, -, -, hview, -⟩ := hinv.select_of_task htask
    refine StoreGrowth.addMessage (m := .proposal _) ?_
    rw [show (IBFTMessage.proposal _).view = run.view from hview]
    exact hinv.round_le
  | queryProposal =>
    refine .of_subStore (ConsensusMessages.subStore_getValidProposalDigest _ _) ?_ ?_ ?_ ?_
    all_goals
      unfold ConsensusMessages.getValidProposalDigest
      split
      · split <;> first | rfl | exact fun _ _ _ h => Or.inl h
      · split <;> first | rfl | exact fun _ _ _ h => Or.inl h
  | takeProposal =>
    refine .of_subStore (ConsensusMessages.subStore_takeProposalMessage _) ?_ ?_ ?_ ?_
    all_goals
      unfold ConsensusMessages.takeProposalMessage
      split <;> first | rfl | exact fun _ _ _ h => Or.inl h
  | addPrepare htask =>
    obtain ⟨-, -, -, hview, -⟩ := hinv.select_of_task htask
    refine StoreGrowth.addMessage (m := .prepare _) ?_
    rw [show (IBFTMessage.prepare _).view = run.view from hview]
    exact hinv.round_le
  | countPrepares =>
    exact .of_subStore (ConsensusMessages.subStore_getValidPrepareCount _ _) rfl rfl rfl
      fun _ _ _ h => Or.inl h
  | takePrepares =>
    exact .of_subStore (ConsensusMessages.subStore_takeValidPrepareMessages _ _ _) rfl rfl rfl
      fun _ _ _ h => Or.inl h
  | addCommit htask =>
    obtain ⟨-, -, -, hview, -⟩ := hinv.select_of_task htask
    refine StoreGrowth.addMessage (m := .commit _) ?_
    rw [show (IBFTMessage.commit _).view = run.view from hview]
    exact hinv.round_le
  | takeSeals =>
    refine .of_subStore (ConsensusMessages.subStore_takeValidCommitSeals _ _ _ _) ?_ ?_ ?_ ?_
    all_goals
      unfold ConsensusMessages.takeValidCommitSeals
      simp only
      split <;> first | rfl | exact fun _ _ _ h => Or.inl h
  | takeRoundChanges =>
    -- The query marks what it has verified before it takes anything.
    refine .of_subStore (ConsensusMessages.subStore_takeValidRoundChangeMessages _ _ _ _)
      ?_ ?_ ?_ fun w a rc hst => ?_
    · unfold ConsensusMessages.takeValidRoundChangeMessages
      simp only
      split <;> rfl
    · unfold ConsensusMessages.takeValidRoundChangeMessages
      simp only
      split <;> rfl
    · unfold ConsensusMessages.takeValidRoundChangeMessages
      simp only
      split <;> rfl
    · unfold ConsensusMessages.takeValidRoundChangeMessages at hst
      simp only at hst
      split at hst
      · exact ConsensusMessages.marked_retainVerified rfl
          (ConsensusMessages.stores_retainView.mp hst).1
      · exact ConsensusMessages.marked_retainVerified rfl hst
  | countRoundChanges hheight =>
    exact .of_subStore (ConsensusMessages.subStore_getValidRoundChangeCount _ _) rfl rfl rfl
      fun w a rc hst => ConsensusMessages.marked_retainVerified hheight hst
  | addRoundChange hphase =>
    have hinvPhase := hinv.phase
    rw [hphase] at hinvPhase
    obtain ⟨-, -, -, hview, -⟩ := hinvPhase
    refine StoreGrowth.addMessage (m := .roundChange _) ?_
    rw [show (IBFTMessage.roundChange _).view = run.view from hview]
    exact hinv.round_le
  | prune =>
    refine .of_subStore (ConsensusMessages.subStore_prune _) rfl rfl rfl fun w a rc hst => ?_
    exact Or.inl (FirstWinsMap.stores_retain.mp hst).1

/-! ## One counter -/

/-- A counter below its threshold is not behind: what is valid was counted or is still unread. -/
structure Counted {T : Type} (m : FirstWinsMap (View × Address) T) (ch : Channel) (view : View)
    (p : T → Bool) (rx : Receiver) (count threshold : ℕ) : Prop where
  rx_le : rx ≤ ch.sent.length
  below : count < threshold
  valid_le : (validSenders m view p).length ≤ count + ch.pendingAt rx view

namespace Counted

variable {T : Type} {m m' : FirstWinsMap (View × Address) T} {ch ch' : Channel} {v w : View}
  {p : T → Bool} {rx : Receiver} {count threshold : ℕ}

/-- The result of a query is a count. -/
theorem query (hrx : rx ≤ ch.sent.length)
    (hbelow : (validSenders m v p).length < threshold) :
    Counted m ch v p rx (validSenders m v p).length threshold :=
  ⟨hrx, hbelow, Nat.le_add_right _ _⟩

theorem grow {f : View → T → Bool} (h : Counted m ch v (f v) rx count threshold)
    (hgrow : Announced f m m' ch ch') : Counted m' ch' v (f v) rx count threshold := by
  obtain ⟨added, hsent, hle⟩ := hgrow
  refine ⟨?_, h.below, ?_⟩
  · rw [hsent, List.length_append]
    exact h.rx_le.trans (Nat.le_add_right _ _)
  · have hold := h.valid_le
    have hnew := hle v
    rw [Channel.pendingAt_append hsent h.rx_le]
    omega

/-- A notification of the view is counted. -/
theorem read (h : Counted m ch v p rx count threshold)
    (hrecv : ch.recv rx = .notified v) (hbelow : count + 1 < threshold) :
    Counted m ch v p (rx + 1) (count + 1) threshold := by
  obtain ⟨hlen, hpending⟩ := Channel.pendingAt_notified (v := v) hrecv
  refine ⟨hlen, hbelow, ?_⟩
  have hold := h.valid_le
  rw [hpending, if_pos rfl] at hold
  omega

/-- A notification of another view is not. -/
theorem skip (h : Counted m ch v p rx count threshold)
    (hrecv : ch.recv rx = .notified w) (hne : w ≠ v) :
    Counted m ch v p (rx + 1) count threshold := by
  obtain ⟨hlen, hpending⟩ := Channel.pendingAt_notified (v := v) hrecv
  refine ⟨hlen, h.below, ?_⟩
  have hold := h.valid_le
  rw [hpending, if_neg hne] at hold
  omega

/-- What a loop does with a notification: ask again at the threshold, else count and wait on. -/
theorem notified {P : RoundTask → Prop} {again : RoundTask} {wait : ℕ → RoundTask}
    (h : Counted m ch v p rx count threshold) (hrecv : ch.recv rx = .notified w)
    (hagain : rx + 1 ≤ ch.sent.length → P again)
    (hwait : ∀ c, Counted m ch v p (rx + 1) c threshold → P (wait c)) :
    P (if w = v then if count + 1 = threshold then again else wait (count + 1)
       else wait count) := by
  split
  next hw =>
    subst hw
    split
    · exact hagain (Channel.pendingAt_notified (v := w) hrecv).1
    next hne =>
      have hbelow := h.below
      exact hwait _ (h.read hrecv (by omega))
  next hne => exact hwait _ (h.skip hrecv hne)

/-- **No lost wakeup**: a counter that has read everything waits for a reason. -/
theorem not_holds (h : Counted m ch v p rx count threshold)
    (hrecv : ch.recv rx = .pending) : ¬ Holds m v p threshold := by
  rw [holds_iff]
  have hle := h.valid_le
  have hbelow := h.below
  rw [Channel.pendingAt_eq_zero hrecv] at hle
  omega

end Counted

/-! ## The loops of the round task -/

/-- The loops of the round task that count messages. -/
inductive CountingLoop where
  | prepare (digest : Digest)
  | commit (digest : Digest)
  | roundChange
  deriving DecidableEq

/-- A query of the view finds the threshold of valid messages, each of another sender. -/
def CountingLoop.Reached (cfg : Config) (msgs : ConsensusMessages) (view : View) :
    CountingLoop → Prop
  | .prepare digest => Holds msgs.prepareMessages view (fun m => m.proposedBlockDigest = digest)
      (cfg.validatorManager.quorum view.height - 1)
  | .commit digest => Holds msgs.commitMessages view (fun m => m.proposedBlockDigest = digest)
      (cfg.validatorManager.quorum view.height)
  | .roundChange => Holds msgs.roundChangeMessages view (roundChangeValid cfg view.height)
      (cfg.validatorManager.quorum view.height)

namespace RoundTask

/-- The loop that the task is in. -/
def loop? : RoundTask → Option CountingLoop
  | .countPrepares digest _ | .recvPrepare digest _ _ => some (.prepare digest)
  | .takeSeals digest _ | .recvCommit digest _ _ => some (.commit digest)
  | .takeRoundChanges _ | .recvRoundChange _ _ => some .roundChange
  | _ => none

/-- What a loop knows at its two await points. -/
def LoopInv (cfg : Config) (msgs : ConsensusMessages) (view : View) : RoundTask → Prop
  | .countPrepares _ rx => rx ≤ msgs.prepareTx.sent.length
  | .recvPrepare digest rx prepareCount =>
    Counted msgs.prepareMessages msgs.prepareTx view (fun m => m.proposedBlockDigest = digest) rx
      prepareCount (cfg.validatorManager.quorum view.height - 1)
  | .takeSeals _ rx => rx ≤ msgs.commitTx.sent.length
  | .recvCommit digest rx commitCount =>
    Counted msgs.commitMessages msgs.commitTx view (fun m => m.proposedBlockDigest = digest) rx
      commitCount (cfg.validatorManager.quorum view.height)
  | .takeRoundChanges rx => rx ≤ msgs.roundChangeTx.sent.length
  | .recvRoundChange rx rcCount =>
    Counted msgs.roundChangeMessages msgs.roundChangeTx view (roundChangeValid cfg view.height) rx
      rcCount (cfg.validatorManager.quorum view.height)
  | _ => True

theorem LoopInv.of_loop? {task : RoundTask} (h : task.loop? = none) : task.LoopInv cfg msgs view := by
  cases task with
  | countPrepares | recvPrepare | takeSeals | recvCommit | takeRoundChanges | recvRoundChange =>
    cases h
  | _ => trivial

/-- A loop stays right while others add messages, and take some away. -/
theorem LoopInv.grow {task : RoundTask} (h : task.LoopInv cfg msgs view)
    (hgrow : StoreGrowth cfg msgs msgs') : task.LoopInv cfg msgs' view := by
  have hlen : ∀ {ch ch' : Channel} {added : List View} {rx : Receiver},
      ch'.sent = ch.sent ++ added → rx ≤ ch.sent.length → rx ≤ ch'.sent.length := by
    intro ch ch' added rx hsent hle
    rw [hsent, List.length_append]
    exact hle.trans (Nat.le_add_right _ _)
  cases task with
  | countPrepares digest rx =>
    obtain ⟨added, hsent, -⟩ := hgrow.prepare (fun _ => true)
    exact hlen hsent h
  | takeSeals digest rx =>
    obtain ⟨added, hsent, -⟩ := hgrow.commit (fun _ => true)
    exact hlen hsent h
  | takeRoundChanges rx =>
    obtain ⟨added, hsent, -⟩ := hgrow.roundChange
    exact hlen hsent h
  | recvPrepare digest rx count =>
    let f : View → PrepareMessageSigned → Bool := fun _ m => m.proposedBlockDigest = digest
    exact Counted.grow (f := f) h (hgrow.prepare _)
  | recvCommit digest rx count =>
    let f : View → CommitMessageSigned → Bool := fun _ m => m.proposedBlockDigest = digest
    exact Counted.grow (f := f) h (hgrow.commit _)
  | recvRoundChange rx count =>
    exact Counted.grow (f := fun v => roundChangeValid cfg v.height) h hgrow.roundChange
  | _ => trivial

variable {env : Env} {runState : RunState}

theorem loop?_propose (rawBlock : RawBlock) (rcc : Option RoundChangeCertificate) :
    (propose cfg view rawBlock rcc).loop? = none := by
  unfold propose
  split <;> rfl

theorem loop?_buildAndPropose (rcc : Option RoundChangeCertificate) :
    (buildAndPropose cfg env view rcc).loop? = none := by
  unfold buildAndPropose
  split
  · rfl
  · exact loop?_propose _ _

theorem loop?_proposeFromRoundChanges (roundChanges : Option (List RoundChangeMessageSigned)) :
    (proposeFromRoundChanges cfg env view roundChanges).loop? = none := by
  unfold proposeFromRoundChanges
  split
  · rfl
  · split
    · rfl
    · exact loop?_propose _ _
    · exact loop?_buildAndPropose _

theorem loop?_prepareDigest {missing : RoundTask} (hmissing : missing.loop? = none)
    (digest : Option (Except IBFTError Digest)) :
    (prepareDigest cfg view missing digest).loop? = none := by
  unfold prepareDigest
  split
  · exact hmissing
  · rfl
  · rfl

/-- `run_commit` after its loop. -/
def sealsReady : Option CommitSeals → RoundTask
  | none => .panicked "Must have value when reached quorum"
  | some commitSeals => .finished commitSeals

theorem loop?_sealsReady (seals : Option CommitSeals) : (sealsReady seals).loop? = none := by
  cases seals <;> rfl

theorem sealsTaken_eq (msgs : ConsensusMessages) (env : Env) (view : View) (digest : Digest)
    (rx : Receiver) (f : CommitMessageSigned → Bool) (quorum : ℕ) :
    sealsTaken cfg view digest rx (msgs.takeValidCommitSeals env view f quorum).1 =
      if (validSenders msgs.commitMessages view f).length < cfg.validatorManager.quorum view.height
      then .recvCommit digest rx (validSenders msgs.commitMessages view f).length
      else sealsReady (msgs.takeValidCommitSeals env view f quorum).1.1 := by
  rw [length_validSenders]
  unfold ConsensusMessages.takeValidCommitSeals sealsTaken
  simp only
  by_cases h : quorum ≤ (ConsensusMessages.viewEntries
    (ConsensusMessages.retainView msgs.commitMessages view f) view).length
  · simp only [if_pos h]
    rfl
  · simp only [if_neg h]
    rfl

/-- **One step of a loop**: what it knows stays right. -/
theorem LoopInv.step {task : RoundTask} {s : TaskStep RoundTask} (h : task.LoopInv cfg msgs view)
    (hs : task.step cfg env view runState msgs = some s)
    (hgrow : StoreGrowth cfg msgs s.messages) : s.task.LoopInv cfg s.messages view := by
  cases task with
  | start =>
    cases hs
    show (pollStart cfg env view msgs).LoopInv cfg msgs view
    unfold pollStart
    split
    · split
      · exact .of_loop? (loop?_buildAndPropose _)
      · exact le_rfl
    · trivial
  | broadcastProposal | broadcastPrepare | broadcastCommit =>
    cases hs
    trivial
  | addProposal | addPrepare | addCommit =>
    cases hs
    exact le_rfl
  | getProposal | getProposalAgain =>
    cases hs
    exact .of_loop? (loop?_prepareDigest rfl _)
  | recvProposal rx =>
    rcases step_of_waiting hs rfl with ⟨-, why, -, rfl⟩ | ⟨v, -, rfl⟩
    · trivial
    · show LoopInv cfg msgs view (if v = view then _ else _)
      split <;> trivial
  | countPrepares digest rx =>
    -- A query keeps what is valid, so the store before it will do.
    suffices h : s.task.LoopInv cfg msgs view from h.grow hgrow
    cases hs
    show LoopInv cfg msgs view (prepareCounted cfg view digest rx _)
    unfold prepareCounted
    rw [← length_validSenders]
    split
    next hlt => exact Counted.query h hlt
    next => trivial
  | takeSeals digest rx =>
    suffices h : s.task.LoopInv cfg msgs view from h.grow hgrow
    cases hs
    show LoopInv cfg msgs view (sealsTaken cfg view digest rx (msgs.takeValidCommitSeals env view
      (fun m => m.proposedBlockDigest = digest) (cfg.validatorManager.quorum view.height)).1)
    rw [sealsTaken_eq]
    split
    next hlt => exact Counted.query h hlt
    next => exact .of_loop? (loop?_sealsReady _)
  | takeRoundChanges rx =>
    suffices h : s.task.LoopInv cfg msgs view from h.grow hgrow
    cases hs
    let quorum := cfg.validatorManager.quorum view.height
    let taken :=
      (msgs.takeValidRoundChangeMessages env view (roundChangeVerifyFn cfg view.height) quorum).1
    show LoopInv cfg msgs view
      (if taken.2 < quorum then .recvRoundChange rx taken.2
        else proposeFromRoundChanges cfg env view taken.1)
    rw [ConsensusMessages.takeValidRoundChangeMessages_count, length_viewEntries_retainVerified]
    split
    next hlt => exact Counted.query h hlt
    next => exact .of_loop? (loop?_proposeFromRoundChanges _)
  | recvPrepare | recvCommit | recvRoundChange =>
    rcases step_of_waiting hs rfl with ⟨-, why, -, rfl⟩ | ⟨v, hrecv, rfl⟩
    · trivial
    · -- The loop counts a notification of its view, and queries when the count is the quorum.
      exact Counted.notified h hrecv (fun hle => hle) (fun _ hc => hc)
  | finished | failed | panicked => cases hs

/-- A notification does not end a loop. -/
theorem loop?_notified (task : RoundTask) (v : View) :
    (task.notified cfg view v).loop? = task.loop? := by
  cases task with
  | recvRoundChange | recvPrepare | recvCommit =>
    simp only [notified]
    split
    · split <;> rfl
    · rfl
  | recvProposal =>
    simp only [notified]
    split <;> rfl
  | _ => rfl

/-- **No early exit**: a loop ends on the answer of a query. -/
theorem reached_of_exit {task : RoundTask} {s : TaskStep RoundTask} {loop : CountingLoop}
    (hs : task.step cfg env view runState msgs = some s) (hloop : task.loop? = some loop)
    (hlag : ¬ Lagging (task.waiting msgs)) (hexit : s.task.loop? ≠ some loop) :
    loop.Reached cfg msgs view := by
  cases task with
  | countPrepares digest rx =>
    cases hloop
    cases hs
    -- Below the threshold the answer leads back into the loop.
    refine holds_iff.mpr (not_lt.mp fun hlt => hexit ?_)
    show (prepareCounted cfg view digest rx _).loop? = _
    unfold prepareCounted
    rw [← length_validSenders, if_pos hlt]
    rfl
  | takeSeals digest rx =>
    cases hloop
    cases hs
    refine holds_iff.mpr (not_lt.mp fun hlt => hexit ?_)
    show (sealsTaken cfg view digest rx (msgs.takeValidCommitSeals env view
      (fun m => m.proposedBlockDigest = digest)
      (cfg.validatorManager.quorum view.height)).1).loop? = _
    rw [sealsTaken_eq, if_pos hlt]
    rfl
  | takeRoundChanges rx =>
    cases hloop
    cases hs
    refine holds_iff.mpr (not_lt.mp fun hlt => hexit ?_)
    show (if (msgs.takeValidRoundChangeMessages env view (roundChangeVerifyFn cfg view.height)
      (cfg.validatorManager.quorum view.height)).1.2 < _ then _ else _ : RoundTask).loop? = _
    rw [ConsensusMessages.takeValidRoundChangeMessages_count, length_viewEntries_retainVerified,
      if_pos hlt]
    rfl
  | recvPrepare | recvCommit | recvRoundChange =>
    rw [waiting, lagging_some_iff, ← Channel.recv_eq_lagged_iff] at hlag
    rcases step_of_waiting hs rfl with ⟨hlagged, -⟩ | ⟨v, -, rfl⟩
    · exact absurd hlagged hlag
    · exact absurd ((loop?_notified _ v).trans hloop) hexit
  | _ => cases hloop

/-- A loop that has read every notification and still waits has not reached its threshold. -/
theorem LoopInv.not_reached {task : RoundTask} {loop : CountingLoop} {ch : Channel} {rx : Receiver}
    (h : task.LoopInv cfg msgs view) (hloop : task.loop? = some loop)
    (hwaiting : task.waiting msgs = some (ch, rx)) (hrecv : ch.recv rx = .pending) :
    ¬ loop.Reached cfg msgs view := by
  cases task with
  | recvPrepare | recvCommit | recvRoundChange =>
    cases hloop
    cases hwaiting
    exact Counted.not_holds h hrecv
  | countPrepares | takeSeals | takeRoundChanges => cases hwaiting
  | _ => cases hloop

end RoundTask

/-! ## The monitor of round changes -/

theorem nextScan_skips {test : ℕ → Bool} {k : ℕ} {next : Option ℕ}
    (h : nextScan view test k = next) {j : ℕ} (hround : view.round.toNat < j) (hk : j < k)
    (hnext : ∀ idx, next = some idx → idx < j) : test j = false := by
  induction k with
  | zero => omega
  | succ k ih =>
    rw [nextScan] at h
    split at h
    next => omega
    next =>
      split at h
      next htest =>
        -- The scan stops at `k`, and `j` is not above it.
        have hlt := hnext k h.symm
        omega
      next htest =>
        rcases Nat.lt_succ_iff_lt_or_eq.mp hk with hlt | rfl
        · exact ih h hlt
        · simpa using htest

/-- The view of a round given by its index in an array. -/
def View.atIndex (view : View) (idx : ℕ) : View :=
  { height := view.height, round := UInt8.ofNat idx }

theorem View.atIndex_toNat {v : View} (hheight : v.height = view.height) :
    view.atIndex v.round.toNat = v := by
  rw [View.atIndex, UInt8.ofNat_toNat, ← hheight]

theorem View.atIndex_inj {v : View} {idx : ℕ} (hidx : idx < roundArraySize)
    (h : v = view.atIndex idx) : v.round.toNat = idx := by
  rw [h]
  exact toNat_ofNat_of_lt hidx

/-- The counts of all later rounds are not behind, and those of the settled rounds are below the
quorum. -/
structure CountsInv (cfg : Config) (msgs : ConsensusMessages) (view : View) (rx : Receiver)
    (counts : List ℕ) (settled : ℕ → Prop) : Prop where
  rx_le : rx ≤ msgs.roundChangeTx.sent.length
  valid_le : ∀ idx, view.round.toNat < idx → idx < roundArraySize →
    (validSenders msgs.roundChangeMessages (view.atIndex idx)
        (roundChangeValid cfg view.height)).length ≤
      counts[idx]?.getD 0 + msgs.roundChangeTx.pendingAt rx (view.atIndex idx)
  below : ∀ idx, view.round.toNat < idx → idx < roundArraySize → settled idx →
    counts[idx]?.getD 0 < cfg.validatorManager.quorum view.height

namespace CountsInv

variable {rx : Receiver} {counts : List ℕ} {settled settled' : ℕ → Prop} {idx count : ℕ}

theorem mono (h : CountsInv cfg msgs view rx counts settled)
    (hsub : ∀ idx, view.round.toNat < idx → idx < roundArraySize → settled' idx →
      settled idx ∨ counts[idx]?.getD 0 < cfg.validatorManager.quorum view.height) :
    CountsInv cfg msgs view rx counts settled' where
  rx_le := h.rx_le
  valid_le := h.valid_le
  below idx hlt hidx hs := (hsub idx hlt hidx hs).elim (h.below idx hlt hidx) id

theorem grow (h : CountsInv cfg msgs view rx counts settled) (hgrow : StoreGrowth cfg msgs msgs') :
    CountsInv cfg msgs' view rx counts settled := by
  obtain ⟨added, hsent, hle⟩ := hgrow.roundChange
  refine ⟨?_, fun idx hlt hidx => ?_, h.below⟩
  · rw [hsent, List.length_append]
    exact h.rx_le.trans (Nat.le_add_right _ _)
  · have hold := h.valid_le idx hlt hidx
    have hnew : (validSenders msgs'.roundChangeMessages (view.atIndex idx)
          (roundChangeValid cfg view.height)).length ≤
        (validSenders msgs.roundChangeMessages (view.atIndex idx)
          (roundChangeValid cfg view.height)).length + added.count (view.atIndex idx) :=
      hle (view.atIndex idx)
    rw [Channel.pendingAt_append hsent h.rx_le]
    omega

/-- The answer of a query replaces a count. -/
theorem query (h : CountsInv cfg msgs view rx counts settled) (hidx : idx < counts.length)
    (hcount : (validSenders msgs.roundChangeMessages (view.atIndex idx)
      (roundChangeValid cfg view.height)).length = count)
    (hbelow : count < cfg.validatorManager.quorum view.height) :
    CountsInv cfg msgs view rx (counts.set idx count) (fun j => settled j ∨ j = idx) where
  rx_le := h.rx_le
  valid_le j hj hjlt := by
    by_cases hji : j = idx
    · subst hji
      rw [List.getElem?_set_self hidx, Option.getD_some, hcount]
      exact Nat.le_add_right _ _
    · rw [List.getElem?_set_ne (Ne.symm hji)]
      exact h.valid_le j hj hjlt
  below j hj hjlt hs := by
    by_cases hji : j = idx
    · subst hji
      rw [List.getElem?_set_self hidx, Option.getD_some]
      exact hbelow
    · rw [List.getElem?_set_ne (Ne.symm hji)]
      exact h.below j hj hjlt (hs.resolve_right hji)

/-- A notification of a later round is counted. -/
theorem read (h : CountsInv cfg msgs view rx counts settled) {newView : View}
    (hrecv : msgs.roundChangeTx.recv rx = .notified newView)
    (hget : counts[newView.round.toNat]? = some count) :
    CountsInv cfg msgs view (rx + 1) (counts.set newView.round.toNat (count + 1))
      (fun j => settled j ∧ j ≠ newView.round.toNat) where
  rx_le := (Channel.pendingAt_notified (v := newView) hrecv).1
  valid_le j hj hjlt := by
    have hold := h.valid_le j hj hjlt
    rw [(Channel.pendingAt_notified (v := view.atIndex j) hrecv).2] at hold
    by_cases hji : j = newView.round.toNat
    · rw [hji, hget, Option.getD_some] at hold
      rw [hji, List.getElem?_set_self (List.getElem?_eq_some_iff.mp hget).1, Option.getD_some]
      split at hold <;> omega
    · have hne : newView ≠ view.atIndex j := fun heq => hji (View.atIndex_inj hjlt heq).symm
      rw [if_neg hne] at hold
      rw [List.getElem?_set_ne (Ne.symm hji)]
      exact hold
  below j hj hjlt hs := by
    rw [List.getElem?_set_ne (Ne.symm hs.2)]
    exact h.below j hj hjlt hs.1

/-- A notification of another height or of an earlier round is not. -/
theorem skip (h : CountsInv cfg msgs view rx counts settled) {newView : View}
    (hrecv : msgs.roundChangeTx.recv rx = .notified newView)
    (hother : ¬ (newView.height = view.height ∧ view.round < newView.round)) :
    CountsInv cfg msgs view (rx + 1) counts settled where
  rx_le := (Channel.pendingAt_notified (v := newView) hrecv).1
  valid_le j hj hjlt := by
    have hold := h.valid_le j hj hjlt
    have hne : newView ≠ view.atIndex j := by
      rintro rfl
      exact hother ⟨rfl, (round_of_index hj hjlt).1⟩
    rw [(Channel.pendingAt_notified (v := view.atIndex j) hrecv).2, if_neg hne] at hold
    exact hold
  below := h.below

end CountsInv

namespace FutureRccTask

/-- What the monitor knows at its await points. -/
def LoopInv (cfg : Config) (msgs : ConsensusMessages) (view : View) : FutureRccTask → Prop
  | .countByRound rx => rx ≤ msgs.roundChangeTx.sent.length
  | .scan rx counts idx => CountsInv cfg msgs view rx counts (fun j => idx < j)
  | .recv rx counts => CountsInv cfg msgs view rx counts (fun _ => True)
  | .recount rx counts newView =>
    newView.height = view.height ∧
      CountsInv cfg msgs view rx counts (fun j => j ≠ newView.round.toNat)
  | .start | .sent _ | .panicked _ => True

theorem LoopInv.grow {task : FutureRccTask} (h : task.LoopInv cfg msgs view)
    (hgrow : StoreGrowth cfg msgs msgs') : task.LoopInv cfg msgs' view := by
  cases task with
  | countByRound rx =>
    obtain ⟨added, hsent, -⟩ := hgrow.roundChange
    show rx ≤ msgs'.roundChangeTx.sent.length
    rw [hsent, List.length_append]
    exact Nat.le_trans h (Nat.le_add_right _ _)
  | scan | recv => exact CountsInv.grow h hgrow
  | recount => exact ⟨h.1, h.2.grow hgrow⟩
  | start | sent | panicked => trivial

/-- The scan settles the rounds it passes. -/
theorem loopInv_scanBelow {rx : Receiver} {counts : List ℕ} {k : ℕ}
    (h : CountsInv cfg msgs view rx counts (fun j => k ≤ j)) :
    (scanBelow cfg view rx counts k).LoopInv cfg msgs view := by
  have hpassed : ∀ next, nextScan view
      (fun idx => cfg.validatorManager.quorum view.height ≤ counts[idx]?.getD 0) k = next →
      ∀ j, view.round.toNat < j → (∀ idx, next = some idx → idx < j) →
        k ≤ j ∨ counts[j]?.getD 0 < cfg.validatorManager.quorum view.height := by
    intro next hnext j hj hall
    rcases Nat.lt_or_ge j k with hlt | hge
    · have htest := nextScan_skips hnext hj hlt hall
      exact Or.inr (by simpa using htest)
    · exact Or.inl hge
  unfold scanBelow
  simp only
  split
  next idx hscan =>
    refine h.mono fun j hj _ hs => hpassed _ hscan j hj ?_
    intro i hi
    cases hi
    exact hs
  next hscan => exact h.mono fun j hj _ _ => hpassed _ hscan j hj (fun i hi => by cases hi)

/-- Counting messages counts the valid ones among them. -/
theorem countsInv_countByRound {rx : Receiver} {counts : List ℕ}
    (hrx : rx ≤ msgs.roundChangeTx.sent.length)
    (h : msgs.roundChangeCountByRound view.height = some counts) :
    CountsInv cfg msgs view rx counts (fun j => roundArraySize ≤ j) where
  rx_le := hrx
  valid_le idx hlt hidx := by
    unfold ConsensusMessages.roundChangeCountByRound at h
    simp only at h
    split at h
    next =>
      cases h
      rw [List.getElem?_map, List.getElem?_range hidx]
      refine Nat.le_trans ?_ (Nat.le_add_right _ _)
      show _ ≤ (ConsensusMessages.viewEntries msgs.roundChangeMessages (view.atIndex idx)).length
      rw [← List.length_map Prod.fst]
      refine (List.subperm_of_subset nodup_validSenders fun a ha => ?_).length_le
      obtain ⟨t, hst, -⟩ := mem_validSenders.mp ha
      exact List.mem_map.mpr ⟨(a, t), ConsensusMessages.mem_viewEntries.mpr hst, rfl⟩
    next => cases h
  below idx _ hidx hs := absurd hidx (Nat.not_lt.mpr hs)

/-- **One step of the monitor**: what it knows stays right. -/
theorem LoopInv.step {task : FutureRccTask} {runState : RunState} {s : TaskStep FutureRccTask}
    (h : task.LoopInv cfg msgs view) (hinv : task.Inv view)
    (hs : task.step cfg view runState msgs = some s) (hgrow : StoreGrowth cfg msgs s.messages) :
    s.task.LoopInv cfg s.messages view := by
  suffices h : s.task.LoopInv cfg msgs view from h.grow hgrow
  cases task with
  | start =>
    cases hs
    exact le_rfl
  | countByRound rx =>
    simp only [FutureRccTask.step] at hs
    split at hs
    · cases hs
      trivial
    next counts hcounts =>
      cases hs
      exact loopInv_scanBelow (countsInv_countByRound h hcounts)
  | scan rx counts idx =>
    obtain ⟨hlen, -, hidx⟩ := hinv
    cases hs
    let count := (ConsensusMessages.viewEntries (msgs.retainVerified (view.atIndex idx)
      (roundChangeVerifyFn cfg view.height)) (view.atIndex idx)).length
    show LoopInv cfg msgs view (if cfg.validatorManager.quorum view.height ≤ count then _
      else scanBelow cfg view rx (counts.set idx count) idx)
    rw [show count = _ from length_viewEntries_retainVerified _ _ _]
    split
    · trivial
    next hbelow =>
      have hquery := CountsInv.query h (hlen ▸ hidx) rfl (not_le.mp hbelow)
      refine loopInv_scanBelow (hquery.mono fun j _ _ hj => Or.inl ?_)
      omega
  | recv rx counts =>
    simp only [FutureRccTask.step] at hs
    split at hs
    · cases hs
    · cases hs
      trivial
    next newView hrecv =>
      split at hs
      next hnew =>
        split at hs
        · cases hs
          trivial
        next count hget =>
          cases hs
          have hread := CountsInv.read h hrecv hget
          show LoopInv cfg msgs view (if _ then _ else _)
          split
          · exact ⟨hnew.1, hread.mono fun j _ _ hj => Or.inl ⟨trivial, hj⟩⟩
          next hbelow =>
            refine hread.mono fun j _ _ _ => ?_
            by_cases hji : j = newView.round.toNat
            · subst hji
              rw [List.getElem?_set_self (List.getElem?_eq_some_iff.mp hget).1]
              exact Or.inr (not_le.mp hbelow)
            · exact Or.inl ⟨trivial, hji⟩
      next hother =>
        cases hs
        exact CountsInv.skip h hrecv hother
  | recount rx counts newView =>
    obtain ⟨hlen, -, hround⟩ := hinv
    obtain ⟨hheight, hcounts⟩ := h
    cases hs
    let count := (ConsensusMessages.viewEntries (msgs.retainVerified newView
      (roundChangeVerifyFn cfg view.height)) newView).length
    show LoopInv cfg msgs view (if cfg.validatorManager.quorum view.height ≤ count then _
      else .recv rx (counts.set newView.round.toNat count))
    rw [show count = _ from length_viewEntries_retainVerified _ _ _]
    split
    · trivial
    next hbelow =>
      have hidx : newView.round.toNat < counts.length := hlen ▸ toNat_lt_roundArraySize hround
      have hquery := hcounts.query hidx (by rw [View.atIndex_toNat hheight]) (not_le.mp hbelow)
      exact hquery.mono fun j _ _ _ => Or.inl (ne_or_eq j _)
  | sent | panicked => cases hs

/-- The monitor has returned, or failed to. -/
def Ended : FutureRccTask → Prop
  | .sent _ | .panicked _ => True
  | _ => False

theorem not_ended_scanBelow {rx : Receiver} {counts : List ℕ} {k : ℕ} :
    ¬ (scanBelow cfg view rx counts k).Ended := by
  unfold scanBelow
  simp only
  split <;> exact id

/-- **No early exit**: the monitor ends on the answer of a query for a later round. -/
theorem reached_of_ended {task : FutureRccTask} {runState : RunState}
    {s : TaskStep FutureRccTask} (h : task.LoopInv cfg msgs view) (hinv : task.Inv view)
    (hstored : RoundChangesLe msgs) (hsent : ∀ v ∈ msgs.roundChangeTx.sent, v.round ≤ maxRound)
    (hlag : ¬ Lagging (task.waiting msgs)) (hs : task.step cfg view runState msgs = some s)
    (hended : s.task.Ended) :
    ∃ round, s.task = .sent round ∧ view.round < round ∧
      CountingLoop.roundChange.Reached cfg msgs { height := view.height, round } := by
  cases task with
  | start =>
    cases hs
    exact absurd hended id
  | countByRound rx =>
    simp only [FutureRccTask.step] at hs
    split at hs
    next hnone =>
      -- The array has an index for every stored round.
      unfold ConsensusMessages.roundChangeCountByRound at hnone
      simp only at hnone
      split at hnone
      · cases hnone
      next hall =>
        refine absurd (List.all_eq_true.mpr fun round hround => ?_) hall
        obtain ⟨k, e, hst, hk⟩ := FirstWinsMap.mem_select.mp hround
        split at hk
        · cases hk
          exact decide_eq_true (toNat_lt_roundArraySize (hstored k e hst))
        · cases hk
    · cases hs
      exact absurd hended not_ended_scanBelow
  | scan rx counts idx =>
    obtain ⟨-, hlt, hidx⟩ := hinv
    cases hs
    let count := (ConsensusMessages.viewEntries (msgs.retainVerified (view.atIndex idx)
      (roundChangeVerifyFn cfg view.height)) (view.atIndex idx)).length
    by_cases hle : cfg.validatorManager.quorum view.height ≤ count
    · refine ⟨UInt8.ofNat idx, if_pos hle, (round_of_index hlt hidx).1, holds_iff.mpr ?_⟩
      rw [show count = _ from length_viewEntries_retainVerified _ _ _] at hle
      exact hle
    · have hnext : (if cfg.validatorManager.quorum view.height ≤ count then
          .sent (UInt8.ofNat idx) else scanBelow cfg view rx (counts.set idx count) idx).Ended :=
        hended
      rw [if_neg hle] at hnext
      exact absurd hnext not_ended_scanBelow
  | recv rx counts =>
    rw [waiting, lagging_some_iff, ← Channel.recv_eq_lagged_iff] at hlag
    simp only [FutureRccTask.step] at hs
    split at hs
    · cases hs
    next hrecv => exact absurd hrecv hlag
    next newView hrecv =>
      split at hs
      next hnew =>
        split at hs
        next hnone =>
          -- The array has an index for every announced round.
          have hmem : newView ∈ msgs.roundChangeTx.sent := by
            unfold Channel.recv at hrecv
            split at hrecv
            · cases hrecv
            · split at hrecv
              · cases hrecv
              next hget =>
                cases hrecv
                exact List.mem_of_getElem? hget
          have hlt := toNat_lt_roundArraySize (hsent newView hmem)
          have hlen : counts.length = roundArraySize := hinv
          have hout := List.getElem?_eq_none_iff.mp hnone
          omega
        next count hget =>
          cases hs
          have hnext : (if cfg.validatorManager.quorum view.height ≤ count + 1 then
              FutureRccTask.recount (rx + 1) (counts.set newView.round.toNat (count + 1)) newView
            else .recv (rx + 1) (counts.set newView.round.toNat (count + 1))).Ended := hended
          split at hnext <;> exact absurd hnext id
      next =>
        cases hs
        exact absurd hended id
  | recount rx counts newView =>
    obtain ⟨hheight, -⟩ := h
    cases hs
    let count := (ConsensusMessages.viewEntries (msgs.retainVerified newView
      (roundChangeVerifyFn cfg view.height)) newView).length
    by_cases hle : cfg.validatorManager.quorum view.height ≤ count
    · refine ⟨newView.round, if_pos hle, hinv.2.1, holds_iff.mpr ?_⟩
      rw [show count = _ from length_viewEntries_retainVerified _ _ _] at hle
      obtain ⟨height, round⟩ := newView
      cases hheight
      exact hle
    · have hnext : (if cfg.validatorManager.quorum view.height ≤ count then
          FutureRccTask.sent newView.round
        else .recv rx (counts.set newView.round.toNat count)).Ended := hended
      rw [if_neg hle] at hnext
      exact absurd hnext id
  | sent | panicked => cases hs

/-- A monitor that has read every notification and still waits has a reason in every later
round. -/
theorem LoopInv.not_reached {rx : Receiver} {counts : List ℕ}
    (h : (FutureRccTask.recv rx counts).LoopInv cfg msgs view) (hstored : RoundChangesLe msgs)
    (hquorum : 0 < cfg.validatorManager.quorum view.height)
    (hrecv : msgs.roundChangeTx.recv rx = .pending) {round : UInt8} (hlater : view.round < round) :
    ¬ CountingLoop.roundChange.Reached cfg msgs { height := view.height, round } := by
  intro hreached
  have hcount := holds_iff.mp hreached
  by_cases hround : round ≤ maxRound
  · have hidx := toNat_lt_roundArraySize hround
    have hat : view.atIndex round.toNat = { height := view.height, round } := by
      rw [View.atIndex, UInt8.ofNat_toNat]
    have hlt := UInt8.lt_iff_toNat_lt.mp hlater
    have hvalid := CountsInv.valid_le h round.toNat hlt hidx
    have hbelow := CountsInv.below h round.toNat hlt hidx trivial
    rw [Channel.pendingAt_eq_zero hrecv, hat] at hvalid
    simp only at hcount
    omega
  · -- No round change of a round over the limit is stored.
    obtain ⟨senders, -, hlen, hall⟩ := hreached
    cases senders with
    | nil =>
      simp only [List.length_nil] at hlen
      omega
    | cons a senders =>
      obtain ⟨e, hst, -⟩ := hall a List.mem_cons_self
      exact hround (hstored _ e hst)

end FutureRccTask

/-! ## Runs -/

/-- What the counting loops of a run know. -/
structure Run.LoopsInv (cfg : Config) (msgs : ConsensusMessages) (run : Run) : Prop where
  round : ∀ task, run.roundTask = some task → task.LoopInv cfg msgs run.view
  futureRcc : ∀ task, run.futureRccTask = some task → task.LoopInv cfg msgs run.view

theorem Run.Spawned.loopsInv (h : run.Spawned) : run.LoopsInv cfg msgs where
  round task htask := by rw [h.round task htask]; trivial
  futureRcc task htask := by rw [h.futureRcc task htask]; trivial

theorem Run.LoopsInv.grow (h : run.LoopsInv cfg msgs) (hgrow : StoreGrowth cfg msgs msgs') :
    run.LoopsInv cfg msgs' where
  round task htask := (h.round task htask).grow hgrow
  futureRcc task htask := (h.futureRcc task htask).grow hgrow

variable {run' : Run} {n n' : Node}

theorem RunStep.loopsInv (h : RunStep cfg msgs run ev msgs' run') (hinv : run.Inv cfg K)
    (hgrow : StoreGrowth cfg msgs msgs') (hold : run.LoopsInv cfg msgs) :
    run'.LoopsInv cfg msgs' := by
  have hnew := hold.grow hgrow
  cases h with
  | @round env task s htask hs =>
    refine ⟨fun task' h => ?_, hnew.futureRcc⟩
    cases h
    exact (hold.round task htask).step hs hgrow
  | @futureRcc task s htask hs =>
    refine ⟨hnew.round, fun task' h => ?_⟩
    cases h
    exact (hold.futureRcc task htask).step (hinv.rccTask task htask) hs hgrow
  | addOwnRoundChange =>
    refine ⟨fun task' h => ?_, hnew.futureRcc⟩
    cases h
    trivial
  | broadcastRoundChange | futureProposalReady | futureRccReady =>
    exact (Run.spawned_enterRound cfg _ _).loopsInv
  | cancel | roundFinished | timeoutCommit | timeoutEarly =>
    exact Run.Spawned.loopsInv (Run.spawned_abort run _)
  | _ => exact ⟨hnew.round, hnew.futureRcc⟩

/-- What holds of a node's channel of round changes and of the loops of its run. -/
structure Node.LoopsInv (cfg : Config) (n : Node) : Prop where
  round_le : ∀ v ∈ n.messages.roundChangeTx.sent, v.round ≤ maxRound
  run : ∀ run, n.run = some run → run.LoopsInv cfg n.messages

theorem Node.LoopsInv.step (h : n.LoopsInv cfg) (hknown : n.StoreKnown cfg)
    (hstep : NodeStep cfg n ev n') : n'.LoopsInv cfg := by
  have hgrown : ∀ {msgs'}, StoreGrowth cfg n.messages msgs' →
      ∀ v ∈ msgs'.roundChangeTx.sent, v.round ≤ maxRound :=
    fun hgrow v hv => (hgrow.round_le v hv).elim (h.round_le v) id
  cases hstep with
  | receive => exact ⟨h.round_le, h.run⟩
  | @addPending m sender hpending =>
    have hgrow : StoreGrowth cfg n.messages (n.messages.addMessage sender m) :=
      .addMessage (hknown.inv.pending_round_le hpending)
    exact ⟨hgrown hgrow, fun run hrun => (h.run run hrun).grow hgrow⟩
  | runHeight =>
    refine ⟨h.round_le, fun run hrun => ?_⟩
    cases hrun
    exact (Run.spawned_start cfg _ _).loopsInv
  | @run ev run run' msgs height hrun hrunstep =>
    have hinv := hknown.inv.run run hrun
    have hgrow := (hknown.storeStep hrun hrunstep).growth hinv
    refine ⟨hgrown hgrow, fun new hnew => ?_⟩
    cases hnew
    exact hrunstep.loopsInv hinv hgrow (h.run run hrun)

theorem Node.loopsInv_of_reachable {height : UInt64}
    (h : Reachable (Node.step cfg) (Node.init cfg height) n) : n.LoopsInv cfg :=
  h.invariant_of (fun _ hn => Node.storeKnown_of_reachable hn)
    (fun _ _ _ hknown _ hold hstep => hold.step hknown (nodeStep_of_step hstep))
    ⟨fun _ hv => (nomatch hv), fun _ hrun => (nomatch hrun)⟩

/-- **No lost wakeup and no early exit.**  What the counting loops of a run do with the store. -/
structure Run.LoopsSound (cfg : Config) (msgs : ConsensusMessages) (run : Run) : Prop where
  /-- A loop of the round task is left only where a query finds its threshold. -/
  exit : ∀ task loop env s, run.roundTask = some task → task.loop? = some loop →
    ¬ Lagging (task.waiting msgs) → task.step cfg env run.view run.runState msgs = some s →
    s.task.loop? ≠ some loop → loop.Reached cfg msgs run.view
  /-- A loop that has read every notification waits below its threshold. -/
  wait : ∀ task loop ch rx, run.roundTask = some task → task.loop? = some loop →
    task.waiting msgs = some (ch, rx) → ch.recv rx = .pending → ¬ loop.Reached cfg msgs run.view
  /-- The monitor ends only where a query finds a quorum in a later round. -/
  futureExit : ∀ task s, run.futureRccTask = some task → ¬ Lagging (task.waiting msgs) →
    task.step cfg run.view run.runState msgs = some s → s.task.Ended →
    ∃ round, s.task = .sent round ∧ run.round < round ∧
      CountingLoop.roundChange.Reached cfg msgs { height := run.height, round }
  /-- A monitor that has read every notification waits below the quorum of every later round. -/
  futureWait : ∀ rx counts, run.futureRccTask = some (.recv rx counts) →
    msgs.roundChangeTx.recv rx = .pending → ∀ round, run.round < round →
    ¬ CountingLoop.roundChange.Reached cfg msgs { height := run.height, round }

/-- **The counting loops neither miss a quorum nor imagine one**, in every reachable state. -/
theorem loops_sound {height : UInt64} (h : Reachable (Node.step cfg) (Node.init cfg height) n)
    (hrun : n.run = some run) (hquorum : 0 < cfg.validatorManager.quorum run.height) :
    run.LoopsSound cfg n.messages where
  exit _ _ _ _ _ hloop hlag hs hexit := RoundTask.reached_of_exit hs hloop hlag hexit
  wait task loop ch rx htask hloop hwaiting hrecv :=
    (((Node.loopsInv_of_reachable h).run run hrun).round task htask).not_reached hloop hwaiting hrecv
  futureExit task s htask hlag hs hended := by
    have hloops := Node.loopsInv_of_reachable h
    exact FutureRccTask.reached_of_ended ((hloops.run run hrun).futureRcc task htask)
      (((Node.inv_of_reachable h).run run hrun).rccTask task htask)
      (Node.roundChangesLe_of_reachable h) hloops.round_le hlag hs hended
  futureWait rx counts htask hrecv round hlater :=
    (((Node.loopsInv_of_reachable h).run run hrun).futureRcc _ htask).not_reached
      (Node.roundChangesLe_of_reachable h) hquorum hrecv hlater

/-- The first of four validators prepares the proposal of the second; the third prepares another
digest, which is counted, dropped by the next query, and leaves the loop waiting. -/
def miscountEvents : List Event :=
  let proposal := (ProposalMessage.new modelCrypto { height := 1, round := 0 } [7] none).intoSigned
    modelCrypto (modelKey 1)
  let prepare := (PrepareMessage.new { height := 1, round := 0 }
    (digestBlock modelCrypto [8] 0)).intoSigned modelCrypto (modelKey 2)
  List.flatten
    [[.runHeight 1, .futureRcc, .futureRcc, .receive (.proposal proposal), .addPending],
      List.replicate 5 (.round (modelEnv [7])), [.receive (.prepare prepare), .addPending],
      List.replicate 2 (.round (modelEnv [7]))]

/-- The first of four validators after these events. -/
def miscountNode : Node :=
  (exec (Node.step fourConfig) (Node.init fourConfig 0) miscountEvents).get (by decide +kernel)

/-- Its run, which waits for another prepare. -/
theorem miscountNode_run : miscountNode.run.isSome = true := by decide +kernel

theorem loops_sound_miscount :
    (miscountNode.run.get miscountNode_run).LoopsSound fourConfig miscountNode.messages :=
  loops_sound (reachable_get _) (Option.some_get _).symm (by decide +kernel)

end Tonic
