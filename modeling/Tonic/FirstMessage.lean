/-
# The first message of a sender

The store promises that of the messages of one sender for one view only the first is
accepted.  It looks at nothing but the slot of the message: a slot that a query has
emptied, because the message in it was taken or rejected, is open to another one.  A
history of the store records which slots were admitted and which of them were emptied;
as long as no message comes for an emptied slot, the promise is kept.
-/
import Tonic.ModelNetwork
import Tonic.StoreSpec

namespace Tonic

open Transition

/-! ## Slots -/

/-- The place of a message in the store.  A view has one proposal, whoever sent it. -/
inductive Slot where
  | proposal (view : View)
  | prepare (view : View) (sender : Address)
  | commit (view : View) (sender : Address)
  | roundChange (view : View) (sender : Address)
  deriving DecidableEq

def Slot.view : Slot → View
  | .proposal view => view
  | .prepare view _ => view
  | .commit view _ => view
  | .roundChange view _ => view

def IBFTMessage.slot (sender : Address) : IBFTMessage → Slot
  | .proposal m => .proposal m.view
  | .prepare m => .prepare m.view sender
  | .commit m => .commit m.view sender
  | .roundChange m => .roundChange m.view sender

/-- Whether the store holds a message in the slot. -/
def ConsensusMessages.occupied (msgs : ConsensusMessages) : Slot → Bool
  | .proposal view => (msgs.storedProposal view).isSome
  | .prepare view sender => (msgs.prepareMessages.get? (view, sender)).isSome
  | .commit view sender => (msgs.commitMessages.get? (view, sender)).isSome
  | .roundChange view sender => (msgs.roundChangeMessages.get? (view, sender)).isSome

/-- The number of notifications sent on all channels. -/
def ConsensusMessages.notifications (msgs : ConsensusMessages) : ℕ :=
  msgs.proposalTx.sent.length + msgs.prepareTx.sent.length + msgs.commitTx.sent.length +
    msgs.roundChangeTx.sent.length

/-! ## Operations -/

/-- The operations that change the store. -/
inductive StoreOp where
  | add (sender : Address) (message : IBFTMessage)
  | getValidProposalDigest (view : View)
      (verifyFn : ProposalMessageSigned → Except IBFTError Unit)
  | takeProposalMessage (view : View)
  | getValidPrepareCount (view : View) (verifyFn : PrepareMessageSigned → Bool)
  | takeValidPrepareMessages (env : Env) (view : View) (verifyFn : PrepareMessageSigned → Bool)
  | takeValidCommitSeals (env : Env) (view : View) (verifyFn : CommitMessageSigned → Bool)
      (quorum : ℕ)
  | takeValidRoundChangeMessages (env : Env) (view : View)
      (verifyFn : RoundChangeMessageSigned → Bool) (quorum : ℕ)
  | getValidRoundChangeCount (view : View) (verifyFn : RoundChangeMessageSigned → Bool)
  | prune (height : UInt64)

namespace StoreOp

variable (msgs : ConsensusMessages)

def apply : StoreOp → ConsensusMessages
  | .add sender m => msgs.addMessage sender m
  | .getValidProposalDigest view f => (msgs.getValidProposalDigest view f).2
  | .takeProposalMessage view => (msgs.takeProposalMessage view).2
  | .getValidPrepareCount view f => (msgs.getValidPrepareCount view f).2
  | .takeValidPrepareMessages env view f => (msgs.takeValidPrepareMessages env view f).2
  | .takeValidCommitSeals env view f quorum => (msgs.takeValidCommitSeals env view f quorum).2
  | .takeValidRoundChangeMessages env view f quorum =>
    (msgs.takeValidRoundChangeMessages env view f quorum).2
  | .getValidRoundChangeCount view f => (msgs.getValidRoundChangeCount view f).2
  | .prune height => msgs.prune height

/-- The slots of stored messages that a query empties: those whose message it rejects, and all of
its view if it takes the valid ones. -/
def empties : StoreOp → Slot → Bool
  | .takeProposalMessage view, .proposal v => v = view
  | .getValidPrepareCount view f, .prepare v sender =>
    v = view ∧ (msgs.prepareMessages.get? (v, sender)).any (fun m => !f m) = true
  | .takeValidPrepareMessages _ view _, .prepare v _ => v = view
  | .takeValidCommitSeals _ view f quorum, .commit v sender =>
    v = view ∧ (quorum ≤ (ConsensusMessages.viewEntries
        (ConsensusMessages.retainView msgs.commitMessages view f) view).length ∨
      (msgs.commitMessages.get? (v, sender)).any (fun m => !f m) = true)
  | .takeValidRoundChangeMessages _ view f quorum, .roundChange v sender =>
    v = view ∧ (quorum ≤ (ConsensusMessages.viewEntries (msgs.retainVerified view f) view).length ∨
      (msgs.roundChangeMessages.get? (v, sender)).any (fun e => !e.2 && !f e.1) = true)
  | .getValidRoundChangeCount view f, .roundChange v sender =>
    v = view ∧ (msgs.roundChangeMessages.get? (v, sender)).any (fun e => !e.2 && !f e.1) = true
  | _, _ => false

end StoreOp

/-! ## What the operations do to the slots -/

namespace ConsensusMessages

variable {msgs : ConsensusMessages}

theorem occupied_eq_false_iff {slot : Slot} :
    msgs.occupied slot = false ↔
      match slot with
      | .proposal view => msgs.storedProposal view = none
      | .prepare view sender => msgs.prepareMessages.get? (view, sender) = none
      | .commit view sender => msgs.commitMessages.get? (view, sender) = none
      | .roundChange view sender => msgs.roundChangeMessages.get? (view, sender) = none := by
  cases slot <;> simp [occupied]

/-- A message for an occupied slot is discarded. -/
theorem addMessage_of_occupied {sender : Address} {m : IBFTMessage}
    (h : msgs.occupied (m.slot sender) = true) : msgs.addMessage sender m = msgs := by
  cases m with
  | proposal m =>
    have hne : msgs.storedProposal m.view ≠ none := Option.isSome_iff_ne_none.mp h
    exact if_neg hne
  | prepare m =>
    have hne : msgs.prepareMessages.get? (m.view, sender) ≠ none := Option.isSome_iff_ne_none.mp h
    exact if_neg hne
  | commit m =>
    have hne : msgs.commitMessages.get? (m.view, sender) ≠ none := Option.isSome_iff_ne_none.mp h
    exact if_neg hne
  | roundChange m =>
    have hne : msgs.roundChangeMessages.get? (m.view, sender) ≠ none :=
      Option.isSome_iff_ne_none.mp h
    exact if_neg hne

theorem addPrepareMessage_of_vacant {m : PrepareMessageSigned} {sender : Address}
    (h : msgs.prepareMessages.get? (m.view, sender) = none) :
    msgs.addPrepareMessage m sender =
      { msgs with
        prepareMessages := msgs.prepareMessages.insertVacant (m.view, sender) m
        prepareTx := msgs.prepareTx.send m.view } :=
  if_pos h

theorem addCommitMessage_of_vacant {m : CommitMessageSigned} {sender : Address}
    (h : msgs.commitMessages.get? (m.view, sender) = none) :
    msgs.addCommitMessage m sender =
      { msgs with
        commitMessages := msgs.commitMessages.insertVacant (m.view, sender) m
        commitTx := msgs.commitTx.send m.view } :=
  if_pos h

theorem addRoundChangeMessage_of_vacant {m : RoundChangeMessageSigned} {sender : Address}
    (h : msgs.roundChangeMessages.get? (m.view, sender) = none) :
    msgs.addRoundChangeMessage m sender =
      { msgs with
        roundChangeMessages := msgs.roundChangeMessages.insertVacant (m.view, sender)
          (m, sender = msgs.selfAddress)
        roundChangeTx := msgs.roundChangeTx.send m.view } :=
  if_pos h

/-- A message for a vacant slot is notified once. -/
theorem notifications_addMessage {sender : Address} {m : IBFTMessage}
    (h : msgs.occupied (m.slot sender) = false) :
    (msgs.addMessage sender m).notifications = msgs.notifications + 1 := by
  have hnone := occupied_eq_false_iff.mp h
  cases m with
  | proposal m =>
    simp only [IBFTMessage.slot] at hnone
    unfold addMessage addProposalMessage
    simp only
    rw [if_pos hnone]
    split <;> simp [notifications, Channel.send] <;> omega
  | prepare m =>
    rw [addMessage, addPrepareMessage_of_vacant hnone]
    simp [notifications, Channel.send]
    omega
  | commit m =>
    rw [addMessage, addCommitMessage_of_vacant hnone]
    simp [notifications, Channel.send]
    omega
  | roundChange m =>
    rw [addMessage, addRoundChangeMessage_of_vacant hnone]
    simp [notifications, Channel.send]
    omega

/-- An addition occupies the slot of its message. -/
theorem occupied_addMessage (sender : Address) (m : IBFTMessage) (slot : Slot) :
    (msgs.addMessage sender m).occupied slot =
      (msgs.occupied slot || decide (slot = m.slot sender)) := by
  cases hocc : msgs.occupied (m.slot sender) with
  | true =>
    -- The first message of a slot stays.
    rw [addMessage_of_occupied hocc]
    by_cases hslot : slot = m.slot sender
    · rw [hslot, hocc]
      rfl
    · simp [hslot]
  | false =>
    -- The message takes its slot, and leaves those of the other kinds alone.
    have hnone := occupied_eq_false_iff.mp hocc
    cases m with
    | proposal m =>
      simp only [IBFTMessage.slot] at hnone
      cases slot with
      | proposal view =>
        show (((msgs.addProposalMessage m sender).storedProposal view).isSome) = _
        rw [storedProposal_addProposalMessage]
        by_cases hv : view = m.view <;> simp [occupied, IBFTMessage.slot, hnone, hv]
      | _ =>
        show occupied (msgs.addProposalMessage m sender) _ = _
        unfold addProposalMessage
        simp only
        rw [if_pos hnone]
        split <;> simp [occupied, IBFTMessage.slot]
    | prepare m =>
      rw [addMessage, addPrepareMessage_of_vacant hnone]
      cases slot with
      | prepare view a =>
        simp only [occupied, IBFTMessage.slot, FirstWinsMap.isSome_get?_insertVacant hnone,
          Prod.mk.injEq, Slot.prepare.injEq]
      | _ => simp [occupied, IBFTMessage.slot, storedProposal]
    | commit m =>
      rw [addMessage, addCommitMessage_of_vacant hnone]
      cases slot with
      | commit view a =>
        simp only [occupied, IBFTMessage.slot, FirstWinsMap.isSome_get?_insertVacant hnone,
          Prod.mk.injEq, Slot.commit.injEq]
      | _ => simp [occupied, IBFTMessage.slot, storedProposal]
    | roundChange m =>
      rw [addMessage, addRoundChangeMessage_of_vacant hnone]
      cases slot with
      | roundChange view a =>
        simp only [occupied, IBFTMessage.slot, FirstWinsMap.isSome_get?_insertVacant hnone,
          Prod.mk.injEq, Slot.roundChange.injEq]
      | _ => simp [occupied, IBFTMessage.slot, storedProposal]

/-- What a view that keeps the passing messages keeps. -/
theorem isSome_retainView {T : Type} (messages : FirstWinsMap (View × Address) T) (view v : View)
    (a : Address) (p : T → Bool) :
    ((retainView messages view p).get? (v, a)).isSome =
      ((messages.get? (v, a)).isSome &&
        !(decide (v = view) && (messages.get? (v, a)).any (fun m => !p m))) := by
  rw [retainView, FirstWinsMap.get?_retain]
  cases messages.get? (v, a) with
  | none => rfl
  | some m => by_cases hv : v = view <;> cases hp : p m <;> simp [Option.filter, hv, hp]

theorem isSome_retainVerified (view v : View) (a : Address)
    (f : RoundChangeMessageSigned → Bool) :
    ((msgs.retainVerified view f).get? (v, a)).isSome =
      ((msgs.roundChangeMessages.get? (v, a)).isSome &&
        !(decide (v = view) &&
          (msgs.roundChangeMessages.get? (v, a)).any (fun e => !e.2 && !f e.1))) := by
  rw [retainVerified, FirstWinsMap.get?_filterMapVal]
  cases msgs.roundChangeMessages.get? (v, a) with
  | none => rfl
  | some e =>
    by_cases hv : v = view <;> cases hflag : e.2 <;> cases hf : f e.1 <;> simp [hv, hflag, hf]

theorem isSome_takeProposalMessage (view v : View) :
    ((msgs.takeProposalMessage view).2.storedProposal v).isSome =
      ((msgs.storedProposal v).isSome && !decide (v = view)) := by
  have hview : v = view ↔ v.height = view.height ∧ v.round = view.round := by
    cases v
    cases view
    simp
  unfold takeProposalMessage storedProposal
  by_cases hv : v.round = 0 <;> by_cases hw : view.round = 0
  · rw [if_pos hw, if_pos hv, if_pos hv, FirstWinsMap.get?_retain]
    simp only [hview, hv, hw, and_true]
    cases msgs.proposal0Messages.get? v.height with
    | none => rfl
    | some p => by_cases hh : v.height = view.height <;> simp [Option.filter, hh]
  · rw [if_neg hw, if_pos hv, if_pos hv]
    have hne : v ≠ view := fun heq => hw (heq ▸ hv)
    simp [hne]
  · rw [if_pos hw, if_neg hv, if_neg hv]
    have hne : v ≠ view := fun heq => hv (heq ▸ hw)
    simp [hne]
  · rw [if_neg hw, if_neg hv, if_neg hv, FirstWinsMap.get?_retain]
    cases msgs.proposal1Messages.get? v with
    | none => rfl
    | some e => by_cases hh : v = view <;> simp [Option.filter, hh]

/-- A query empties the slots that `empties` says. -/
theorem occupied_apply {op : StoreOp} (hadd : ∀ sender m, op ≠ .add sender m)
    (hprune : ∀ height, op ≠ .prune height) (slot : Slot) :
    (op.apply msgs).occupied slot = (msgs.occupied slot && !op.empties msgs slot) := by
  cases op with
  | add sender m => exact absurd rfl (hadd sender m)
  | prune height => exact absurd rfl (hprune height)
  | getValidProposalDigest view f =>
    cases slot with
    | proposal v => simp [StoreOp.apply, StoreOp.empties, occupied]
    | _ =>
      simp only [StoreOp.apply, StoreOp.empties, Bool.not_false, Bool.and_true]
      unfold getValidProposalDigest
      split <;> split <;> rfl
  | takeProposalMessage view =>
    cases slot with
    | proposal v =>
      show ((msgs.takeProposalMessage view).2.storedProposal v).isSome = _
      rw [isSome_takeProposalMessage]
      simp [occupied, StoreOp.empties]
    | _ =>
      simp only [StoreOp.apply, StoreOp.empties, Bool.not_false, Bool.and_true]
      unfold takeProposalMessage
      split <;> rfl
  | getValidPrepareCount view f =>
    cases slot with
    | prepare v a =>
      show ((retainView msgs.prepareMessages view f).get? (v, a)).isSome = _
      rw [isSome_retainView]
      simp [occupied, StoreOp.empties]
    | _ => simp [StoreOp.apply, StoreOp.empties, occupied, getValidPrepareCount, storedProposal]
  | takeValidPrepareMessages env view f =>
    cases slot with
    | prepare v a =>
      show ((retainView msgs.prepareMessages view (fun _ => false)).get? (v, a)).isSome = _
      rw [isSome_retainView]
      by_cases hv : v = view <;> simp [occupied, StoreOp.empties, hv]
    | _ => simp [StoreOp.apply, StoreOp.empties, occupied, takeValidPrepareMessages, storedProposal]
  | takeValidCommitSeals env view f quorum =>
    simp only [StoreOp.apply]
    -- With a quorum the view is emptied, otherwise only what fails the test goes.
    unfold takeValidCommitSeals
    simp only
    split
    next hq =>
      cases slot with
      | commit v a =>
        simp only [occupied, StoreOp.empties, isSome_retainView, hq, true_or, and_true]
        by_cases hv : v = view <;> simp +contextual [hv, isSome_retainView]
      | _ => simp [StoreOp.empties, occupied, storedProposal]
    next hq =>
      cases slot with
      | commit v a =>
        simp only [occupied, StoreOp.empties, isSome_retainView, hq, false_or]
        by_cases hv : v = view <;> simp [hv]
      | _ => simp [StoreOp.empties, occupied, storedProposal]
  | takeValidRoundChangeMessages env view f quorum =>
    simp only [StoreOp.apply]
    -- Likewise, but what fails the verify function goes in either case.
    unfold takeValidRoundChangeMessages
    simp only
    split
    next hq =>
      cases slot with
      | roundChange v a =>
        simp only [occupied, StoreOp.empties, isSome_retainView, isSome_retainVerified, hq,
          true_or, and_true]
        by_cases hv : v = view <;> simp +contextual [hv, isSome_retainVerified]
      | _ => simp [StoreOp.empties, occupied, storedProposal]
    next hq =>
      cases slot with
      | roundChange v a =>
        simp only [occupied, StoreOp.empties, isSome_retainVerified, hq, false_or]
        by_cases hv : v = view <;> simp [hv]
      | _ => simp [StoreOp.empties, occupied, storedProposal]
  | getValidRoundChangeCount view f =>
    cases slot with
    | roundChange v a =>
      show ((msgs.retainVerified view f).get? (v, a)).isSome = _
      rw [isSome_retainVerified]
      simp [occupied, StoreOp.empties]
    | _ => simp [StoreOp.apply, StoreOp.empties, occupied, getValidRoundChangeCount, storedProposal]

theorem occupied_prune (height : UInt64) (slot : Slot) :
    (msgs.prune height).occupied slot =
      (msgs.occupied slot && decide (height ≤ slot.view.height)) := by
  -- Every map keeps its entries from the height on.
  have hretain : ∀ {K V : Type} [DecidableEq K] (m : FirstWinsMap K V) (p : K → Bool) (k : K),
      ((m.retain (fun k _ => p k)).get? k).isSome = ((m.get? k).isSome && p k) := by
    intro K V _ m p k
    rw [FirstWinsMap.get?_retain]
    cases m.get? k with
    | none => rfl
    | some v => cases p k <;> simp [Option.filter]
  cases slot with
  | proposal v =>
    simp only [occupied, storedProposal, prune, Slot.view]
    split
    · exact hretain msgs.proposal0Messages (fun h => decide (height ≤ h)) v.height
    · rw [Option.isSome_map, Option.isSome_map]
      exact hretain msgs.proposal1Messages (fun v => decide (height ≤ v.height)) v
  | prepare v a =>
    exact hretain msgs.prepareMessages (fun k => decide (height ≤ k.1.height)) (v, a)
  | commit v a =>
    exact hretain msgs.commitMessages (fun k => decide (height ≤ k.1.height)) (v, a)
  | roundChange v a =>
    exact hretain msgs.roundChangeMessages (fun k => decide (height ≤ k.1.height)) (v, a)

end ConsensusMessages

/-! ## Histories -/

/-- A store with its past. -/
structure StoreHistory where
  messages : ConsensusMessages
  /-- The slot of every message admitted and notified, one entry for each notification. -/
  notified : List Slot
  /-- The notified slots whose message was rejected or taken since. -/
  emptied : List Slot

namespace StoreHistory

def new (address : Address) : StoreHistory := ⟨.new address, [], []⟩

/-- An operation on the store.  What lies below the height of a pruning is forgotten. -/
def step (h : StoreHistory) (op : StoreOp) : Option StoreHistory :=
  let messages := op.apply h.messages
  match op with
  | .add sender m =>
    let notifications := messages.notifications - h.messages.notifications
    some {
      messages
      notified := List.replicate notifications (m.slot sender) ++ h.notified
      emptied := h.emptied.filter (fun slot => slot ≠ m.slot sender) }
  | .prune height =>
    some {
      messages
      notified := h.notified.filter (fun slot => height ≤ slot.view.height)
      emptied := h.emptied.filter (fun slot => height ≤ slot.view.height) }
  | op =>
    some { h with
      messages
      emptied := h.notified.filter (op.empties h.messages) ++ h.emptied }

/-- The operation adds no message for an emptied slot. -/
def KeepsFirst (h : StoreHistory) : StoreOp → Prop
  | .add sender m => m.slot sender ∉ h.emptied
  | _ => True

instance (h : StoreHistory) : (op : StoreOp) → Decidable (h.KeepsFirst op)
  | .add sender m => inferInstanceAs (Decidable (m.slot sender ∉ h.emptied))
  | .getValidProposalDigest .. | .takeProposalMessage .. | .getValidPrepareCount ..
  | .takeValidPrepareMessages .. | .takeValidCommitSeals .. | .takeValidRoundChangeMessages ..
  | .getValidRoundChangeCount .. | .prune .. => inferInstanceAs (Decidable True)

/-- The occupied slots are those that were notified and not emptied since. -/
def Tracks (h : StoreHistory) : Prop :=
  ∀ slot, h.messages.occupied slot = true ↔ slot ∈ h.notified ∧ slot ∉ h.emptied

variable {h h' : StoreHistory}

theorem tracks_new (address : Address) : (new address).Tracks := by
  intro slot
  have hvacant : (ConsensusMessages.new address).occupied slot = false := by
    cases slot <;> simp [ConsensusMessages.new, ConsensusMessages.occupied,
      ConsensusMessages.storedProposal]
  simp [new, hvacant]

/-- What an addition to a vacant slot, and to an occupied one, does to the history. -/
theorem step_add (sender : Address) (m : IBFTMessage) :
    h.step (.add sender m) = some {
      messages := h.messages.addMessage sender m
      notified :=
        if h.messages.occupied (m.slot sender) then h.notified else m.slot sender :: h.notified
      emptied := h.emptied.filter (fun slot => slot ≠ m.slot sender) } := by
  unfold step
  simp only [StoreOp.apply]
  cases hocc : h.messages.occupied (m.slot sender) with
  | true => simp [ConsensusMessages.addMessage_of_occupied hocc]
  | false =>
    have hone : (h.messages.addMessage sender m).notifications - h.messages.notifications = 1 := by
      rw [ConsensusMessages.notifications_addMessage hocc]
      omega
    simp [hone]

/-- Steps keep track of the occupied slots. -/
theorem Tracks.step {op : StoreOp} (htracks : h.Tracks) (hstep : h.step op = some h') :
    h'.Tracks := by
  intro slot
  have hslot := htracks slot
  -- An addition fills one slot, pruning forgets the lower heights, a query empties slots.
  by_cases hadd : ∃ sender m, op = .add sender m
  · obtain ⟨sender, m, rfl⟩ := hadd
    rw [step_add] at hstep
    cases hstep
    have hself := htracks (m.slot sender)
    simp only [ConsensusMessages.occupied_addMessage]
    by_cases heq : slot = m.slot sender
    · subst heq
      cases hocc : h.messages.occupied (m.slot sender) with
      | true => simpa using (hself.mp hocc).1
      | false => simp
    · cases hocc : h.messages.occupied (m.slot sender) <;> simp [heq, hslot]
  · by_cases hprune : ∃ height, op = .prune height
    · obtain ⟨height, rfl⟩ := hprune
      cases hstep
      show (h.messages.prune height).occupied slot = true ↔ _
      rw [ConsensusMessages.occupied_prune]
      by_cases hheight : height ≤ slot.view.height <;> simp [hheight, hslot]
    · have hocc : (op.apply h.messages).occupied slot =
          (h.messages.occupied slot && !op.empties h.messages slot) :=
        ConsensusMessages.occupied_apply (fun sender m heq => hadd ⟨sender, m, heq⟩)
          (fun height heq => hprune ⟨height, heq⟩) slot
      have hh' : h' = { h with
          messages := op.apply h.messages
          emptied := h.notified.filter (op.empties h.messages) ++ h.emptied } := by
        cases op with
        | add sender m => exact absurd ⟨sender, m, rfl⟩ hadd
        | prune height => exact absurd ⟨height, rfl⟩ hprune
        | _ => exact (Option.some.inj hstep).symm
      subst hh'
      simp only [hocc, Bool.and_eq_true, hslot, List.mem_append, List.mem_filter]
      cases op.empties h.messages slot with
      | true => simpa using fun hmem hnot => absurd hmem hnot
      | false => simp

theorem Tracks.of_reachable {address : Address}
    (hreach : Reachable StoreHistory.step (new address) h) :
    h.Tracks :=
  hreach.invariant (I := Tracks) (fun _ _ _ htracks hstep => htracks.step hstep)
    (tracks_new address)

/-- A step that adds no message for an emptied slot notifies no slot twice. -/
theorem nodup_step {op : StoreOp} (htracks : h.Tracks) (hkeeps : h.KeepsFirst op)
    (hnodup : h.notified.Nodup) (hstep : h.step op = some h') : h'.notified.Nodup := by
  cases op with
  | add sender m =>
    rw [step_add] at hstep
    cases hstep
    show (if h.messages.occupied (m.slot sender) then _ else _ : List Slot).Nodup
    split
    · exact hnodup
    next hocc =>
      -- The slot is vacant and was not emptied, so it was never notified.
      refine List.nodup_cons.mpr ⟨fun hmem => hocc ?_, hnodup⟩
      exact (htracks _).mpr ⟨hmem, hkeeps⟩
  | prune height =>
    cases hstep
    exact hnodup.filter _
  | _ =>
    cases hstep
    exact hnodup

end StoreHistory

/-! ## The first message wins -/

/-- While no message comes for an emptied slot, no slot is notified twice; and a later message for
a notified slot is discarded exactly if the slot has not been emptied. -/
theorem firstMessageWins_of_keepsFirst (address : Address) {h : StoreHistory}
    (hreach : ReachableWithin StoreHistory.step StoreHistory.KeepsFirst (.new address) h) :
    h.notified.Nodup ∧ ∀ sender m, m.slot sender ∈ h.notified →
      (h.messages.addMessage sender m = h.messages ↔ m.slot sender ∉ h.emptied) := by
  refine ⟨?_, fun sender m hmem => ?_⟩
  · refine hreach.invariant_of (I := fun h => h.notified.Nodup)
      (fun _ hreach => StoreHistory.Tracks.of_reachable hreach) ?_ List.nodup_nil
    intro h op h' htracks _ hkeeps hnodup hstep
    exact StoreHistory.nodup_step htracks hkeeps hnodup hstep
  · have htracks := StoreHistory.Tracks.of_reachable hreach.reachable (m.slot sender)
    cases hocc : h.messages.occupied (m.slot sender) with
    | true =>
      exact iff_of_true (ConsensusMessages.addMessage_of_occupied hocc) (htracks.mp hocc).2
    | false =>
      refine iff_of_false (fun heq => ?_) (fun hempty => ?_)
      · have hone := ConsensusMessages.notifications_addMessage hocc
        rw [heq] at hone
        omega
      · rw [htracks.mpr ⟨hmem, hempty⟩] at hocc
        cases hocc

/-- A validator of two sends its prepare twice, and the other one counts it. -/
def repeatedPrepare : List StoreOp :=
  [.add (modelAddress 0) (.prepare duoPrepare),
    .getValidPrepareCount duoView (fun m => m.proposedBlockDigest = duoPrepare.proposedBlockDigest),
    .add (modelAddress 0) (.prepare duoPrepare)]

def repeatedHistory : StoreHistory :=
  (exec StoreHistory.step (.new (modelAddress 1)) repeatedPrepare).get (by decide +kernel)

theorem firstMessageWins_repeated :
    repeatedHistory.notified.Nodup ∧ ∀ sender m, m.slot sender ∈ repeatedHistory.notified →
      (repeatedHistory.messages.addMessage sender m = repeatedHistory.messages ↔
        m.slot sender ∉ repeatedHistory.emptied) :=
  firstMessageWins_of_keepsFirst (modelAddress 1) (reachableWithin_get (by decide +kernel) _)

/-- The validator sends a prepare for another block first; counting rejects it, and the second
prepare is admitted. -/
def replacedPrepare : List StoreOp :=
  [.add (modelAddress 0)
      (.prepare (soloConfig.ownPrepare duoView (digestBlock modelCrypto [8] 0))),
    .getValidPrepareCount duoView (fun m => m.proposedBlockDigest = duoPrepare.proposedBlockDigest),
    .add (modelAddress 0) (.prepare duoPrepare)]

def replacedHistory : StoreHistory :=
  (exec StoreHistory.step (.new (modelAddress 1)) replacedPrepare).get (by decide +kernel)

theorem not_firstMessageWins_replaced :
    ¬ ∀ h, Reachable StoreHistory.step (.new (modelAddress 1)) h → h.notified.Nodup := by
  intro hall
  have hnodup := hall replacedHistory (reachable_get _)
  exact absurd hnodup (by decide +kernel)

end Tonic
